/-
  File:      Persimmon/CommandLogProgress.lean
  Subject:   EVERY ENTRY IS CONSUMED AT LAST, and when a call of `psm_reserve` comes to an end
             (src/fg.cc: `psm_reserve`; src/bg.cc: `run_consumer`; src/internal.h: `update_tail`).

  A run without an end in which the background goes on, the hardware writes back at last what it was
  asked to, and a foreground that spins goes on spinning. Nothing else is asked: the foreground may
  stop between its calls, the callback may be called again and again on a log that stays empty.

  * `Psm.Fair` -- such a run;
  * `Psm.remaining` -- how far the background is from having passed a position;
    `background_falls`, `others_keep` -- its own steps bring it nearer, no other step takes it away;
  * `entries_passed` -- the tail passes every entry that is committed;
  * `Psm.Room` -- the space the call needs, beside what the foreground itself has reserved since its
    last commit; `reserve_progress` -- with it the call ends, without it never.
-/
import Persimmon.CommandLogReserve

namespace Persimmon

open PersistentMemory Transition

/-! ## 1. Fair runs -/

/-- A step of the background. -/
def PsmAct.Background : PsmAct → Prop
  | .consumer | .call _ => True
  | _ => False

namespace Psm

/-- The background waits in `pmem_drain`. -/
def Waits (s : Psm) : Prop := s.consumer = .drainingTail ∧ ¬ s.mem.Drained .consumer

/-- **A fair run.** -/
structure Fair (t : Trace Psm.Step Psm.Proper) : Prop where
  background : ∀ n, ∃ m, n ≤ m ∧ ((t.label m).Background ∨ (t.state m).Waits)
  foreground : ∀ n len src, (t.state n).producer = .reserving len src →
    ∃ m, n ≤ m ∧ (t.label m = .producer ∨ (t.state m).producer ≠ .reserving len src)
  hardware : ∀ n side l, l ∈ (t.state n).mem.pending side → ∃ m, n ≤ m ∧ t.label m = .evict l

/-- The background asks for the line of the tail only. -/
def AsksTail (s : Psm) : Prop := ∀ l ∈ s.mem.pending .consumer, l = .tail

section Step

variable {s s' : Psm} {a : PsmAct} {p len : ℕ} {src : Option (List ℕ)}

/-- A flush by the foreground is none by the background. -/
theorem pending_flush_producer (m : PsmMemory) (l : PsmLine) :
    (m.flush .producer l).pending .consumer = m.pending .consumer := by
  simp [Memory.flush]

theorem asksTail_step (h : s.AsksTail) (hs : s.Step a s') : s'.AsksTail := by
  have hflush : ∀ (m : PsmMemory) l, m.pending = s.mem.pending →
      ∀ k ∈ (m.flush .producer l).pending .consumer, k = .tail := fun m l hm k hk => by
    rw [pending_flush_producer, hm] at hk
    exact h k hk
  cases hs with
  | flushPad hp => exact hflush _ _ rfl
  | copy hp hi => exact hflush _ _ rfl
  | flush hp hi => exact hflush _ _ rfl
  | flushHead hp => exact hflush _ _ rfl
  | flushTail hc =>
      intro k hk
      have hk' : k ∈ insert PsmLine.tail (s.mem.pending .consumer) := by
        simpa [Memory.flush] using hk
      exact (Set.mem_insert_iff.mp hk').elim id (h k)
  | evict l => exact fun k hk => h k hk.1
  | _ => exact h

/-! ## 2. The background -/

open Classical in
/-- How many steps the background is away from the next call of the callback, or from the end of
    `update_tail`. -/
noncomputable def rank (s : Psm) : ℕ :=
  match s.consumer with
  | .loaded head => if head = s.consumerTail then 3 else 1
  | .idle => 2
  | .publishingTail => 4
  | .drainingTail => if s.mem.Drained .consumer then 5 else 6
  | .flushingTail => 7
  | .storingTail => 8

/-- **How far the background is from having passed position `p`.** -/
noncomputable def remaining (p : ℕ) (s : Psm) : ℕ := 10 * (p - s.hist.consumedPos) + s.rank

theorem waits_iff_rank : s.Waits ↔ s.rank = 6 := by
  unfold Waits rank
  cases s.consumer with
  | loaded head =>
      simp only [reduceCtorEq, false_and, false_iff]
      split <;> decide
  | drainingTail =>
      simp only [true_and]
      split <;> simp_all
  | _ => simp

theorem rank_le (s : Psm) : s.rank ≤ 8 := by
  unfold rank
  split <;> (try split) <;> decide

/-- Whether the background waits shows in how far it is. -/
theorem waits_of_remaining (h : remaining p s = remaining p s') (hw : s.Waits) : s'.Waits := by
  have h1 := waits_iff_rank.mp hw
  have h2 := s'.rank_le
  refine waits_iff_rank.mpr ?_
  unfold remaining at h
  omega

/-- A step of the others leaves the background where it is, and what it waits for does not grow. -/
theorem others_keep (ha : ¬ a.Background) (hs : s.Step a s') :
    s'.consumer = s.consumer ∧ s'.consumerTail = s.consumerTail ∧
      s'.hist.consumedPos = s.hist.consumedPos ∧ s'.hist.tailPos = s.hist.tailPos ∧
      (s.mem.Drained .consumer → s'.mem.Drained .consumer) := by
  have hflush : ∀ (m : PsmMemory) l, m.pending = s.mem.pending →
      s.mem.Drained .consumer → (m.flush .producer l).Drained .consumer := fun m l hm hd => by
    unfold Memory.Drained
    rw [pending_flush_producer, hm]
    exact hd
  cases hs with
  | flushPad hp => exact ⟨rfl, rfl, rfl, rfl, hflush _ _ rfl⟩
  | copy hp hi => exact ⟨rfl, rfl, rfl, rfl, hflush _ _ rfl⟩
  | flush hp hi => exact ⟨rfl, rfl, rfl, rfl, hflush _ _ rfl⟩
  | flushHead hp => exact ⟨rfl, rfl, rfl, rfl, hflush _ _ rfl⟩
  | evict l =>
      refine ⟨rfl, rfl, rfl, rfl, fun hd => Set.eq_empty_of_forall_notMem fun k hk => ?_⟩
      have hin : k ∈ s.mem.pending .consumer := hk.1
      rw [hd] at hin
      exact hin
  | load hc => exact absurd trivial ha
  | callNothing n hc he => exact absurd trivial ha
  | call n hc he => exact absurd trivial ha
  | storeTail hc => exact absurd trivial ha
  | flushTail hc => exact absurd trivial ha
  | drainTail hc hd => exact absurd trivial ha
  | publishTail hc => exact absurd trivial ha
  | _ => exact ⟨rfl, rfl, rfl, rfl, id⟩

theorem remaining_le (ha : ¬ a.Background) (hs : s.Step a s') : remaining p s' ≤ remaining p s := by
  obtain ⟨h1, h2, h3, -, h5⟩ := others_keep ha hs
  unfold remaining rank
  rw [h1, h2, h3]
  cases s.consumer with
  | drainingTail =>
      simp only
      split_ifs with hd' hd
      · omega
      · omega
      · exact absurd (h5 ‹_›) hd'
      · omega
  | _ => exact le_refl _

/-- **A write-back of the tail** ends the wait. -/
theorem evict_falls (h : s.AsksTail) (hw : s.Waits) (hs : s.Step (.evict .tail) s') :
    remaining p s' < remaining p s := by
  obtain ⟨hc, hnd⟩ := hw
  cases hs with
  | evict =>
      have hd : (s.mem.evict psmLine .tail).Drained .consumer := drained_evict h
      unfold remaining rank
      simp only [hc, if_pos hd, if_neg hnd]
      omega

/-- **A step of the background** brings it nearer to a committed position it has not passed. -/
theorem background_falls (h : s.Inv) (hlt : s.hist.tailPos < p) (hp : p ≤ s.hist.headPos)
    (hok : s.Proper a) (ha : a.Background) (hs : s.Step a s') :
    p ≤ s'.hist.tailPos ∨ remaining p s' < remaining p s := by
  have hcons := h.consumed
  have hpassed : s.hist.passing = [] → s.hist.consumedPos = s.hist.tailPos := fun hnil => by
    have hchain := h.pos.passing
    rw [hnil] at hchain
    exact hchain.unique (.nil _)
  cases hs with
  | load hc =>
      simp only [ConsumedInv, hc] at hcons
      have hat := hpassed hcons
      have hne : s.head ≠ s.consumerTail := by
        rw [h.pos.head, h.pos.consumerTail]
        intro heq
        have hle := h.pos.le
        have := place_inj (t := s.hist.consumedPos) ⟨by omega, by omega⟩ ⟨le_refl _, by omega⟩ heq
        omega
      unfold remaining rank
      simp only [hc, if_neg hne]
      omega
  | @callNothing head n hc he =>
      have hstale : head = s.consumerTail := by
        rcases consume_loaded h hc hok with ⟨heq, -⟩ | ⟨slot, rest, -, -, hent⟩
        · exact heq
        · rw [he] at hent
          cases hent
      unfold remaining rank
      simp only [hc, if_pos hstale]
      omega
  | @call head place newTail n hc he =>
      simp only [ConsumedInv, hc] at hcons
      have hat := hpassed hcons.1
      rcases consume_loaded h hc hok with ⟨-, hnone⟩ | ⟨slot, rest, hcommitted, hstart, -⟩
      · rw [he] at hnone
        cases hnone
      have hin : slot ∈ s.hist.passing ++ s.hist.committed := by
        rw [hcommitted]
        simp
      have hslot := (h.pos.mem_stored hin).1
      have hstop := hslot.pos_lt
      have hle := hslot.start_le
      unfold remaining rank History.call
      simp only [hc, hcommitted]
      split <;> omega
  | storeTail hc =>
      unfold remaining rank
      simp only [hc]
      omega
  | flushTail hc =>
      unfold remaining rank
      simp only [hc]
      split <;> omega
  | drainTail hc hd =>
      unfold remaining rank
      simp only [hc, if_pos hd]
      omega
  | publishTail hc =>
      by_cases hle : p ≤ s.hist.consumedPos
      · exact Or.inl hle
      · unfold remaining rank
        simp only [hc]
        omega
  | _ => exact ha.elim

theorem headPos_le (h : s.Positions) (hs : s.Step a s') : s.hist.headPos ≤ s'.hist.headPos := by
  cases hs with
  | publishHead hp => exact h.le.2.2.1
  | call n hc he =>
      show s.hist.headPos ≤ (s.hist.call _).headPos
      unfold History.call
      split <;> exact le_refl _
  | _ => exact le_refl _

theorem tailPos_le (h : s.Positions) (hs : s.Step a s') : s.hist.tailPos ≤ s'.hist.tailPos := by
  cases hs with
  | publishTail hc => exact h.le.1
  | call n hc he =>
      show s.hist.tailPos ≤ (s.hist.call _).tailPos
      unfold History.call
      split <;> exact le_refl _
  | _ => exact le_refl _

end Step

/-! ## 3. Entries are consumed at last -/

section Run

variable {t : Trace Psm.Step Psm.Proper}

/-- What holds in every state of a run. -/
theorem inv_trace (h0 : Runs Psm.Step Psm.Proper Psm.start (t.state 0)) (n : ℕ) :
    (t.state n).Inv ∧ (t.state n).AsksTail :=
  ⟨inv_runs (t.runs h0 n), (t.runs h0 n).invariant (fun _ hl => absurd hl (Set.notMem_empty _))
    fun _ _ _ hi _ hs => asksTail_step hi hs⟩

/-- **The tail passes every position the head has passed.** -/
theorem leads_passed (h0 : Runs Psm.Step Psm.Proper Psm.start (t.state 0)) (hfair : Fair t) (p : ℕ) :
    t.Leads (fun s => p ≤ s.hist.headPos) fun s => p ≤ s.hist.tailPos := by
  have hleads : t.Leads (fun s => p ≤ s.hist.headPos ∧ s.hist.tailPos < p)
      fun s => p ≤ s.hist.tailPos := by
    refine Trace.leads_of_measure (remaining p) fun k => ?_
    -- a step of the background, or of the hardware while the background waits, lowers the measure
    have hstep : ∀ n, ((p ≤ (t.state n).hist.headPos ∧ (t.state n).hist.tailPos < p) ∧
        remaining p (t.state n) = k) →
        ((t.label n).Background ∨ (t.state n).Waits ∧ t.label n = .evict .tail →
          p ≤ (t.state (n + 1)).hist.tailPos ∨
            (p ≤ (t.state (n + 1)).hist.headPos ∧ (t.state (n + 1)).hist.tailPos < p) ∧
              remaining p (t.state (n + 1)) < k) ∧
        (p ≤ (t.state (n + 1)).hist.tailPos ∨
          (p ≤ (t.state (n + 1)).hist.headPos ∧ (t.state (n + 1)).hist.tailPos < p) ∧
            remaining p (t.state (n + 1)) ≤ k) := by
      rintro n ⟨⟨hhead, htail⟩, rfl⟩
      obtain ⟨hinv, hasks⟩ := inv_trace h0 n
      have hhead' := hhead.trans (headPos_le hinv.pos (t.step n))
      have hfall : (t.label n).Background ∨ (t.state n).Waits ∧ t.label n = .evict .tail →
          p ≤ (t.state (n + 1)).hist.tailPos ∨
            remaining p (t.state (n + 1)) < remaining p (t.state n) := by
        rintro (hb | ⟨hw, he⟩)
        · exact background_falls hinv htail hhead (t.ok n) hb (t.step n)
        · exact Or.inr (evict_falls hasks hw (he ▸ t.step n))
      refine ⟨fun hact => ?_, ?_⟩
      · rcases Nat.lt_or_ge (t.state (n + 1)).hist.tailPos p with hlt | hge
        · exact Or.inr ⟨⟨hhead', hlt⟩, (hfall hact).resolve_left (by omega)⟩
        · exact Or.inl hge
      · rcases Nat.lt_or_ge (t.state (n + 1)).hist.tailPos p with hlt | hge
        · refine Or.inr ⟨⟨hhead', hlt⟩, ?_⟩
          by_cases hb : (t.label n).Background
          · exact ((hfall (Or.inl hb)).resolve_left (by omega)).le
          · exact remaining_le hb (t.step n)
        · exact Or.inl hge
    refine Trace.leads_of_step (fun n hn => ?_) fun n hn => ?_
    · rcases (hstep n hn).2 with hq | ⟨hp, hle⟩
      · exact Or.inr (Or.inl hq)
      · rcases Nat.eq_or_lt_of_le hle with heq | hlt
        · exact Or.inl ⟨hp, heq⟩
        · exact Or.inr (Or.inr ⟨hp, hlt⟩)
    · by_cases hw : (t.state n).Waits
      · obtain ⟨l, hl⟩ := Set.nonempty_iff_ne_empty.mpr hw.2
        obtain rfl := (inv_trace h0 n).2 l hl
        obtain ⟨m, hm, he⟩ := hfair.hardware n _ _ hl
        -- the measure is still `k` at `m`, so the background still waits
        exact ⟨m, hm, fun hp => (hstep m hp).1
          (Or.inr ⟨waits_of_remaining (hn.2.trans hp.2.symm) hw, he⟩)⟩
      · obtain ⟨m, hm, hb | hw'⟩ := hfair.background n
        · exact ⟨m, hm, fun hp => (hstep m hp).1 (Or.inl hb)⟩
        · exact ⟨m, hm, fun hp => absurd (waits_of_remaining (hp.2.trans hn.2.symm) hw') hw⟩
  intro n hn
  rcases Nat.lt_or_ge (t.state n).hist.tailPos p with hlt | hge
  · exact hleads n ⟨hn, hlt⟩
  · exact ⟨n, le_refl _, hge⟩

/-- Entries never leave the log's history. -/
theorem entries_mono {n m : ℕ} (h : n ≤ m) {slot : Slot} (hs : slot ∈ (t.state n).hist.entries) :
    slot ∈ (t.state m).hist.entries := by
  induction h with
  | refl => exact hs
  | @step k hk ih =>
      rcases entries_step (t.step k) with he | ⟨-, he⟩
      · exact he ▸ ih
      · exact he ▸ List.mem_append_left _ ih

/-- **The tail passes every entry that is committed**, in every fair run, so that its space is free
    again. -/
theorem entries_passed (h0 : Runs Psm.Step Psm.Proper Psm.start (t.state 0)) (hfair : Fair t) {n : ℕ}
    {slot : Slot} (hs : slot ∈ (t.state n).hist.entries) :
    ∃ m, n ≤ m ∧ slot ∈ (t.state m).hist.passed := by
  unfold History.entries at hs
  rw [List.append_assoc] at hs
  rcases List.mem_append.mp hs with hdone | hpend
  · exact ⟨n, le_refl n, hdone⟩
  · obtain ⟨-, -, hhead⟩ := (inv_trace h0 n).1.pos.mem_stored hpend
    obtain ⟨m, hm, htail⟩ := leads_passed h0 hfair _ n (le_refl (t.state n).hist.headPos)
    refine ⟨m, hm, ?_⟩
    have hin : slot ∈ (t.state m).hist.entries := entries_mono hm (by
      unfold History.entries
      rwa [List.append_assoc])
    unfold History.entries at hin
    rw [List.append_assoc, List.mem_append] at hin
    refine hin.resolve_right fun hlate => ?_
    obtain ⟨hok, hstart, -⟩ := (inv_trace h0 m).1.pos.mem_stored hlate
    have hstop := hok.pos_lt
    have hle := hok.start_le
    omega

end Run

/-! ## 4. When `psm_reserve` returns -/

section Reserve

variable {s s' : Psm} {a : PsmAct} {len : ℕ} {src : Option (List ℕ)}

/-- **There is room for the call**: what it needs and what the foreground has reserved since its last
    commit are less than the buffer. -/
def Room (s : Psm) (len : ℕ) : Prop :=
  s.needed len + (s.hist.localHeadPos - s.hist.headPos) < psmLogSizeB

instance (s : Psm) (len : ℕ) : Decidable (s.Room len) := inferInstanceAs (Decidable (_ < _))

/-- With nothing reserved since the last commit, there is room for what fits. -/
theorem room_iff_fits (h : s.Positions) (hlen : Admitted len) (hres : s.hist.reserved = []) :
    s.Room len ↔ s.Fits len := by
  have hchain := h.reserved
  rw [hres] at hchain
  have heq : s.hist.localHeadPos = s.hist.headPos := hchain.unique (.nil _)
  have hlt : s.localHead < psmLogSizeB := by
    rw [h.localHead]
    exact Nat.mod_lt _ (by decide)
  rw [← needed_le_iff hlt hlen, Room, heq, Nat.sub_self]
  unfold psmLogSizeB
  omega

/-- The spin loop ends by the tail that it has loaded. -/
theorem hasSpace_iff (h : s.Positions) :
    s.HasSpace len ↔ s.needed len + (s.hist.localHeadPos - s.hist.localTailPos) < psmLogSizeB := by
  have hroom := h.room
  have hle := h.le
  have hlt := h.localTail_le
  unfold HasSpace
  rw [h.localHead, h.localTail]
  generalize s.needed len = n
  unfold psmLogSizeB at *
  omega

/-- **A step while the call spins**: it leaves the loop, or goes on with a newer tail or the old one. -/
theorem reserving_step (hp : s.producer = .reserving len src) (hs : s.Step a s') :
    s.HasSpace len ∧ s'.producer ≠ .reserving len src ∨
      s'.producer = .reserving len src ∧ s'.localHead = s.localHead ∧
        s'.hist.headPos = s.hist.headPos ∧ s'.hist.localHeadPos = s.hist.localHeadPos ∧
        (a = .producer → ¬ s.HasSpace len ∧ s'.hist.localTailPos = s.hist.tailPos) ∧
        (a ≠ .producer → s'.hist.localTailPos = s.hist.localTailPos) := by
  cases hs with
  | take hp' hsp ht =>
      rw [hp] at hp'
      cases hp'
      exact Or.inl ⟨hsp, take_producer_ne s⟩
  | pad hp' hsp ht =>
      rw [hp] at hp'
      cases hp'
      exact Or.inl ⟨hsp, nofun⟩
  | spin hp' hsp =>
      rw [hp] at hp'
      cases hp'
      exact Or.inr ⟨hp, rfl, rfl, rfl, fun _ => ⟨hsp, rfl⟩, fun hne => absurd rfl hne⟩
  | callNothing n hc he => exact Or.inr ⟨hp, rfl, rfl, rfl, nofun, fun _ => rfl⟩
  | call n hc he =>
      refine Or.inr ⟨hp, rfl, ?_, ?_, nofun, fun _ => ?_⟩ <;>
      · unfold History.call
        simp only
        split <;> rfl
  | load hc => exact Or.inr ⟨hp, rfl, rfl, rfl, nofun, fun _ => rfl⟩
  | storeTail hc => exact Or.inr ⟨hp, rfl, rfl, rfl, nofun, fun _ => rfl⟩
  | flushTail hc => exact Or.inr ⟨hp, rfl, rfl, rfl, nofun, fun _ => rfl⟩
  | drainTail hc hd => exact Or.inr ⟨hp, rfl, rfl, rfl, nofun, fun _ => rfl⟩
  | publishTail hc => exact Or.inr ⟨hp, rfl, rfl, rfl, nofun, fun _ => rfl⟩
  | evict l => exact Or.inr ⟨hp, rfl, rfl, rfl, nofun, fun _ => rfl⟩
  | _ => simp_all

theorem room_congr (h1 : s'.localHead = s.localHead) (h2 : s'.hist.headPos = s.hist.headPos)
    (h3 : s'.hist.localHeadPos = s.hist.localHeadPos) : s'.Room len ↔ s.Room len := by
  have hneeded : s'.needed len = s.needed len := by
    unfold needed
    rw [h1]
    exact if_congr (by unfold Truncated; rw [h1]) rfl rfl
  unfold Room
  rw [hneeded, h2, h3]

/-- **Without room the call blocks for ever.** -/
theorem blocked_of_not_room (h : Runs Psm.Step Psm.Proper Psm.start s)
    (hp : s.producer = .reserving len src) (hno : ¬ s.Room len) : s.Blocked len src := by
  intro s' hrun
  have hall : s'.Inv ∧ s'.producer = .reserving len src ∧ ¬ s'.Room len := by
    refine @Runs.invariant _ _ _ _ _ _
      (fun v => v.Inv ∧ v.producer = .reserving len src ∧ ¬ v.Room len) hrun ⟨inv_runs h, hp, hno⟩
      fun v a v' ⟨hi, hv, hr⟩ hok hs => ⟨inv_step hi hok hs, ?_⟩
    rcases reserving_step hv hs with ⟨hsp, -⟩ | ⟨hv', h1, h2, h3, -, -⟩
    · -- the tail the foreground has loaded is not past the head
      have hle := hi.pos.le
      have hlt := hi.pos.localTail_le
      rw [hasSpace_iff hi.pos] at hsp
      unfold Room at hr
      omega
    · exact ⟨hv', fun hr' => hr ((room_congr h1 h2 h3).mp hr')⟩
  exact hall.2.1

/-- **With room the loop ends**, in every fair run. -/
theorem leaves_of_room {t : Trace Psm.Step Psm.Proper}
    (h0 : Runs Psm.Step Psm.Proper Psm.start (t.state 0)) (hfair : Fair t)
    (hroom : (t.state 0).Room len) :
    ∃ n, (t.state n).producer ≠ .reserving len src := by
  by_contra hleaves
  have hstay : ∀ n, (t.state n).producer = .reserving len src := fun n =>
    not_not.mp fun hne => hleaves ⟨n, hne⟩
  have hstep := fun n => (reserving_step (hstay n) (t.step n)).resolve_left fun h =>
    h.2 (hstay (n + 1))
  have hpos := fun n => (inv_trace h0 n).1.pos
  -- as long as it spins, nothing is committed
  have hsame : ∀ n, (t.state n).localHead = (t.state 0).localHead ∧
      (t.state n).hist.headPos = (t.state 0).hist.headPos ∧
      (t.state n).hist.localHeadPos = (t.state 0).hist.localHeadPos := by
    intro n
    induction n with
    | zero => exact ⟨rfl, rfl, rfl⟩
    | succ n ih =>
        obtain ⟨-, h1, h2, h3, -⟩ := hstep n
        exact ⟨h1.trans ih.1, h2.trans ih.2.1, h3.trans ih.2.2⟩
  -- the tail comes to the head, and stays there
  obtain ⟨m, -, hm⟩ := leads_passed h0 hfair _ 0 (le_refl (t.state 0).hist.headPos)
  have htail : ∀ n, m ≤ n → (t.state 0).hist.headPos ≤ (t.state n).hist.tailPos := by
    intro n hn
    induction n, hn using Nat.le_induction with
    | base => exact hm
    | succ n hn ih => exact ih.trans (tailPos_le (hpos n) (t.step n))
  have hspins : ∀ n, ∃ k, n ≤ k ∧ t.label k = .producer := fun n => by
    obtain ⟨k, hk, h⟩ := hfair.foreground n len src (hstay n)
    exact ⟨k, hk, h.resolve_right fun hne => hne (hstay k)⟩
  -- the next time round the loop loads it
  obtain ⟨k, hk, hlabel⟩ := hspins m
  have hloaded : ∀ n, k + 1 ≤ n → (t.state 0).hist.headPos ≤ (t.state n).hist.localTailPos := by
    intro n hn
    induction n, hn using Nat.le_induction with
    | base =>
        obtain ⟨-, -, -, -, h4, -⟩ := hstep k
        exact (h4 hlabel).2 ▸ htail k hk
    | succ n hn ih =>
        obtain ⟨-, -, -, -, h4, h5⟩ := hstep n
        by_cases hl : t.label n = .producer
        · exact (h4 hl).2 ▸ htail n (by omega)
        · exact h5 hl ▸ ih
  -- and the time after it the loop ends
  obtain ⟨j, hj, hlast⟩ := hspins (k + 1)
  obtain ⟨-, -, -, -, h4, -⟩ := hstep j
  refine (h4 hlast).1 ((hasSpace_iff (hpos j)).mpr ?_)
  have hroom' : (t.state j).Room len :=
    (room_congr (hsame j).1 (hsame j).2.1 (hsame j).2.2).mpr hroom
  have hload := hloaded j hj
  have hhead := (hsame j).2.1
  unfold Room at hroom'
  omega

/-- **`psm_reserve` returns exactly when there is room** for what it needs beside what the foreground
    has reserved since its last commit: then its loop ends in every fair run, and else in none. -/
theorem reserve_progress (h : Runs Psm.Step Psm.Proper Psm.start s)
    (hp : s.producer = .reserving len src) :
    (s.Room len → ∀ t : Trace Psm.Step Psm.Proper, t.state 0 = s → Fair t →
      ∃ n, (t.state n).producer ≠ .reserving len src) ∧
    (¬ s.Room len → s.Blocked len src) := by
  refine ⟨fun hroom t h0 hfair => ?_, blocked_of_not_room h hp⟩
  subst h0
  exact leaves_of_room h hfair hroom

end Reserve

/-! ## 5. There are fair runs -/

section Fair

/-- A line that is asked for is asked for until it is written back. -/
theorem pending_step {s s' : Psm} {a : PsmAct} {side : Side} {l : PsmLine} (hs : s.Step a s')
    (hl : l ∈ s.mem.pending side) : a = .evict l ∨ l ∈ s'.mem.pending side := by
  cases hs with
  | flushPad hp => exact Or.inr (Memory.mem_flush_pending hl)
  | copy hp hi => exact Or.inr (Memory.mem_flush_pending hl)
  | flush hp hi => exact Or.inr (Memory.mem_flush_pending hl)
  | flushHead hp => exact Or.inr (Memory.mem_flush_pending hl)
  | flushTail hc => exact Or.inr (Memory.mem_flush_pending hl)
  | evict m =>
      by_cases h : l = m
      · exact Or.inl (by rw [h])
      · exact Or.inr ⟨hl, h⟩
  | _ => exact Or.inr hl

/-- **A step before a fair run** makes another one. -/
theorem Fair.cons {t : Trace Psm.Step Psm.Proper} (h : Fair t) {s : Psm} {a : PsmAct}
    (hok : s.Proper a) (hs : s.Step a (t.state 0)) : Fair (t.cons hok hs) where
  background n := by
    obtain ⟨m, hm, hb⟩ := h.background n
    exact ⟨m + 1, by omega, hb⟩
  foreground n len src hp := by
    cases n with
    | zero =>
        by_cases hp' : (t.state 0).producer = .reserving len src
        · obtain ⟨m, -, hf⟩ := h.foreground 0 len src hp'
          exact ⟨m + 1, Nat.zero_le _, hf⟩
        · exact ⟨1, Nat.zero_le _, Or.inr hp'⟩
    | succ n =>
        obtain ⟨m, hm, hf⟩ := h.foreground n len src hp
        exact ⟨m + 1, by omega, hf⟩
  hardware n side l hl := by
    cases n with
    | zero =>
        rcases pending_step hs hl with he | hl'
        · exact ⟨0, le_refl 0, he⟩
        · obtain ⟨m, -, he⟩ := h.hardware 0 side l hl'
          exact ⟨m + 1, Nat.zero_le _, he⟩
    | succ n =>
        obtain ⟨m, hm, he⟩ := h.hardware n side l hl
        exact ⟨m + 1, by omega, he⟩

/-- A whole run before it. -/
theorem Fair.of_runs {s0 s : Psm} (h : Runs Psm.Step Psm.Proper s0 s) {t : Trace Psm.Step Psm.Proper}
    (ht : Fair t) (h0 : t.state 0 = s) :
    ∃ t' : Trace Psm.Step Psm.Proper, Fair t' ∧ t'.state 0 = s0 ∧
      ∃ k, ∀ n, t'.state (n + k) = t.state n := by
  induction h generalizing t with
  | start => exact ⟨t, ht, h0, 0, fun n => rfl⟩
  | step a _ hok hs ih =>
      subst h0
      obtain ⟨t', hfair, hfirst, k, hk⟩ := ih (ht.cons hok hs) rfl
      exact ⟨t', hfair, hfirst, k + 1, fun n => (congrArg t'.state (by omega)).trans (hk (n + 1))⟩

/-- A log that nothing is pushed to: the background loads the head and finds nothing, for ever. -/
def idleTrace (s : Psm) (hc : s.consumer = .idle) (hh : s.consumerTail = s.head)
    (hcom : s.hist.committed = []) : Trace Psm.Step Psm.Proper where
  state n := if n % 2 = 0 then s else { s with consumer := .loaded s.head }
  label n := if n % 2 = 0 then .consumer else .call 1
  ok n := by
    split
    · exact trivial
    · intro slot hslot
      simp [hcom] at hslot
  step n := by
    rcases Nat.mod_two_eq_zero_or_one n with he | he
    · rw [if_pos he, if_pos he, if_neg (by omega)]
      exact .load hc
    · rw [if_neg (by omega), if_neg (by omega), if_pos (by omega)]
      have hidle : s = { { s with consumer := .loaded s.head } with consumer := .idle } := by
        rw [← hc]
      refine hidle ▸ Step.callNothing 1 rfl ?_
      exact hh ▸ consume_empty _ _ _

theorem idleTrace_fair {s : Psm} (hc : s.consumer = .idle) (hh : s.consumerTail = s.head)
    (hcom : s.hist.committed = []) (hp : s.producer = .idle) (hnone : ∀ side, s.mem.Drained side) :
    Fair (idleTrace s hc hh hcom) where
  background n := ⟨n, le_refl n, Or.inl (by
    show PsmAct.Background (if n % 2 = 0 then .consumer else .call 1)
    split <;> exact trivial)⟩
  foreground n len src hres := by
    have hidle : ((idleTrace s hc hh hcom).state n).producer = .idle := by
      show (if n % 2 = 0 then s else { s with consumer := .loaded s.head }).producer = .idle
      split <;> exact hp
    rw [hidle] at hres
    cases hres
  hardware n side l hl := by
    have hmem : ((idleTrace s hc hh hcom).state n).mem = s.mem := by
      show (if n % 2 = 0 then s else { s with consumer := .loaded s.head }).mem = s.mem
      split <;> rfl
    rw [hmem, hnone side] at hl
    exact absurd hl (Set.notMem_empty l)

/-- **A run through `u` that comes to rest** goes on as a fair one. -/
theorem exists_fair {s0 u v : Psm} (h : Runs Psm.Step Psm.Proper s0 u)
    (h' : Runs Psm.Step Psm.Proper u v) (hc : v.consumer = .idle) (hh : v.consumerTail = v.head)
    (hcom : v.hist.committed = []) (hp : v.producer = .idle) (hnone : ∀ side, v.mem.Drained side) :
    ∃ t : Trace Psm.Step Psm.Proper, Fair t ∧ t.state 0 = s0 ∧ ∃ n, t.state n = u := by
  obtain ⟨t1, hfair1, hfirst1, -⟩ := Fair.of_runs h' (idleTrace_fair hc hh hcom hp hnone) rfl
  obtain ⟨t, hfair, hfirst, n, hn⟩ := Fair.of_runs h hfair1 hfirst1
  exact ⟨t, hfair, hfirst, 0 + n, (hn 0).trans hfirst1⟩

end Fair

/-- One byte is pushed and committed in a fair run; the background consumes it. -/
theorem entries_passed_pushOne : ∃ (t : Trace Psm.Step Psm.Proper) (n : ℕ) (slot : Slot),
    t.state 0 = Psm.start ∧ slot ∈ (t.state n).hist.entries ∧
      ∃ m, n ≤ m ∧ slot ∈ (t.state m).hist.passed := by
  have h1 : Runs Psm.Step Psm.Proper Psm.start _ :=
    Runs.start.step (PsmAct.push [7]) ⟨⟨by decide, by decide⟩, by decide⟩ (Step.push [7] rfl)
  have h2 := h1.step PsmAct.producer trivial
    (Step.take rfl (show 64 ≤ (0 + psmLogSizeB - 0 - 1) % psmLogSizeB by decide)
      (show ¬ psmLogSizeB < 0 + 64 by decide))
  obtain ⟨m1, h3, hd1, hnew, -⟩ := runs_copying (p := 0) (i := 0) (n := 1) h2 rfl rfl fun t => rfl
  have h4 := h3.step (PsmAct.commit true)
    (fun slot hslot => by rw [List.mem_singleton.mp hslot]; exact ⟨by decide, fun _ => rfl⟩)
    (Step.commit true rfl (show 64 % psmLogSizeB ≠ 0 by decide))
  obtain ⟨m2, h5, hd2, hcache2, -⟩ := runs_updateHead h4 rfl hd1
  -- from here the background goes on alone
  have hbyte : m2.cache (.buf 0) = 7 := by
    rw [hcache2]
    exact hnew 0 (le_refl 0) (by decide)
  have hcons : consume (fun i => m2.cache (.buf i)) (fun _ => 1) (64 % psmLogSizeB) 2 0 =
      .entry 0 64 := by
    rw [consume, if_neg (by decide), hbyte, if_neg (by decide), if_neg (by decide),
      if_pos (by decide)]
    decide
  have hself : ∀ {u : Psm}, Runs Psm.Step Psm.Proper Psm.start u → Runs Psm.Step Psm.Proper u u :=
    fun _ => .start
  obtain ⟨m3, g, hd3, -⟩ := runs_consumed (hself h5) rfl hcons
    (fun slot hslot => by cases hslot; rfl) hd2
  obtain ⟨t, hfair, hfirst, n, hn⟩ := exists_fair h5 g rfl rfl rfl rfl hd3
  obtain ⟨slot, hslot⟩ : ∃ slot, slot ∈ (t.state n).hist.entries := by
    rw [hn]
    exact ⟨_, List.mem_singleton_self _⟩
  exact ⟨t, n, slot, hfirst, hslot, entries_passed (hfirst ▸ .start) hfair hslot⟩

/-- Two lines are asked for. -/
def reserveTwo : Psm := { Psm.start with producer := .reserving 128 none }

/-- A call for two lines leaves the loop on the new log, and blocks where all lines but one are
    reserved and not committed. -/
theorem reserve_progress_two :
    (∃ t : Trace Psm.Step Psm.Proper, t.state 0 = reserveTwo ∧ Fair t ∧
      ∃ n, (t.state n).producer ≠ .reserving 128 none) ∧
    ∃ s, Runs Psm.Step Psm.Proper Psm.start s ∧ s.producer = .reserving 128 none ∧
      s.Blocked 128 none := by
  constructor
  · have h : Runs Psm.Step Psm.Proper Psm.start reserveTwo :=
      Runs.start.step (PsmAct.reserve 128) ⟨by decide, by decide⟩ (Step.reserve 128 rfl)
    -- the loop is left at once, and the background goes on alone
    have hself : Runs Psm.Step Psm.Proper reserveTwo reserveTwo := .start
    have g := hself.step PsmAct.producer trivial
      (Step.take rfl (show 128 ≤ (0 + psmLogSizeB - 0 - 1) % psmLogSizeB by decide)
        (show ¬ psmLogSizeB < 0 + 128 by decide))
    obtain ⟨t, hfair, hfirst, -⟩ := exists_fair hself g rfl rfl rfl rfl fun side => rfl
    exact ⟨t, hfirst, hfair, (reserve_progress h rfl).1 (by decide) t hfirst hfair⟩
  · obtain ⟨slot, h, -⟩ := runs_reserved (b := 7) (.start : Runs Psm.Step Psm.Proper Psm.start _) rfl
      ⟨by decide, le_refl (psmLogSizeB - 64)⟩ (by unfold HasSpace; decide) (by decide) rfl
    have h' := h.step (PsmAct.reserve 128) ⟨by decide, by decide⟩ (Step.reserve 128 rfl)
    refine ⟨_, h', rfl, (reserve_progress h' rfl).2 ?_⟩
    -- the rest of the buffer would be skipped
    show ¬ (if psmLogSizeB < (0 + alignToCacheLineSize (psmLogSizeB - 64)) % psmLogSizeB +
          alignToCacheLineSize 128 then
        alignToCacheLineSize 128 +
          (psmLogSizeB - (0 + alignToCacheLineSize (psmLogSizeB - 64)) % psmLogSizeB)
        else alignToCacheLineSize 128) +
      (0 + alignToCacheLineSize (psmLogSizeB - 64) - 0) < psmLogSizeB
    decide

end Psm

end Persimmon
