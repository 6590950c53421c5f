/-
  File:      Persimmon/RollbackRetry.lean
  Subject:   `undo_log_recover`, INTERRUPTED AND RUN AGAIN, on a log without a commit record
             (src/undo/undo_log.h).

  Recovery stores the logged blocks back, drains, and clears the log. A crash can come between any
  two of its stores, and the hardware writes lines back as it likes.

  * `undoEvents`, `applyEvents`, `recoveryRun` -- recovery as the events it sends to the memory;
    `recoverImage_eq_run` -- it computes what `recoverImage` says;
  * `Attempt` -- one recovery, interrupted or not, and the image it leaves;
  * `Uncommitted` -- the crash states considered; `Restorable` -- what every attempt keeps: the
    blocks outside the entries before the first null one hold their committed contents;
  * `rollback_retry` -- after any number of attempts, one that completes returns -1 and has restored
    every block.
-/
import Persimmon.Cleanup
import Persimmon.Lib.Transition

namespace Persimmon

open PersistentMemory Transition UndoReplay

/-! ## 1. Recovery as events -/

/-- One pass of the loop: the `memcpy` of the block, and the flush of its line. -/
def undoEvents (e : Entry) : List Event :=
  (List.finRange 32).map (fun j => .store (.mem (e.addr + j)) (e.blk j)) ++
    [.flush () (.mem (cacheLine e.addr))]

/-- The loop from entry `n - 1` down, and whether it gets through its assertions. -/
def applyEvents (manages : ℕ → Bool) (log : ℕ → Entry) : ℕ → List Event × Bool
  | 0 => ([], true)
  | n + 1 =>
      if (log n).commitTail = 0 ∧ (log n).addr ≠ 0 ∧ manages (log n).addr = true then
        (undoEvents (log n) ++ (applyEvents manages log n).1, (applyEvents manages log n).2)
      else ([], false)

/-- The events of a recovery, and what it returns; no result when an assertion fails. -/
structure RecoveryRun where
  events : List Event
  ret : Option (Option ℕ)

/-- **`undo_log_init(recovered = true)` and `undo_log_recover`** on what a crash left. Their work on
    the region table sends nothing to the log, nor to the memory. -/
def recoveryRun (manages : ℕ → Bool) (v : Cell → ℕ) : RecoveryRun :=
  match undoLogInit (logImage v) with
  | none => ⟨[], none⟩
  | some n =>
      match commitFound (logImage v) n with
      | some tail => ⟨clearEvents n, some (some tail)⟩
      | none =>
          let (es, ok) := applyEvents manages (logImage v) n
          if ok then ⟨es ++ [.drain ()] ++ clearEvents n, some none⟩ else ⟨es, none⟩

section Apply

variable {manages : ℕ → Bool} {log : ℕ → Entry} {v : Cell → ℕ} {n : ℕ}

theorem memImage_undoEvents (e : Entry) (v : Cell → ℕ) :
    memImage (viewAfter lineOf (undoEvents e) v) = memcpyBlk e (memImage v) := by
  funext x
  have hview : memImage (viewAfter lineOf (undoEvents e) v) x = viewAfter lineOf
      ((List.finRange 32).map fun j => (.store (.mem (e.addr + j.val)) (e.blk j) : Event)) v
      (.mem x) := by
    rw [undoEvents, viewAfter_append]
    rfl
  rw [hview]
  unfold memcpyBlk
  by_cases hx : e.addr ≤ x ∧ x < e.addr + 32
  · obtain ⟨j, rfl⟩ : ∃ j : Fin 32, x = e.addr + j := ⟨⟨x - e.addr, by omega⟩, by simp only; omega⟩
    have hinj : Function.Injective fun j : Fin 32 => Cell.mem (e.addr + j) := fun a c h => by
      have := Cell.mem.inj h
      omega
    rw [if_pos hx, viewAfter_stores hinj, if_pos (List.mem_finRange j)]
    simp [Entry.byteAt, Nat.mod_eq_of_lt j.isLt]
  · rw [if_neg hx]
    refine viewAfter_stores_of_ne (fun j h => hx ?_) _ _ v
    have := Cell.mem.inj h
    omega

theorem memImage_applyEvents (h : ∀ i < n, Applicable manages (log i)) (v : Cell → ℕ) :
    (applyEvents manages log n).2 = true ∧
      memImage (viewAfter lineOf (applyEvents manages log n).1 v) =
        ((List.range n).map log).foldr memcpyBlk (memImage v) := by
  induction n generalizing v with
  | zero => exact ⟨rfl, rfl⟩
  | succ n ih =>
      have hn : (log n).commitTail = 0 ∧ (log n).addr ≠ 0 ∧ manages (log n).addr = true :=
        h n (Nat.lt_succ_self n)
      obtain ⟨h1, h2⟩ := ih (fun i hi => h i (Nat.lt_succ_of_lt hi)) (viewAfter lineOf (undoEvents (log n)) v)
      rw [applyEvents, if_pos hn]
      refine ⟨h1, ?_⟩
      simp only
      rw [viewAfter_append, h2, memImage_undoEvents, List.range_succ, List.map_append,
        List.foldr_append]
      rfl

/-- The loop gets through exactly when every entry is applicable. -/
theorem applicable_of_applyEvents (h : (applyEvents manages log n).2 = true) :
    ∀ i < n, Applicable manages (log i) := by
  induction n with
  | zero => exact fun i hi => absurd hi (Nat.not_lt_zero i)
  | succ n ih =>
      intro i hi
      rw [applyEvents] at h
      split at h
      · rename_i hn
        rcases Nat.lt_succ_iff_lt_or_eq.mp hi with hi | rfl
        · exact ih h i hi
        · exact hn
      · cases h

/-- The events of the loop are events of its passes. -/
theorem mem_applyEvents {ev : Event} (h : ev ∈ (applyEvents manages log n).1) :
    ∃ i < n, ev ∈ undoEvents (log i) := by
  induction n with
  | zero => exact absurd h List.not_mem_nil
  | succ n ih =>
      rw [applyEvents] at h
      split at h
      · rcases List.mem_append.mp h with h | h
        · exact ⟨n, Nat.lt_succ_self n, h⟩
        · obtain ⟨i, hi, hev⟩ := ih h
          exact ⟨i, Nat.lt_succ_of_lt hi, hev⟩
      · exact absurd h List.not_mem_nil

/-- The log the cleanup leaves. -/
theorem logImage_clearEvents (n : ℕ) (v : Cell → ℕ) :
    logImage (viewAfter lineOf (clearEvents n) v) = undoLogClear (logImage v) n := by
  funext i
  unfold undoLogClear
  split
  · rename_i hi
    obtain ⟨p, q, hpq, hq⟩ := clearEvents_split hi
    rw [hpq, viewAfter_append, viewAfter_cons, logImage_of_not_touches fun ev hev => ?_]
    · simp [logImage, Ev.view, lineOf, Entry.null]
    · rcases List.mem_append.mp hev with hev | hev
      · exact hq ev hev
      · rw [List.mem_singleton.mp hev]
        exact id
  · rename_i hi
    exact logImage_of_not_touches fun ev hev ht => hi (touches_clearEvents hev ht)

theorem touches_undoEvents_mem {e : Entry} {ev : Event} {l : Line} (h : ev ∈ undoEvents e)
    (ht : ev.Touches lineOf l) : ∃ m, l = .mem m := by
  rcases List.mem_append.mp h with h | h
  · obtain ⟨j, -, rfl⟩ := List.mem_map.mp h
    exact ⟨_, ht.symm⟩
  · obtain rfl := List.mem_singleton.mp h
    exact absurd ht id

/-- What a pass stores to. -/
theorem touches_undoEvents {e : Entry} (hal : e.addr % 32 = 0) {ev : Event} {l : Line}
    (h : ev ∈ undoEvents e) (ht : ev.Touches lineOf l) : l = .mem (cacheLine e.addr) := by
  rcases List.mem_append.mp h with h | h
  · obtain ⟨j, -, rfl⟩ := List.mem_map.mp h
    have hline : cacheLine (e.addr + j) = cacheLine e.addr := by
      unfold cacheLine
      omega
    rw [← hline]
    exact ht.symm
  · obtain rfl := List.mem_singleton.mp h
    exact absurd ht id

theorem appEvent_undoEvents {es : List Entry} {e : Entry} (he : e ∈ es) (hal : e.addr % 32 = 0)
    {ev : Event} (h : ev ∈ undoEvents e) : AppEvent es ev := by
  refine ⟨fun i ht => Line.noConfusion (touches_undoEvents hal h ht), fun x hx c => ?_⟩
  rcases List.mem_append.mp h with h | h
  · obtain ⟨j, -, rfl⟩ := List.mem_map.mp h
    have hne : Cell.mem x ≠ .mem (e.addr + j) := fun heq => by
      have hx' := Cell.mem.inj heq
      exact hx ⟨e, he, (eq_blkStart_iff hal).mpr ⟨by omega, by omega⟩⟩
    exact Function.update_of_ne hne _ _
  · obtain rfl := List.mem_singleton.mp h
    rfl

theorem appEvent_applyEvents (hal : ∀ i < n, (log i).addr % 32 = 0) {ev : Event}
    (h : ev ∈ (applyEvents manages log n).1) : AppEvent ((List.range n).map log) ev := by
  obtain ⟨i, hi, hev⟩ := mem_applyEvents h
  exact appEvent_undoEvents (List.mem_map_of_mem (List.mem_range.mpr hi)) (hal i hi) hev

/-- **Behind the drain every line of memory is durable**: the last pass to store to it has flushed
    it. -/
theorem durable_applyEvents (hal : ∀ i < n, (log i).addr % 32 = 0) (m : ℕ) :
    Durable lineOf () ((applyEvents manages log n).1 ++ [.drain ()]) (.mem m) := by
  induction n with
  | zero =>
      refine Or.inl fun ev hev => ?_
      rw [List.mem_singleton.mp hev]
      exact id
  | succ n ih =>
      rw [applyEvents]
      split
      swap
      · refine Or.inl fun ev hev => ?_
        rw [List.mem_singleton.mp hev]
        exact id
      rw [List.append_assoc]
      rcases ih fun i hi => hal i (Nat.lt_succ_of_lt hi) with hno | ⟨p, f, q, r, he, hask, hq, hr⟩
      · by_cases hm : m = cacheLine (log n).addr
        · -- this pass is the last one
          have hrest : ∀ ev ∈ (applyEvents manages log n).1, ¬ ev.Touches lineOf (.mem m) :=
            fun ev hev => hno ev (List.mem_append_left _ hev)
          unfold undoEvents
          rw [List.append_assoc, List.singleton_append]
          exact Durable.of_drain ⟨rfl, congrArg Line.mem hm.symm⟩ hrest
        · refine Or.inl fun ev hev ht => ?_
          rcases List.mem_append.mp hev with hev | hev
          · exact hm (Line.mem.inj (touches_undoEvents (hal n (Nat.lt_succ_self n)) hev ht))
          · exact hno ev hev ht
      · rw [he]
        exact Or.inr ⟨undoEvents (log n) ++ p, f, q, r, by simp, hask, hq, hr⟩

/-- **The events compute what `recoverImage` says.** -/
theorem recoverImage_eq_run (manages : ℕ → Bool) (v : Cell → ℕ) :
    recoverImage manages v = (recoveryRun manages v).ret.map fun ret =>
      (logImage (viewAfter lineOf (recoveryRun manages v).events v),
        memImage (viewAfter lineOf (recoveryRun manages v).events v), ret) := by
  unfold recoverImage recoveryRun
  cases hinit : undoLogInit (logImage v) with
  | none => rfl
  | some n =>
      simp only [Option.bind_some]
      unfold undoLogRecover
      cases hfound : commitFound (logImage v) n with
      | some tail =>
          have hmem : memImage (viewAfter lineOf (clearEvents n) v) = memImage v :=
            funext fun x => memImage_clear (fun ev hev => clearEvent_of_mem hev) x
          simp only [Option.map_some, logImage_clearEvents, hmem]
      | none =>
          simp only
          cases hok : (applyEvents manages (logImage v) n).2 with
          | false =>
              have hback : applyBack manages memcpyBlk (logImage v) n (memImage v) = none := by
                by_contra hne
                obtain ⟨m, hm⟩ := Option.ne_none_iff_exists'.mp hne
                have := (memImage_applyEvents (applyBack_isSome hm) v).1
                rw [hok] at this
                cases this
              rw [hback]
              rfl
          | true =>
              have happ := applicable_of_applyEvents hok
              have hlog : logImage (viewAfter lineOf [.drain ()]
                  (viewAfter lineOf (applyEvents manages (logImage v) n).1 v)) = logImage v := by
                refine funext fun i => (?_ : logImage (viewAfter lineOf _ v) i = _)
                refine logImage_of_not_touches fun ev hev ht => ?_
                obtain ⟨j, -, hev⟩ := mem_applyEvents hev
                obtain ⟨m, hm⟩ := touches_undoEvents_mem hev ht
                cases hm
              have hmem : memImage (viewAfter lineOf (clearEvents n)
                  (viewAfter lineOf [.drain ()]
                    (viewAfter lineOf (applyEvents manages (logImage v) n).1 v))) =
                  ((List.range n).map (logImage v)).foldr memcpyBlk (memImage v) := by
                rw [← (memImage_applyEvents happ v).2]
                exact funext fun x => memImage_clear (fun ev hev => clearEvent_of_mem hev) x
              rw [applyBack_eq happ]
              simp only [Option.map_some, if_true, viewAfter_append, logImage_clearEvents, hmem, hlog]

end Apply

/-! ## 2. Attempts -/

/-- The recovery runs to its end from the image `v`, returns `ret`, and leaves the machine `s`. -/
def Completes (manages : ℕ → Bool) (v : Cell → ℕ) (ret : Option ℕ) (s : Machine) : Prop :=
  (recoveryRun manages v).ret = some ret ∧
    Exec lineOf (Memory.start v) (recoveryRun manages v).events s

/-- **One attempt** from the image a crash left, and the image the next crash leaves: a crash comes
    somewhere in the recovery, or behind its end. -/
def Attempt (manages : ℕ → Bool) (v : Cell → ℕ) (ret : Option (Option ℕ)) (v' : Cell → ℕ) : Prop :=
  match ret with
  | none => ∃ p s, p <+: (recoveryRun manages v).events ∧ Exec lineOf (Memory.start v) p s ∧ v' = s.pm
  | some r => ∃ s, Completes manages v r s ∧ v' = s.pm

/-- **A log of data entries** that fits into its file; the first entry of a block saves the block's
    committed contents. -/
structure SavesCommitted (log : List Entry) (committed : ℕ → ℕ) : Prop where
  data : ∀ e ∈ log, e.addr ≠ 0 ∧ e.addr % 32 = 0 ∧ e.commitTail = 0
  room : log.length < undoNumEntries
  first : ∀ x e, undoJournal.first log x = some e → e.byteAt x = committed x

/-- **The crash states considered**: the undo log is `log`, null beyond it, and every block that is
    not in it holds its committed contents. -/
structure Uncommitted (v : Cell → ℕ) (log : List Entry) (committed : ℕ → ℕ) : Prop extends
    SavesCommitted log committed where
  entries : ∀ i (h : i < log.length), logImage v i = log[i]
  beyond : ∀ i, log.length ≤ i → (logImage v i).isNull = true
  rest : ∀ x, ¬ undoJournal.Logged log x → memImage v x = committed x

/-- **What every attempt keeps**: an entry is as it was or null, and the blocks outside the entries
    before the first null one hold their committed contents. -/
structure Restorable (log : List Entry) (committed : ℕ → ℕ) (v : Cell → ℕ) : Prop where
  entries : ∀ i, (∃ h : i < log.length, logImage v i = log[i]) ∨ (logImage v i).isNull = true
  mem : ∀ k, (logImage v k).isNull = true → (∀ i < k, (logImage v i).isNull = false) →
    ∀ x, ¬ undoJournal.Logged (log.take k) x → memImage v x = committed x

section Retry

variable {manages : ℕ → Bool} {v v' : Cell → ℕ} {log : List Entry} {committed : ℕ → ℕ} {k : ℕ}

theorem Uncommitted.restorable (h : Uncommitted v log committed) : Restorable log committed v where
  entries i := by
    rcases Nat.lt_or_ge i log.length with hi | hi
    · exact Or.inl ⟨hi, h.entries i hi⟩
    · exact Or.inr (h.beyond i hi)
  mem k hnull hfirst x hx := by
    refine h.rest x fun hl => hx ?_
    have hk : log.length ≤ k := by
      by_contra hlt
      rw [h.entries k (by omega), Entry.isNull_iff] at hnull
      exact (h.data _ (List.getElem_mem _)).1 hnull.1
    rwa [List.take_of_length_le hk]

/-- The entries a recovery finds. -/
structure Found (log : List Entry) (v : Cell → ℕ) (k : ℕ) : Prop where
  le : k ≤ log.length
  null : (logImage v k).isNull = true
  first : ∀ i < k, (logImage v i).isNull = false
  entries : ∀ i (h : i < log.length), i < k → logImage v i = log[i]

theorem Found.range (h : Found log v k) : (List.range k).map (logImage v) = log.take k := by
  have hle := h.le
  refine List.ext_getElem (by simp [hle]) fun i h1 h2 => ?_
  have hi : i < k := by simpa using h1
  rw [List.getElem_map, List.getElem_range, List.getElem_take, h.entries i (by omega) hi]

/-- **There is a first null entry**, and the entries before it are those of the log. -/
theorem Restorable.found (h : Restorable log committed v) : ∃ k, Found log v k := by
  have hend : (logImage v log.length).isNull = true :=
    (h.entries log.length).resolve_left fun ⟨hlt, _⟩ => absurd hlt (lt_irrefl _)
  have hex : ∃ k, (logImage v k).isNull = true := ⟨_, hend⟩
  have hfirst : ∀ i < Nat.find hex, (logImage v i).isNull = false := fun i hi =>
    Bool.eq_false_iff.mpr (Nat.find_min hex hi)
  refine ⟨Nat.find hex, Nat.find_min' hex hend, Nat.find_spec hex, hfirst, fun i _ hik => ?_⟩
  rcases h.entries i with ⟨_, he⟩ | hnull
  · exact he
  · rw [hfirst i hik] at hnull
    cases hnull

theorem Found.unique (h : Found log v k) {j : ℕ} (hnull : (logImage v j).isNull = true)
    (hfirst : ∀ i < j, (logImage v i).isNull = false) : k = j := by
  rcases lt_trichotomy k j with hlt | rfl | hlt
  · have := hfirst k hlt
    rw [h.null] at this
    cases this
  · rfl
  · have := h.first j hlt
    rw [hnull] at this
    cases this

theorem SavesCommitted.aligned (h : SavesCommitted log committed) (hf : Found log v k) :
    ∀ i < k, (logImage v i).addr % 32 = 0 := fun i hi => by
  have hle := hf.le
  rw [hf.entries i (by omega) hi]
  exact (h.data _ (List.getElem_mem _)).2.1

/-- **The recovery finds them, and no commit record.** -/
theorem SavesCommitted.run_eq (h : SavesCommitted log committed) (hf : Found log v k) :
    recoveryRun manages v =
      if (applyEvents manages (logImage v) k).2 = true then
        ⟨(applyEvents manages (logImage v) k).1 ++ [.drain ()] ++ clearEvents k, some none⟩
      else ⟨(applyEvents manages (logImage v) k).1, none⟩ := by
  have hle := hf.le
  have hdata : ∀ i < k, (logImage v i).commitTail = 0 := fun i hi => by
    rw [hf.entries i (by omega) hi]
    exact (h.data _ (List.getElem_mem _)).2.2
  have hinit : undoLogInit (logImage v) = some k :=
    undoLogInit_eq (lt_of_le_of_lt hle h.room) hf.null fun i hi => ⟨hf.first i hi, Or.inl (hdata i hi)⟩
  have hno : commitFound (logImage v) k = none := by
    unfold commitFound
    refine if_neg fun hc => ?_
    have := hdata (k - 1) (by omega)
    omega
  unfold recoveryRun
  rw [hinit]
  simp only [hno]

/-- The first entry of a block among those found saves its committed contents. -/
theorem SavesCommitted.replay (h : SavesCommitted log committed) (hr : Restorable log committed v)
    (hf : Found log v k) (x : ℕ) : undoJournal.replay (log.take k) (memImage v) x = committed x := by
  rw [Journal.replay_apply]
  cases he : undoJournal.first (log.take k) x with
  | none =>
      refine hr.mem k hf.null hf.first x fun hl => ?_
      rw [← Journal.first_isSome, he] at hl
      cases hl
  | some e => exact h.first x e ((List.take_prefix k log).find?_eq_some he)

/-- **A crash in the loop** leaves the log as it is, and the blocks outside it. -/
theorem restorable_applying (h : SavesCommitted log committed) (hr : Restorable log committed v)
    (hf : Found log v k) {p : List Event} {s : Machine}
    (hp : p <+: (applyEvents manages (logImage v) k).1) (hs : Exec lineOf (Memory.start v) p s) :
    Restorable log committed s.pm := by
  have happ : ∀ ev ∈ p, AppEvent (log.take k) ev := fun ev hev =>
    hf.range ▸ appEvent_applyEvents (h.aligned hf) (hp.subset hev)
  have hlog : ∀ i, logImage s.pm i = logImage v i := fun i => by
    obtain ⟨q, hq, he⟩ := logImage_pm (fun i => Synced.start v (Line.log i)) hs i
    rw [he]
    exact logImage_of_not_touches fun ev hev => (happ ev (hq.subset hev)).1 i
  refine ⟨fun i => ?_, fun j hnull hfirst x hx => ?_⟩
  · rw [hlog i]
    exact hr.entries i
  · simp only [hlog] at hnull hfirst
    obtain rfl : k = j := hf.unique hnull hfirst
    obtain ⟨q, hq, he⟩ := exec_prefix hs (Synced.start v (Line.mem (cacheLine x)))
    have hmem : memImage s.pm x = memImage v x :=
      (he (.mem x) rfl).trans (memImage_app (fun ev hev => happ ev (hq.subset hev)) hx v)
    rw [hmem]
    exact hr.mem k hf.null hf.first x hx

/-- **A crash behind the drain**: every block holds its committed contents, for the process and for
    another crash. -/
theorem restored_clearing (h : SavesCommitted log committed) (hr : Restorable log committed v)
    (hf : Found log v k) (hok : (applyEvents manages (logImage v) k).2 = true) {q : List Event}
    {s : Machine} (hq : q <+: clearEvents k)
    (hs : Exec lineOf (Memory.start v)
      ((applyEvents manages (logImage v) k).1 ++ [.drain ()] ++ q) s) :
    (∀ x, memImage s.cache x = committed x ∧ memImage s.pm x = committed x) ∧
      ∀ i, logImage s.pm i = logImage v i ∨ (logImage s.pm i).isNull = true := by
  have hal := h.aligned hf
  have hclear : ∀ ev ∈ q, ClearEvent ev := fun ev hev => clearEvent_of_mem (hq.subset hev)
  have hcache : ∀ x, memImage s.cache x = committed x := fun x => by
    rw [exec_cache hs, viewAfter_append, viewAfter_append, memImage_clear hclear]
    show memImage (viewAfter lineOf _ v) x = _
    rw [(memImage_applyEvents (applicable_of_applyEvents hok) v).2, hf.range,
      foldr_memcpyBlk fun e he => (h.data e (List.mem_of_mem_take he)).2.1]
    exact h.replay hr hf x
  have hpm : ∀ x, memImage s.pm x = memImage s.cache x := fun x => by
    refine exec_synced_of_durable hs (Synced.start v (Line.mem (cacheLine x)))
      ((durable_applyEvents hal _).append fun ev hev ht => ?_) (.mem x) rfl
    rcases hclear ev hev with rfl | ⟨i, rfl⟩
    · exact ht
    · cases ht
  refine ⟨fun x => ⟨hcache x, (hpm x).trans (hcache x)⟩, fun i => ?_⟩
  obtain ⟨p, hp, he⟩ := logImage_pm (fun i => Synced.start v (Line.log i)) hs i
  rw [he]
  have hbefore : ∀ ev ∈ (applyEvents manages (logImage v) k).1 ++ [.drain ()],
      ¬ ev.Touches lineOf (.log i) := fun ev hev => by
    rcases List.mem_append.mp hev with hev | hev
    · exact (appEvent_applyEvents hal hev).1 i
    · rw [List.mem_singleton.mp hev]
      exact id
  rcases prefix_append_iff.mp hp with hp | ⟨q', rfl, hq'⟩
  · exact Or.inl (logImage_of_not_touches fun ev hev => hbefore ev (hp.subset hev))
  · rw [viewAfter_append]
    rcases logImage_clear (fun ev hev => hclear ev (hq'.subset hev)) i with hkeep | hnull
    · exact Or.inl (hkeep.trans (logImage_of_not_touches hbefore))
    · exact Or.inr hnull

/-- Once every block is restored, it stays so whichever entries are left. -/
theorem restorable_of_restored (hr : Restorable log committed v)
    (hmem : ∀ x, memImage v' x = committed x)
    (hlog : ∀ i, logImage v' i = logImage v i ∨ (logImage v' i).isNull = true) :
    Restorable log committed v' where
  entries i := by
    rcases hlog i with he | hnull
    · rw [he]
      exact hr.entries i
    · exact Or.inr hnull
  mem _ _ _ x _ := hmem x

/-- What a completed recovery has done. -/
theorem completes_spec (h : SavesCommitted log committed) (hr : Restorable log committed v)
    {ret : Option ℕ} {s : Machine} (hc : Completes manages v ret s) :
    ret = none ∧ (∀ x, memImage s.cache x = committed x ∧ memImage s.pm x = committed x) ∧
      Restorable log committed s.pm := by
  obtain ⟨k, hf⟩ := hr.found
  obtain ⟨hret, hs⟩ := hc
  rw [h.run_eq hf] at hret hs
  split at hret
  · rename_i hok
    rw [if_pos hok] at hs
    cases hret
    obtain ⟨h1, h2⟩ := restored_clearing h hr hf hok List.prefix_rfl hs
    exact ⟨rfl, h1, restorable_of_restored hr (fun x => (h1 x).2) h2⟩
  · cases hret

/-- **Every attempt leaves a restorable image**, wherever it is cut. -/
theorem restorable_attempt (h : SavesCommitted log committed) (hr : Restorable log committed v)
    {ret : Option (Option ℕ)} (ha : Attempt manages v ret v') : Restorable log committed v' := by
  cases ret with
  | some r =>
      obtain ⟨s, hc, rfl⟩ := ha
      exact (completes_spec h hr hc).2.2
  | none =>
      obtain ⟨p, s, hp, hs, rfl⟩ := ha
      obtain ⟨k, hf⟩ := hr.found
      rw [h.run_eq hf] at hp
      split at hp
      swap
      · exact restorable_applying h hr hf hp hs
      rename_i hok
      rcases prefix_append_iff.mp hp with hp | ⟨q, rfl, hq⟩
      · rcases prefix_append_iff.mp hp with hp | ⟨q, rfl, hq⟩
        · exact restorable_applying h hr hf hp hs
        · rcases List.prefix_cons_iff.mp hq with rfl | ⟨q', rfl, hq'⟩
          · rw [List.append_nil] at hs
            exact restorable_applying h hr hf List.prefix_rfl hs
          · obtain rfl := List.prefix_nil.mp hq'
            rw [← List.append_nil (_ ++ [_])] at hs
            obtain ⟨h1, h2⟩ := restored_clearing h hr hf hok List.nil_prefix hs
            exact restorable_of_restored hr (fun x => (h1 x).2) h2
      · obtain ⟨h1, h2⟩ := restored_clearing h hr hf hok hq hs
        exact restorable_of_restored hr (fun x => (h1 x).2) h2

/-- **Rollback recovery is idempotent under crashes**: after any number of attempts, interrupted
    anywhere or completed, a recovery that completes has returned -1 and restored every block; and
    one that is not interrupted completes, when every entry targets a managed region. -/
theorem rollback_retry {v0 : Cell → ℕ} (h : Uncommitted v0 log committed)
    (hruns : Runs (Attempt manages) Always v0 v) :
    (∀ ret s, Completes manages v ret s →
      ret = none ∧ ∀ x, memImage s.cache x = committed x ∧ memImage s.pm x = committed x) ∧
    ((∀ e ∈ log, manages e.addr = true) → ∃ s, Completes manages v none s) := by
  have hsave : SavesCommitted log committed := h.toSavesCommitted
  have hr : Restorable log committed v :=
    hruns.invariant h.restorable fun v a v' hr _ ha => restorable_attempt hsave hr ha
  refine ⟨fun ret s hc => ?_, fun hman => ?_⟩
  · obtain ⟨h1, h2, -⟩ := completes_spec hsave hr hc
    exact ⟨h1, h2⟩
  · obtain ⟨k, hf⟩ := hr.found
    have happ : ∀ i < k, Applicable manages (logImage v i) := fun i hi => by
      have hle := hf.le
      rw [hf.entries i (by omega) hi]
      obtain ⟨h1, -, h3⟩ := h.data _ (List.getElem_mem (show i < log.length by omega))
      exact ⟨h3, h1, hman _ (List.getElem_mem _)⟩
    have hrun : recoveryRun manages v = _ := hsave.run_eq hf
    rw [if_pos (memImage_applyEvents happ v).1] at hrun
    obtain ⟨s, hs⟩ := exists_exec v (recoveryRun manages v).events
    exact ⟨s, by rw [hrun], hs⟩

end Retry

/-! ## 3. One entry -/

/-- A page at 4096 whose first byte is 7, was 5, and is logged. -/
def fiveUncommitted : Cell → ℕ
  | .mem x => if x = 4096 then 7 else 0
  | .blk i j => if i = 0 ∧ j.val = 0 then 5 else 0
  | .addr i => if i = 0 then 4096 else 0
  | .commitTail _ => 0

/-- What the page held. -/
def fiveCommitted (x : ℕ) : ℕ := if x = 4096 then 5 else 0

theorem fiveUncommitted_uncommitted :
    Uncommitted fiveUncommitted [logImage fiveUncommitted 0] fiveCommitted where
  data e he := by
    rw [List.mem_singleton.mp he]
    decide
  room := by decide
  first x e he := by
    obtain ⟨hin, hkey⟩ := Journal.first_some he
    obtain rfl := List.mem_singleton.mp hin
    have hx : 4096 ≤ x ∧ x < 4096 + 32 := (eq_blkStart_iff (by decide)).mp hkey
    have hbyte : (logImage fiveUncommitted 0).byteAt x = if (x - 4096) % 32 = 0 then 5 else 0 := by
      simp only [Entry.byteAt, logImage, fiveUncommitted, true_and, if_true]
    rw [hbyte, fiveCommitted]
    by_cases h : x = 4096
    · rw [if_pos h, if_pos (by omega)]
    · rw [if_neg h, if_neg (by omega)]
  entries i h := by
    obtain rfl : i = 0 := Nat.lt_one_iff.mp h
    rfl
  beyond i h := by
    have hi : i ≠ 0 := by
      intro heq
      subst heq
      exact absurd h (by decide)
    simp [Entry.isNull, logImage, fiveUncommitted, hi]
  rest x hx := by
    have hne : x ≠ 4096 := by
      intro heq
      subst heq
      exact hx ⟨_, List.mem_singleton_self _, rfl⟩
    simp [memImage, fiveUncommitted, fiveCommitted, hne]

/-- A recovery is cut in the middle of the block, and run again. -/
theorem rollback_retry_five :
    ∃ v s, Attempt (fun _ => true) fiveUncommitted none v ∧ Completes (fun _ => true) v none s ∧
      memImage s.pm 4096 = 5 := by
  obtain ⟨s1, hs1⟩ := exists_exec fiveUncommitted
    ((recoveryRun (fun _ => true) fiveUncommitted).events.take 20)
  have hcut : Attempt (fun _ => true) fiveUncommitted none s1.pm :=
    ⟨_, s1, List.take_prefix _ _, hs1, rfl⟩
  obtain ⟨h1, h2⟩ := rollback_retry fiveUncommitted_uncommitted
    (Runs.start.step (none : Option (Option ℕ)) trivial hcut)
  obtain ⟨s, hs⟩ := h2 fun _ _ => rfl
  exact ⟨s1.pm, s, hcut, hs, ((h1 none s hs).2 4096).2⟩

end Persimmon
