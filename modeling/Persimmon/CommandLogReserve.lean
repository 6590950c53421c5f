/-
  File:      Persimmon/CommandLogReserve.lean
  Subject:   `psm_reserve` ON AN EMPTY LOG: when its spin loop ends, and when it never does
             (src/fg.cc).

  An entry that does not fit before the end of the buffer also takes the space up to there, which is
  added to the length the loop waits for; the assertions have been checked before.

  * `Psm.Fits` -- the entry fits before the end of the buffer, or before the head;
  * `needed_le_iff`, `hasSpace_loaded_iff` -- only then does the empty log have the space;
  * `Psm.Returns`, `Psm.Blocked`, `reserve_returns_iff` -- then the call returns a slot, and else it
    spins for ever, whatever the background does.
-/
import Persimmon.CommandLogLength

namespace Persimmon

open PersistentMemory Transition

/-! ## 1. The space an entry needs -/

/-- Whole lines leave at least one line of the buffer. -/
theorem Admitted.align_le {len : ℕ} (h : Admitted len) :
    alignToCacheLineSize len ≤ psmLogSizeB - 64 := by
  have hle := h.2
  have hmod := align_mod len
  unfold psmLogSizeB at *
  omega

namespace Psm

variable {s : Psm} {len : ℕ} {src : Option (List ℕ)}

/-- **The entry fits** between the local head and the end of the buffer, or else before the local
    head, with a byte to spare. -/
def Fits (s : Psm) (len : ℕ) : Prop :=
  alignToCacheLineSize len ≤ psmLogSizeB - s.localHead ∨ alignToCacheLineSize len < s.localHead

instance (s : Psm) (len : ℕ) : Decidable (s.Fits len) := inferInstanceAs (Decidable (_ ∨ _))

/-- **All is consumed**: everything reserved is committed, and the tail has passed it. -/
def Emptied (s : Psm) : Prop :=
  s.hist.passing = [] ∧ s.hist.committed = [] ∧ s.hist.reserved = []

/-- The spin loop loads the tail. -/
def loaded (s : Psm) : Psm :=
  { s with
    localTail := s.tail
    hist := { s.hist with localTailPos := s.hist.tailPos } }

/-- **What an entry needs is less than the buffer exactly when it fits.** -/
theorem needed_le_iff (hh : s.localHead < psmLogSizeB) (hlen : Admitted len) :
    s.needed len ≤ psmLogSizeB - 1 ↔ s.Fits len := by
  have hle := hlen.align_le
  have hpos : 0 < psmLogSizeB := by decide
  unfold needed Fits
  by_cases ht : s.Truncated len
  · rw [if_pos ht]
    unfold Truncated at ht
    omega
  · rw [if_neg ht]
    unfold Truncated at ht
    omega

/-- There is never more space than that. -/
theorem not_hasSpace (hh : s.localHead < psmLogSizeB) (hlen : Admitted len) (hno : ¬ s.Fits len) :
    ¬ s.HasSpace len := by
  intro hsp
  have hlt : (s.localTail + psmLogSizeB - s.localHead - 1) % psmLogSizeB < psmLogSizeB :=
    Nat.mod_lt _ (by decide)
  unfold HasSpace at hsp
  exact hno ((needed_le_iff hh hlen).mp (by omega))

/-- On an empty log the tail is where the local head is. -/
theorem Emptied.tail_eq (he : s.Emptied) (h : s.Positions) : s.tail = s.localHead := by
  obtain ⟨h1, h2, h3⟩ := he
  have hchain : Chain s.hist.tailPos [] s.hist.localHeadPos := by
    have := (h.passing.append h.committed).append h.reserved
    rwa [h1, h2, h3] at this
  have heq : s.hist.localHeadPos = s.hist.tailPos := hchain.unique (.nil _)
  rw [h.tail, h.localHead, heq]

/-- **The empty log has the space exactly when the entry fits**, once the tail is loaded. -/
theorem hasSpace_loaded_iff (h : s.Positions) (he : s.Emptied) (hlen : Admitted len) :
    s.loaded.HasSpace len ↔ s.Fits len := by
  have hh : s.localHead < psmLogSizeB := by
    rw [h.localHead]
    exact Nat.mod_lt _ (by decide)
  have hfree : (s.loaded.localTail + psmLogSizeB - s.loaded.localHead - 1) % psmLogSizeB =
      psmLogSizeB - 1 := by
    show (s.tail + psmLogSizeB - s.localHead - 1) % psmLogSizeB = psmLogSizeB - 1
    rw [he.tail_eq h, Nat.add_sub_cancel_left]
    rfl
  rw [← needed_le_iff hh hlen]
  unfold HasSpace
  rw [hfree]
  rfl

/-! ## 2. What becomes of the call -/

/-- **The call returns a slot**, by steps of the foreground alone. -/
def Returns (s : Psm) : Prop :=
  ∃ s' slot, Runs Psm.Step (fun _ a => a = .producer) s s' ∧
    s'.hist.reserved = s.hist.reserved ++ [slot]

/-- **The call never returns**: in every run from here the foreground stays in the spin loop. -/
def Blocked (s : Psm) (len : ℕ) (src : Option (List ℕ)) : Prop :=
  ∀ s', Runs Psm.Step Psm.Proper s s' → s'.producer = .reserving len src

/-- Behind the spin loop. -/
theorem returns_of_hasSpace (hp : s.producer = .reserving len src) (hsp : s.HasSpace len) :
    s.Returns := by
  by_cases ht : s.Truncated len
  · have hpad : Runs Psm.Step (fun _ a => a = .producer) s
        { s with mem := s.mem.store (.buf s.localHead) 0, producer := .padding len src } :=
      Runs.start.step PsmAct.producer rfl (Step.pad hp hsp ht)
    exact ⟨_, _, hpad.step PsmAct.producer rfl (Step.flushPad rfl), rfl⟩
  · exact ⟨_, _, Runs.start.step PsmAct.producer rfl (Step.take hp hsp ht), rfl⟩

/-- The spin loop goes round at most once. -/
theorem returns_of_loaded (hp : s.producer = .reserving len src) (hsp : s.loaded.HasSpace len) :
    s.Returns := by
  by_cases hnow : s.HasSpace len
  · exact returns_of_hasSpace hp hnow
  · have hspin : Runs Psm.Step (fun _ a => a = .producer) s s.loaded :=
      Runs.start.step PsmAct.producer rfl (Step.spin hp hnow)
    obtain ⟨s', slot, hrun, hres⟩ := returns_of_hasSpace (s := s.loaded) hp hsp
    exact ⟨s', slot, hspin.trans hrun, hres⟩

/-- While the call spins, no step gives it the space, and none moves the local head. -/
theorem spins_step {s s' : Psm} {a : PsmAct} (hp : s.producer = .reserving len src)
    (hno : ¬ s.HasSpace len) (hs : s.Step a s') :
    s'.producer = .reserving len src ∧ s'.localHead = s.localHead := by
  cases hs with
  | take hp' hsp ht =>
      rw [hp] at hp'
      cases hp'
      exact absurd hsp hno
  | pad hp' hsp ht =>
      rw [hp] at hp'
      cases hp'
      exact absurd hsp hno
  | spin hp' hsp => exact ⟨hp, rfl⟩
  | callNothing n hc he => exact ⟨hp, rfl⟩
  | call n hc he => exact ⟨hp, rfl⟩
  | load hc => exact ⟨hp, rfl⟩
  | storeTail hc => exact ⟨hp, rfl⟩
  | flushTail hc => exact ⟨hp, rfl⟩
  | drainTail hc hd => exact ⟨hp, rfl⟩
  | publishTail hc => exact ⟨hp, rfl⟩
  | evict l => exact ⟨hp, rfl⟩
  | _ => simp_all

/-- **An entry that does not fit blocks the foreground for ever.** -/
theorem blocked_of_not_fits (hh : s.localHead < psmLogSizeB) (hlen : Admitted len)
    (hp : s.producer = .reserving len src) (hno : ¬ s.Fits len) : s.Blocked len src := by
  intro s' hrun
  have hinv : s'.producer = .reserving len src ∧ s'.localHead = s.localHead := by
    refine @Runs.invariant _ _ _ _ _ _
      (fun s1 => s1.producer = .reserving len src ∧ s1.localHead = s.localHead) hrun ⟨hp, rfl⟩
      fun s1 a s2 h1 _ hs => ?_
    have hno1 : ¬ s1.HasSpace len := by
      refine not_hasSpace (by rw [h1.2]; exact hh) hlen ?_
      unfold Fits
      rw [h1.2]
      exact hno
    obtain ⟨h2, h3⟩ := spins_step h1.1 hno1 hs
    exact ⟨h2, h3.trans h1.2⟩
  exact hinv.1

/-- **`psm_reserve` returns from an empty log exactly when the entry fits**; else it spins for ever.
    The log may have been emptied before the call or while it waits. -/
theorem reserve_returns_iff {u : Psm} (h : Runs Psm.Step Psm.Proper Psm.start s)
    (hidle : s.producer = .idle) (hcall : s.InReserve len src u) (hlen : Admitted len)
    (he : u.Emptied) :
    (u.loaded.HasSpace len ∧ u.Returns ↔ u.Fits len) ∧ (¬ u.Fits len → u.Blocked len src) := by
  have hpos := hcall.positions (inv_runs h) hidle
  have hh : u.localHead < psmLogSizeB := by
    rw [hpos.localHead]
    exact Nat.mod_lt _ (by decide)
  have hspace := hasSpace_loaded_iff hpos he hlen
  refine ⟨⟨fun hret => hspace.mp hret.1, fun hfit => ?_⟩, blocked_of_not_fits hh hlen hcall.2⟩
  exact ⟨hspace.mpr hfit, returns_of_loaded hcall.2 (hspace.mpr hfit)⟩

/-! ## 3. A log that has been used -/

/-- Two lines are reserved, written, committed and consumed. -/
theorem runs_twoLines :
    ∃ s, Runs Psm.Step Psm.Proper Psm.start s ∧ s.producer = .idle ∧ s.Emptied ∧
      s.localHead = 128 := by
  have hlen : ProperLen 128 := ⟨by decide, by decide⟩
  obtain ⟨s, hrun, hone⟩ := runs_oneEntry hlen
  exact ⟨s, hrun, hone.producer, ⟨hone.passing, hone.committed, hone.reserved⟩, hone.localHead⟩

/-- One more line is handed out there. -/
theorem reserve_returns_line : ∃ u : Psm, u.localHead = 128 ∧ u.loaded.HasSpace 64 ∧ u.Returns := by
  obtain ⟨s, hrun, hidle, he, hh⟩ := runs_twoLines
  have hcall : s.InReserve 64 none { s with producer := .reserving 64 none } := ⟨Runs.start, rfl⟩
  have hfit : Fits { s with producer := .reserving 64 none } 64 := by
    unfold Fits
    rw [hh]
    exact Or.inl (by decide)
  exact ⟨{ s with producer := .reserving 64 none }, hh,
    (reserve_returns_iff hrun hidle hcall (by decide) he).1.mpr hfit⟩

/-- **An entry of all but one line, which the assertions admit, blocks there for ever.** -/
theorem reserve_blocks :
    ¬ ∀ (s u : Psm) (len : ℕ) (src : Option (List ℕ)), Runs Psm.Step Psm.Proper Psm.start s →
      s.producer = .idle → s.InReserve len src u → Admitted len → u.Emptied →
        u.loaded.HasSpace len ∧ u.Returns := by
  intro H
  obtain ⟨s, hrun, hidle, he, hh⟩ := runs_twoLines
  have hlen : Admitted (psmLogSizeB - 64) := by decide
  have hno : ¬ s.loaded.Fits (psmLogSizeB - 64) := by
    show ¬ s.Fits (psmLogSizeB - 64)
    unfold Fits
    rw [hh]
    decide
  have hlt : s.loaded.localHead < psmLogSizeB := by
    show s.localHead < psmLogSizeB
    rw [hh]
    decide
  exact not_hasSpace hlt hlen hno (H s _ _ none hrun hidle ⟨Runs.start, rfl⟩ hlen he).1

end Psm

end Persimmon
