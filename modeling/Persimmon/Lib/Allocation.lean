/-
  File:      Persimmon/Lib/Allocation.lean
  Subject:   OBJECTS THAT ARE ALLOCATED AND FREED by code that keeps pointers to them.

  Which objects are allocated is a Boolean function of the pointer. The pointers the code still has
  are a list without repetitions. An object that is allocated and not in the list is leaked: nobody
  can free it any more.

  * `alloc`, `freeAll` -- one more object; the objects of a list freed, one after another;
  * `freeAll_spec` -- distinct pointers that are allocated can be freed, and no other one is;
  * `Tight` -- nothing is leaked; `tight_alloc_iff`, `tight_replace_iff`, `tight_nil_iff` -- which
    changes of the list keep it.
-/
import Mathlib.Data.List.Perm.Subperm
import Mathlib.Tactic.Tauto

namespace Allocation

variable {P : Type*}

section

variable [DecidableEq P]

/-- One more object is allocated. -/
def alloc (p : P) (live : P → Bool) : P → Bool := fun q => decide (q = p) || live q

/-- The objects are freed, one after another. No result when one of them is not allocated. -/
def freeAll : List P → (P → Bool) → Option (P → Bool)
  | [], live => some live
  | p :: ps, live => if live p then freeAll ps fun q => decide (q ≠ p) && live q else none

@[simp] theorem alloc_iff {p q : P} {live : P → Bool} :
    alloc p live q = true ↔ q = p ∨ live q = true := by
  rw [alloc, Bool.or_eq_true, decide_eq_true_eq]

/-- **Distinct pointers that are allocated can be freed**, and no other one is. -/
theorem freeAll_spec {ps : List P} {live : P → Bool} (hd : ps.Nodup)
    (hl : ∀ p ∈ ps, live p = true) :
    ∃ live', freeAll ps live = some live' ∧ ∀ q, live' q = true ↔ live q = true ∧ q ∉ ps := by
  induction ps generalizing live with
  | nil => exact ⟨live, rfl, fun q => by simp⟩
  | cons p ps ih =>
      obtain ⟨hp, hd'⟩ := List.nodup_cons.mp hd
      have hl' : ∀ q ∈ ps, (decide (q ≠ p) && live q) = true := fun q hq => by
        rw [Bool.and_eq_true, decide_eq_true_eq]
        exact ⟨fun heq => hp (heq ▸ hq), hl q (List.mem_cons_of_mem _ hq)⟩
      obtain ⟨live', hfree, hlive⟩ := @ih (fun q => decide (q ≠ p) && live q) hd' hl'
      refine ⟨live', ?_, fun q => ?_⟩
      · rw [freeAll, if_pos (hl p List.mem_cons_self)]
        exact hfree
      · rw [hlive q, Bool.and_eq_true, decide_eq_true_eq, List.mem_cons, not_or]
        tauto

end

/-! ## Leaks -/

/-- **Nothing is leaked**: every object that is allocated is in use. -/
def Tight (live : P → Bool) (used : List P) : Prop := ∀ q, live q = true → q ∈ used

/-- Of two lists without repetitions, one in the other, the other is in the one when they are equally
    long. -/
theorem subset_iff_length {xs ys : List P} (hx : xs.Nodup) (hy : ys.Nodup) (h : xs ⊆ ys) :
    ys ⊆ xs ↔ xs.length = ys.length :=
  ⟨fun h' => Nat.le_antisymm (List.subperm_of_subset hx h).length_le
      (List.subperm_of_subset hy h').length_le,
    fun hlen => ((List.subperm_of_subset hx h).perm_of_length_le
      (Nat.le_of_eq hlen.symm)).symm.subset⟩

/-- **One object is allocated, and some pointers are dropped.** Nothing is leaked exactly when nothing
    was before and none has been dropped. -/
theorem tight_alloc_iff [DecidableEq P] {live : P → Bool} {used used' : List P} {p : P} (hd : used.Nodup)
    (hd' : used'.Nodup) (hl : ∀ q ∈ used, live q = true) (hp : live p = false)
    (hsub : used' ⊆ p :: used) :
    Tight (alloc p live) used' ↔ Tight live used ∧ used'.length = used.length + 1 := by
  have hne : ∀ q, live q = true → q ≠ p := by
    rintro q hq rfl
    rw [hp] at hq
    cases hq
  have hcons : (p :: used).Nodup := List.nodup_cons.mpr ⟨fun hmem => hne p (hl p hmem) rfl, hd⟩
  have hlen := subset_iff_length hd' hcons hsub
  rw [List.length_cons] at hlen
  rw [← hlen]
  constructor
  · intro htight
    refine ⟨fun q hq => ?_, fun q hq => ?_⟩
    · exact (List.mem_cons.mp (hsub (htight q (alloc_iff.mpr (Or.inr hq))))).resolve_left (hne q hq)
    · exact htight q (alloc_iff.mpr ((List.mem_cons.mp hq).imp_right (hl q)))
  · rintro ⟨htight, hback⟩ q hq
    exact hback (List.mem_cons.mpr ((alloc_iff.mp hq).imp_right (htight q)))

/-- **All objects in use are freed, and others take their places.** -/
theorem tight_replace_iff {live live' : P → Bool} {used used' : List P}
    (hnew : ∀ q ∈ used', live q = false)
    (hlive : ∀ q, live' q = true ↔ (live q = true ∨ q ∈ used') ∧ q ∉ used) :
    Tight live' used' ↔ Tight live used := by
  constructor
  · intro htight q hq
    by_contra hnot
    have hmem := htight q ((hlive q).mpr ⟨Or.inl hq, hnot⟩)
    rw [hnew q hmem] at hq
    cases hq
  · intro htight q hq
    obtain ⟨hor, hnot⟩ := (hlive q).mp hq
    exact hor.resolve_left fun h => hnot (htight q h)

/-- **All pointers are dropped.** -/
theorem tight_nil_iff {live : P → Bool} {used : List P} (hl : ∀ q ∈ used, live q = true) :
    Tight live [] ↔ Tight live used ∧ used = [] := by
  constructor
  · intro htight
    have hnone : ∀ q, live q ≠ true := fun q hq => List.not_mem_nil (htight q hq)
    exact ⟨fun q hq => absurd hq (hnone q),
      List.eq_nil_iff_forall_not_mem.mpr fun q hq => hnone q (hl q hq)⟩
  · rintro ⟨htight, rfl⟩
    exact htight

end Allocation
