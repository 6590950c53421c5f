/-
  File:      Persimmon/RangesRuns.lean
  Subject:   `ranges<uintptr_t>` OVER WHOLE RUNS: what a vector holds after any sequence of
             insertions and removals (src/undo/mem_region/ranges.h).

  * `insertInPlace` -- `insert` as the code does it on its array: an insertion point, a `memmove`, and
    a coalescing loop with a write index behind its read index; `insertInPlace_eq` -- the recursive
    `insert` of `Ranges.lean` is the same function;
  * `Canonical`, `inserts_canonical` -- after insertions alone the vector is the canonical form of
    the union, and both `find`s decide membership in it;
  * `Reachable`, `remove_is_difference_iff` -- after insertions and removals, one more removal is a
    set difference exactly when every stored range meets the removed interval.
-/
import Mathlib.Data.List.Induction
import Persimmon.Lib.Transition
import Persimmon.Ranges

namespace Persimmon

open Transition

namespace Ranges

/-! ## 1. The array -/

/-- The insertion loop of `insert`: the first index whose range `r` is less than, or the end. -/
def insertionPoint (r : Range) (v : List Range) : ℕ := v.findIdx fun x => r.lt x

/-- The coalescing loop of `insert`, for `n` more ranges: `l` is the write index, `j` the read
    index. -/
def coalesceLoop : ℕ → ℕ → ℕ → List Range → List Range × ℕ
  | 0, l, _, v => (v, l)
  | n + 1, l, j, v =>
      let prev := v.getD l ⟨0, 0⟩
      let curr := v.getD j ⟨0, 0⟩
      if sub64 curr.start prev.start ≤ prev.size then
        coalesceLoop n l (j + 1)
          (v.set l ⟨prev.start, max prev.size (sub64 (add64 curr.start curr.size) prev.start)⟩)
      else coalesceLoop n (l + 1) (j + 1) (v.set (l + 1) curr)

/-- **`insert`, on the array.** -/
def insertInPlace (rs : Ranges) (start size : ℕ) : Ranges :=
  let r : Range := ⟨start, size⟩
  let v := rs.v.insertIdx (insertionPoint r rs.v) r
  let (v', l) := coalesceLoop (v.length - 1) 0 1 v
  ⟨v'.take (l + 1)⟩

theorem insertIdx_insertionPoint (r : Range) (v : List Range) :
    v.insertIdx (insertionPoint r v) r = insertSorted r v := by
  induction v with
  | nil => rfl
  | cons x v ih =>
      unfold insertionPoint at ih ⊢
      rw [List.findIdx_cons, insertSorted]
      by_cases h : r.lt x = true
      · rw [h, if_pos rfl]
        rfl
      · rw [Bool.not_eq_true] at h
        rw [h, if_neg Bool.false_ne_true, cond_false, List.insertIdx_succ_cons, ih]

/-- **What the coalescing loop leaves up to its write index**: what it had written before `prev`, and
    the coalescing of `prev` with what it had still to read. Between the two indices lies what has
    been read already. -/
theorem coalesceLoop_take {done read rest : List Range} {prev : Range} {l j : ℕ}
    (hl : l = done.length) (hj : j = done.length + 1 + read.length) :
    (coalesceLoop rest.length l j (done ++ prev :: (read ++ rest))).1.take
        ((coalesceLoop rest.length l j (done ++ prev :: (read ++ rest))).2 + 1) =
      done ++ coalesce prev rest := by
  induction rest generalizing done read prev l j with
  | nil =>
      subst hl
      rw [List.append_nil, List.length_nil]
      show (done ++ prev :: read).take (done.length + 1) = done ++ [prev]
      rw [List.take_append, List.take_of_length_le (Nat.le_succ _), Nat.add_sub_cancel_left]
      rfl
  | cons curr rest ih =>
      subst hl hj
      have hprev : (done ++ prev :: (read ++ curr :: rest)).getD done.length ⟨0, 0⟩ = prev := by
        simp [List.getD_eq_getElem?_getD]
      have hcurr : (done ++ prev :: (read ++ curr :: rest)).getD (done.length + 1 + read.length)
          ⟨0, 0⟩ = curr := by
        rw [List.getD_eq_getElem?_getD, List.getElem?_append_right (by omega),
          show done.length + 1 + read.length - done.length = read.length + 1 by omega,
          List.getElem?_cons_succ, List.getElem?_append_right (le_refl _), Nat.sub_self]
        rfl
      simp only [List.length_cons, coalesceLoop, hprev, hcurr, coalesce]
      split
      · -- merged into the range at the write index
        rw [List.set_append_right _ _ (le_refl _), Nat.sub_self, List.set_cons_zero,
          List.append_cons read]
        exact ih rfl (by rw [List.length_append, List.length_singleton]; omega)
      · rw [List.set_append_right _ _ (by omega), Nat.add_sub_cancel_left, List.set_cons_succ]
        cases read with
        | nil =>
            -- the write index has caught up: the range is written where it was read
            rw [List.nil_append, List.set_cons_zero, List.append_cons]
            have := @ih (done ++ [prev]) [] curr (done.length + 1) _
              (by rw [List.length_append, List.length_singleton]) rfl
            simpa using this
        | cons x read =>
            rw [List.cons_append, List.set_cons_zero, List.append_cons, List.append_cons read]
            have := @ih (done ++ [prev]) (read ++ [curr]) curr (done.length + 1)
              (done.length + 1 + (x :: read).length + 1)
              (by rw [List.length_append, List.length_singleton])
              (by simp only [List.length_append, List.length_cons, List.length_nil]; omega)
            simpa using this

/-- **The array and the recursion are one function.** -/
theorem insertInPlace_eq (rs : Ranges) (start size : ℕ) :
    rs.insertInPlace start size = rs.insert start size := by
  unfold insertInPlace insert
  simp only [insertIdx_insertionPoint]
  cases hv : insertSorted ⟨start, size⟩ rs.v with
  | nil => exact absurd hv (insertSorted_ne_nil _ _)
  | cons x xs =>
      exact congrArg Ranges.mk (@coalesceLoop_take [] [] xs x 0 1 rfl rfl)

/-! ## 2. Insertions -/

/-- **The canonical form of an interval set**: strictly sorted by start, no two ranges overlapping or
    adjacent, none empty. -/
structure Canonical (v : List Range) : Prop where
  sorted : v.Pairwise fun a b => a.start < b.start
  apart : v.Pairwise fun a b => a.start + a.size < b.start
  pos : ∀ r ∈ v, 0 < r.size

theorem Wf.canonical {rs : Ranges} (h : rs.Wf) (hpos : ∀ r ∈ rs.v, 0 < r.size) : Canonical rs.v :=
  ⟨h.sep.imp fun {a b} hab => by omega, h.sep, hpos⟩

/-- The calls of `insert`, one after another. -/
def insertAll (calls : List Range) : Ranges :=
  calls.foldl (fun rs r => rs.insertInPlace r.start r.size) empty

/-- A merge does not shrink a range. -/
theorem coalesce_pos {prev : Range} {rest : List Range} (h : ∀ r ∈ prev :: rest, 0 < r.size) :
    ∀ q ∈ coalesce prev rest, 0 < q.size := by
  induction rest generalizing prev with
  | nil => exact h
  | cons curr rest ih =>
      have hprev : 0 < prev.size := h prev (by simp)
      unfold coalesce
      split
      · refine ih fun r hr => ?_
        rcases List.mem_cons.mp hr with rfl | hr
        · exact lt_of_lt_of_le hprev (le_max_left _ _)
        · exact h r (by simp [hr])
      · intro q hq
        rcases List.mem_cons.mp hq with rfl | hq
        · exact hprev
        · exact ih (fun r hr => h r (List.mem_cons_of_mem _ hr)) q hq

theorem insert_pos {rs : Ranges} (h : ∀ r ∈ rs.v, 0 < r.size) {s n : ℕ} (hn : 0 < n) :
    ∀ q ∈ (rs.insert s n).v, 0 < q.size := by
  unfold insert
  split
  · exact fun q hq => absurd hq List.not_mem_nil
  · rename_i x xs hx
    refine coalesce_pos fun r hr => ?_
    rw [← hx, mem_insertSorted] at hr
    rcases hr with rfl | hr
    · exact hn
    · exact h r hr

theorem insertAll_concat (calls : List Range) (r : Range) :
    insertAll (calls ++ [r]) = (insertAll calls).insert r.start r.size := by
  unfold insertAll
  rw [List.foldl_append, List.foldl_cons, List.foldl_nil, insertInPlace_eq]

/-- The vector after any sequence of insertions. -/
theorem insertAll_spec {calls : List Range} (h : ∀ r ∈ calls, 0 < r.size ∧ r.Bounded) :
    (insertAll calls).Wf ∧ (∀ q ∈ (insertAll calls).v, 0 < q.size) ∧
      (insertAll calls).pts = {p | ∃ r ∈ calls, p ∈ r.pts} := by
  induction calls using List.reverseRecOn with
  | nil =>
      refine ⟨wf_empty, fun q hq => absurd hq List.not_mem_nil, ?_⟩
      ext p
      simp [insertAll, mem_pts, empty]
  | append_singleton calls r ih =>
      obtain ⟨h1, h2, h3⟩ := ih fun q hq => h q (List.mem_append_left _ hq)
      obtain ⟨hn, hb⟩ := h r (by simp)
      rw [insertAll_concat]
      refine ⟨wf_insert h1 hb, insert_pos h2 hn, ?_⟩
      rw [pts_insert h1 hb, h3]
      ext p
      simp only [Set.mem_union, Set.mem_ofPred_eq, List.mem_append, List.mem_singleton,
        or_and_right, exists_or, exists_eq_left]
      rfl

/-- **After any insertions the vector is the canonical form of their union**, and both `find`s decide
    membership in it. -/
theorem inserts_canonical (calls : List Range) (h : ∀ r ∈ calls, 0 < r.size ∧ r.Bounded) :
    Canonical (insertAll calls).v ∧
      (insertAll calls).pts = {p | ∃ r ∈ calls, p ∈ r.pts} ∧
      (∀ p < 2 ^ 64, (insertAll calls).findPoint p = true ↔ ∃ r ∈ calls, p ∈ r.pts) ∧
      ∀ s n, 0 < n → s + n < 2 ^ 64 →
        ((insertAll calls).find s n = true ↔ ∀ p, s ≤ p → p < s + n → ∃ r ∈ calls, p ∈ r.pts) := by
  obtain ⟨hwf, hpos, hpts⟩ := insertAll_spec h
  refine ⟨hwf.canonical hpos, hpts, fun p hp => ?_, fun s n hn hs => ?_⟩
  · rw [findPoint_iff hp, hpts]
    rfl
  · rw [find_iff hwf hn hs, hpts]
    exact ⟨fun hsub p h1 h2 => hsub ⟨h1, h2⟩, fun hall p hp => hall p hp.1 hp.2⟩

/-- Two adjacent intervals and one that lies apart, inserted out of order. -/
theorem inserts_canonical_adjacent :
    (insertAll [⟨40, 2⟩, ⟨10, 10⟩, ⟨5, 5⟩]).v = [⟨5, 15⟩, ⟨40, 2⟩] ∧
      (insertAll [⟨40, 2⟩, ⟨10, 10⟩, ⟨5, 5⟩]).find 7 9 = true := by
  have h := inserts_canonical [⟨40, 2⟩, ⟨10, 10⟩, ⟨5, 5⟩] (by unfold Range.Bounded; decide)
  refine ⟨by decide, (h.2.2.2 7 9 (by decide) (by decide)).mpr fun p h1 h2 => ?_⟩
  by_cases hp : p < 10
  · exact ⟨⟨5, 5⟩, by simp, show 5 ≤ p by omega, hp⟩
  · exact ⟨⟨10, 10⟩, by simp, not_lt.mp hp, by simp only; omega⟩

/-! ## 3. Insertions and removals -/

end Ranges

inductive RangesOp where
  | insert (start size : ℕ)
  | remove (start size : ℕ)
  deriving DecidableEq, Repr

def RangesOp.apply : RangesOp → Ranges → Ranges
  | .insert start size, rs => rs.insertInPlace start size
  | .remove start size, rs => rs.remove start size

/-- The end does not overflow. -/
def RangesOp.Fits : RangesOp → Prop
  | .insert start size => start + size < 2 ^ 64
  | .remove start size => start + size < 2 ^ 64

namespace Ranges

/-- **Reached by insertions and removals** whose ends do not overflow; sizes may be zero. -/
def Reachable (rs : Ranges) : Prop :=
  Runs (fun rs (op : RangesOp) rs' => rs' = op.apply rs) (fun _ op => op.Fits) empty rs

theorem Reachable.wf {rs : Ranges} (h : rs.Reachable) : rs.Wf := by
  refine Runs.invariant h wf_empty fun rs op rs' hwf hok hs => ?_
  subst hs
  cases op with
  | insert start size =>
      show (rs.insertInPlace start size).Wf
      rw [insertInPlace_eq]
      exact wf_insert hwf hok
  | remove start size => exact wf_remove hwf hok

/-- `rs'` is `rs` without `[s, s + n)`, as `find` sees it, and is canonical. -/
def IsDifference (rs rs' : Ranges) (s n : ℕ) : Prop :=
  (∀ p < 2 ^ 64, rs'.findPoint p = true ↔ rs.findPoint p = true ∧ p ∉ Set.Ico s (s + n)) ∧
    Canonical rs'.v

/-- **A removal is a set difference exactly when every stored range meets the removed interval**: a
    range that does not meet it is dropped with the rest. -/
theorem remove_is_difference_iff {rs : Ranges} (h : rs.Reachable) {s n : ℕ} (hn : 0 < n)
    (hs : s + n < 2 ^ 64) :
    IsDifference rs (rs.remove s n) s n ↔
      ∀ r ∈ rs.v, 0 < r.size → r.intersects ⟨s, n⟩ = true := by
  have hwf := h.wf
  constructor
  · intro hboth r hr hpos
    obtain ⟨hdiff, -⟩ := hboth
    by_contra hno
    have hb : r.start + r.size < 2 ^ 64 := hwf.bound r hr
    have hnot := hno
    rw [Range.intersects_iff hb hn hs] at hnot
    have hin : r.start ∈ r.pts := ⟨le_refl _, by omega⟩
    -- the start of `r` ought to be found afterwards
    have hfound := (hdiff r.start (by omega)).mpr
      ⟨(findPoint_iff (by omega)).mpr ⟨r, hr, hin⟩, fun hI => hnot (Or.inr hI)⟩
    rw [findPoint_iff (by omega), mem_remove hwf.bound hn hs] at hfound
    obtain ⟨q, hq, hqi, hqp, -⟩ := hfound
    by_cases he : r = q
    · exact hno (he ▸ hqi)
    · rw [Range.mem_pts] at hqp
      rcases sep_of_mem hwf.sep hr hq he with hsep | hsep <;> omega
  · intro hall
    refine ⟨fun p hp => ?_, (wf_remove hwf hs).canonical fun q hq =>
      size_pos_of_mem_remove hwf.bound hn hs hq⟩
    rw [findPoint_iff hp, findPoint_iff hp, pts_remove hwf.bound hn hs hall, Set.mem_sdiff]

/-- Ten bytes at 0, and ten at 100. -/
theorem reachable_two : (⟨[⟨0, 10⟩, ⟨100, 10⟩]⟩ : Ranges).Reachable := by
  have h1 : Runs (fun rs (op : RangesOp) rs' => rs' = op.apply rs) (fun _ op => op.Fits) empty
      ⟨[⟨0, 10⟩]⟩ := Runs.start.step (RangesOp.insert 0 10) (by unfold RangesOp.Fits; decide)
      (by decide)
  exact h1.step (RangesOp.insert 100 10) (by unfold RangesOp.Fits; decide) (by decide)

/-- Bytes 5 to 104 are cut out of both. -/
theorem remove_is_difference_cut :
    IsDifference ⟨[⟨0, 10⟩, ⟨100, 10⟩]⟩ ((⟨[⟨0, 10⟩, ⟨100, 10⟩]⟩ : Ranges).remove 5 100) 5 100 :=
  (remove_is_difference_iff reachable_two (by decide) (by decide)).mpr (by decide)

/-- **A removal that meets one range drops the other.** -/
theorem remove_drops_apart :
    ¬ ∀ (rs : Ranges) (s n : ℕ), rs.Reachable → 0 < n → s + n < 2 ^ 64 →
      IsDifference rs (rs.remove s n) s n := by
  intro H
  have h := (H _ 0 5 reachable_two (by decide) (by decide)).1 100 (by decide)
  exact absurd (h.mpr ⟨by decide, by simp⟩) (by decide)

end Ranges

end Persimmon
