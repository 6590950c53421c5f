/-
  File:      Persimmon/Ranges.lean
  Subject:   `ranges<uintptr_t>`: a sorted, coalesced vector of address ranges
             (src/undo/mem_region/ranges.h).

  * `Range`, `Ranges`, `insert`, `findPoint`, `find`, `remove`, `clear` -- the class, as it is;
  * `Ranges.pts` -- what a vector means: a set of addresses; `Ranges.Wf` -- sorted and coalesced,
    no end past the address space;
  * `pts_insert`, `wf_insert` -- an insertion is a union and keeps the vector sorted and coalesced;
  * `find_iff` -- on such a vector, containment in ONE range decides coverage of an interval;
  * `mem_remove` -- what a removal keeps: the ranges that INTERSECT the removed interval, less the
    interval. A range that does not intersect it is not carried over.
-/
import Mathlib.Data.Set.Lattice
import Mathlib.Order.CompletePartialOrder
import Mathlib.Order.Interval.Set.Basic
import Persimmon.Word

namespace Persimmon

/-- `ranges::range`. -/
structure Range where
  start : ℕ
  size : ℕ
  deriving DecidableEq, Repr

namespace Range

/-- `end()`, exclusive. -/
def stop (r : Range) : ℕ := add64 r.start r.size

/-- `operator<` -/
def lt (r o : Range) : Bool :=
  decide (r.start < o.start) || (decide (r.start = o.start) && decide (r.size < o.size))

def includesPoint (r : Range) (p : ℕ) : Bool :=
  decide (r.start ≤ p) && decide (sub64 p r.start < r.size)

def includes (r o : Range) : Bool :=
  decide (o.size = 0) ||
    (decide (r.start ≤ o.start) && decide (add64 (sub64 o.start r.start) o.size ≤ r.size))

def intersects (r o : Range) : Bool := r.includesPoint o.start || o.includesPoint r.start

/-- The addresses of a range. -/
def pts (r : Range) : Set ℕ := Set.Ico r.start (r.start + r.size)

/-- The range does not reach past the address space. -/
def Bounded (r : Range) : Prop := r.start + r.size < 2 ^ 64

end Range

/-- `ranges<uintptr_t>` -/
structure Ranges where
  v : List Range
  deriving DecidableEq, Repr

namespace Ranges

def empty : Ranges := ⟨[]⟩

/-- The insertion point of `insert`: before the first range that `r` is less than. -/
def insertSorted (r : Range) : List Range → List Range
  | [] => [r]
  | x :: xs => if r.lt x then r :: x :: xs else x :: insertSorted r xs

/-- The coalescing pass of `insert`: `prev` is the range at the write index `l`. -/
def coalesce : Range → List Range → List Range
  | prev, [] => [prev]
  | prev, curr :: rest =>
      if sub64 curr.start prev.start ≤ prev.size then
        coalesce ⟨prev.start,
          max prev.size (sub64 (add64 curr.start curr.size) prev.start)⟩ rest
      else prev :: coalesce curr rest

def insert (rs : Ranges) (start size : ℕ) : Ranges :=
  match insertSorted ⟨start, size⟩ rs.v with
  | [] => ⟨[]⟩
  | x :: xs => ⟨coalesce x xs⟩

/-- `find(T point)` -/
def findPoint (rs : Ranges) (p : ℕ) : Bool := rs.v.any fun r => r.includesPoint p

/-- `find(T start, size_t size)` -/
def find (rs : Ranges) (start size : ℕ) : Bool :=
  if size = 0 then true else rs.v.any fun r => r.includes ⟨start, size⟩

/-- What one stored range leaves in the new vector of `remove`. -/
def remainders (rem curr : Range) : List Range :=
  (if curr.includesPoint rem.start ∧ 0 < sub64 rem.start curr.start then
    [⟨curr.start, sub64 rem.start curr.start⟩] else []) ++
  (if curr.includesPoint (sub64 rem.stop 1) ∧ 0 < sub64 curr.stop rem.stop then
    [⟨rem.stop, sub64 curr.stop rem.stop⟩] else [])

def remove (rs : Ranges) (start size : ℕ) : Ranges :=
  if size = 0 then rs else ⟨rs.v.flatMap (remainders ⟨start, size⟩)⟩

def clear (_ : Ranges) : Ranges := ⟨[]⟩

/-! ## 1. What a vector of ranges means -/

/-- **The set of addresses a vector stands for.** -/
def pts (rs : Ranges) : Set ℕ := {p | ∃ r ∈ rs.v, p ∈ r.pts}

/-- **Sorted and coalesced**: every range ends strictly before the next begins. -/
structure Wf (rs : Ranges) : Prop where
  sep : rs.v.Pairwise fun a b => a.start + a.size < b.start
  bound : ∀ r ∈ rs.v, r.Bounded

end Ranges

namespace Range

theorem mem_pts {r : Range} {p : ℕ} : p ∈ r.pts ↔ r.start ≤ p ∧ p < r.start + r.size := Iff.rfl

/-- What holds of every address of a range can be tried out. -/
instance decidableForallPts (r : Range) (P : ℕ → Prop) [DecidablePred P] :
    Decidable (∀ x ∈ r.pts, P x) :=
  decidable_of_iff (∀ i < r.size, P (r.start + i))
    ⟨fun h x hx => by
      have hxe : r.start + (x - r.start) = x := Nat.add_sub_cancel' hx.1
      exact hxe ▸ h (x - r.start) (by have := hx.2; omega),
    fun h i hi => h _ ⟨Nat.le_add_right _ _, by omega⟩⟩

theorem includesPoint_iff {r : Range} {p : ℕ} (hp : p < 2 ^ 64) :
    r.includesPoint p = true ↔ p ∈ r.pts := by
  simp only [includesPoint, Bool.and_eq_true, decide_eq_true_eq, mem_pts]
  constructor
  · intro hboth
    obtain ⟨h1, h2⟩ := hboth
    rw [sub64_of_le h1 hp] at h2
    omega
  · intro hboth
    obtain ⟨h1, h2⟩ := hboth
    rw [sub64_of_le h1 hp]
    omega

theorem stop_eq {r : Range} (h : r.Bounded) : r.stop = r.start + r.size := add64_of_lt h

theorem includes_iff {r : Range} {s n : ℕ} (hn : 0 < n) (hs : s + n < 2 ^ 64) :
    r.includes ⟨s, n⟩ = true ↔ r.start ≤ s ∧ s + n ≤ r.start + r.size := by
  have hn0 : ¬ n = 0 := by omega
  simp only [includes, hn0, decide_false, Bool.false_or, Bool.and_eq_true, decide_eq_true_eq]
  refine and_congr_right fun h1 => ?_
  rw [sub64_of_le h1 (by omega), add64_of_lt (by omega)]
  omega

theorem intersects_iff {r : Range} (hr : r.Bounded) {s n : ℕ} (hn : 0 < n) (hs : s + n < 2 ^ 64) :
    r.intersects ⟨s, n⟩ = true ↔
      (r.start ≤ s ∧ s < r.start + r.size) ∨ (s ≤ r.start ∧ r.start < s + n) := by
  have hr' : r.start + r.size < 2 ^ 64 := hr
  rw [intersects, Bool.or_eq_true, includesPoint_iff (by simp only; omega),
    includesPoint_iff (by omega)]
  simp only [mem_pts]

end Range

namespace Ranges

theorem mem_pts {rs : Ranges} {p : ℕ} : p ∈ rs.pts ↔ ∃ r ∈ rs.v, p ∈ r.pts := Iff.rfl

@[simp] theorem pts_empty : empty.pts = ∅ := by
  ext p
  simp [mem_pts, empty]

theorem wf_empty : empty.Wf := ⟨List.Pairwise.nil, fun _ h => absurd h List.not_mem_nil⟩

theorem findPoint_iff {rs : Ranges} {p : ℕ} (hp : p < 2 ^ 64) :
    rs.findPoint p = true ↔ p ∈ rs.pts := by
  simp only [findPoint, List.any_eq_true, Range.includesPoint_iff hp, mem_pts]

/-! ## 2. Insertion -/

theorem mem_insertSorted {r x : Range} {xs : List Range} :
    x ∈ insertSorted r xs ↔ x = r ∨ x ∈ xs := by
  induction xs with
  | nil => simp [insertSorted]
  | cons y ys ih =>
      unfold insertSorted
      split
      · simp
      · simp only [List.mem_cons, ih]
        tauto

/-- The vector stays sorted by start. -/
theorem insertSorted_sorted {r : Range} {xs : List Range}
    (h : xs.Pairwise fun a b => a.start ≤ b.start) :
    (insertSorted r xs).Pairwise fun a b => a.start ≤ b.start := by
  induction xs with
  | nil => simp [insertSorted]
  | cons y ys ih =>
      obtain ⟨hy, hys⟩ := List.pairwise_cons.mp h
      unfold insertSorted
      split
      · rename_i hlt
        have hry : r.start ≤ y.start := by
          simp only [Range.lt, Bool.or_eq_true, Bool.and_eq_true, decide_eq_true_eq] at hlt
          omega
        refine List.pairwise_cons.mpr ⟨fun b hb => ?_, h⟩
        rcases List.mem_cons.mp hb with rfl | hb
        · exact hry
        · exact hry.trans (hy b hb)
      · rename_i hlt
        have hyr : y.start ≤ r.start := by
          simp only [Range.lt, Bool.or_eq_true, Bool.and_eq_true, decide_eq_true_eq] at hlt
          omega
        refine List.pairwise_cons.mpr ⟨fun b hb => ?_, ih hys⟩
        rcases mem_insertSorted.mp hb with rfl | hb
        · exact hyr
        · exact hy b hb

/-- The range the coalescing pass writes in place of two that overlap or touch. -/
def merge (prev curr : Range) : Range :=
  ⟨prev.start, max prev.size (sub64 (add64 curr.start curr.size) prev.start)⟩

theorem merge_size {prev curr : Range} (hc : curr.Bounded) (h : prev.start ≤ curr.start) :
    (merge prev curr).size = max prev.size (curr.start + curr.size - prev.start) := by
  have hc' : curr.start + curr.size < 2 ^ 64 := hc
  simp only [merge]
  rw [add64_of_lt hc', sub64_of_le (by omega) hc']

theorem merge_bounded {prev curr : Range} (hp : prev.Bounded) (hc : curr.Bounded)
    (h : prev.start ≤ curr.start) : (merge prev curr).Bounded := by
  have hp' : prev.start + prev.size < 2 ^ 64 := hp
  have hc' : curr.start + curr.size < 2 ^ 64 := hc
  have hs : (merge prev curr).size = _ := merge_size hc h
  show prev.start + (merge prev curr).size < 2 ^ 64
  omega

/-- Merging two ranges that overlap or touch loses no address and adds none. -/
theorem mem_merge {prev curr : Range} {p : ℕ} (hc : curr.Bounded) (h : prev.start ≤ curr.start)
    (ht : curr.start ≤ prev.start + prev.size) :
    p ∈ (merge prev curr).pts ↔ p ∈ prev.pts ∨ p ∈ curr.pts := by
  have hs : (merge prev curr).size = _ := merge_size hc h
  have hstart : (merge prev curr).start = prev.start := rfl
  simp only [Range.mem_pts, hstart, hs]
  omega

theorem coalesce_cons {prev curr : Range} {rest : List Range} (hc : curr.Bounded)
    (h : prev.start ≤ curr.start) :
    coalesce prev (curr :: rest) =
      if curr.start ≤ prev.start + prev.size then coalesce (merge prev curr) rest
      else prev :: coalesce curr rest := by
  have hc' : curr.start + curr.size < 2 ^ 64 := hc
  have hsub : sub64 curr.start prev.start ≤ prev.size ↔ curr.start ≤ prev.start + prev.size := by
    rw [sub64_of_le h (by omega)]
    omega
  simp only [coalesce, merge, hsub]

/-- What the coalescing pass needs of its input: sorted by start, nothing past the end. -/
def Sorted (rs : List Range) : Prop :=
  rs.Pairwise (fun a b => a.start ≤ b.start) ∧ ∀ r ∈ rs, r.Bounded

theorem Sorted.merge {prev curr : Range} {rest : List Range} (h : Sorted (prev :: curr :: rest)) :
    Sorted (merge prev curr :: rest) := by
  obtain ⟨hs, hb⟩ := h
  obtain ⟨hp, hcr⟩ := List.pairwise_cons.mp hs
  obtain ⟨-, hr⟩ := List.pairwise_cons.mp hcr
  refine ⟨List.pairwise_cons.mpr ⟨fun b hb' => hp b (List.mem_cons_of_mem _ hb'), hr⟩, ?_⟩
  intro r hr'
  rcases List.mem_cons.mp hr' with rfl | hr'
  · exact merge_bounded (hb _ (by simp)) (hb _ (by simp)) (hp _ (by simp))
  · exact hb r (by simp [hr'])

theorem Sorted.tail {r : Range} {rs : List Range} (h : Sorted (r :: rs)) : Sorted rs :=
  ⟨(List.pairwise_cons.mp h.1).2, fun x hx => h.2 x (List.mem_cons_of_mem _ hx)⟩

theorem Sorted.head_le {r x : Range} {rs : List Range} (h : Sorted (r :: rs)) (hx : x ∈ rs) :
    r.start ≤ x.start :=
  (List.pairwise_cons.mp h.1).1 x hx

/-- **The coalescing pass keeps the set of addresses.** -/
theorem mem_coalesce {prev : Range} {rest : List Range} (h : Sorted (prev :: rest)) {p : ℕ} :
    (∃ r ∈ coalesce prev rest, p ∈ r.pts) ↔ ∃ r ∈ prev :: rest, p ∈ r.pts := by
  induction rest generalizing prev with
  | nil => rfl
  | cons curr rest ih =>
      have hc : curr.Bounded := h.2 curr (by simp)
      have hle : prev.start ≤ curr.start := h.head_le (by simp)
      rw [coalesce_cons hc hle]
      split
      · rename_i ht
        rw [ih h.merge]
        simp only [List.mem_cons, exists_eq_or_imp, mem_merge hc hle ht]
        exact or_assoc
      · have hrest := ih h.tail
        simp only [List.mem_cons, exists_eq_or_imp] at hrest ⊢
        rw [hrest]

/-- **The coalescing pass leaves a sorted, coalesced vector** that begins where its input did. -/
theorem coalesce_wf {prev : Range} {rest : List Range} (h : Sorted (prev :: rest)) :
    (coalesce prev rest).Pairwise (fun a b => a.start + a.size < b.start) ∧
      ∀ r ∈ coalesce prev rest, prev.start ≤ r.start ∧ r.Bounded := by
  induction rest generalizing prev with
  | nil =>
      refine ⟨List.pairwise_singleton _ _, fun r hr => ?_⟩
      obtain rfl := List.mem_singleton.mp hr
      exact ⟨le_refl _, h.2 r (by simp)⟩
  | cons curr rest ih =>
      have hc : curr.Bounded := h.2 curr (by simp)
      have hle : prev.start ≤ curr.start := h.head_le (by simp)
      rw [coalesce_cons hc hle]
      split
      · exact ih h.merge
      · rename_i ht
        obtain ⟨hsep, hall⟩ := ih h.tail
        refine ⟨List.pairwise_cons.mpr ⟨fun b hb => ?_, hsep⟩, fun r hr => ?_⟩
        · have := (hall b hb).1
          omega
        · rcases List.mem_cons.mp hr with rfl | hr
          · exact ⟨le_refl _, h.2 _ (by simp)⟩
          · exact ⟨hle.trans (hall r hr).1, (hall r hr).2⟩

theorem insertSorted_ne_nil (r : Range) (xs : List Range) : insertSorted r xs ≠ [] := by
  cases xs with
  | nil => simp [insertSorted]
  | cons y ys =>
      unfold insertSorted
      split <;> simp

theorem start_coalesce {prev : Range} {rest : List Range} {q : Range} (hq : q ∈ coalesce prev rest) :
    ∃ r ∈ prev :: rest, r.start = q.start := by
  induction rest generalizing prev with
  | nil => exact ⟨prev, by simp, by rw [List.mem_singleton.mp hq]⟩
  | cons curr rest ih =>
      unfold coalesce at hq
      split at hq
      · obtain ⟨r, hr, he⟩ := ih hq
        rcases List.mem_cons.mp hr with rfl | hr
        · exact ⟨prev, by simp, he⟩
        · exact ⟨r, by simp [hr], he⟩
      · rcases List.mem_cons.mp hq with rfl | hq
        · exact ⟨_, List.mem_cons_self, rfl⟩
        · obtain ⟨r, hr, he⟩ := ih hq
          exact ⟨r, List.mem_cons_of_mem _ hr, he⟩

/-- A range of the new vector begins where an old one did, or where the inserted one does. -/
theorem start_insert {rs : Ranges} {s n : ℕ} {q : Range} (hq : q ∈ (rs.insert s n).v) :
    q.start = s ∨ ∃ r ∈ rs.v, r.start = q.start := by
  unfold insert at hq
  split at hq
  · exact absurd hq List.not_mem_nil
  · rename_i x xs hx
    obtain ⟨r, hr, he⟩ := start_coalesce hq
    rw [← hx, mem_insertSorted] at hr
    rcases hr with rfl | hr
    · exact Or.inl he.symm
    · exact Or.inr ⟨r, hr, he⟩

theorem Wf.sorted {rs : Ranges} (h : rs.Wf) : Sorted rs.v :=
  ⟨h.sep.imp fun {a b} hab => by omega, h.bound⟩

theorem sorted_insertSorted {rs : Ranges} (h : rs.Wf) {s n : ℕ} (hs : s + n < 2 ^ 64) :
    Sorted (insertSorted ⟨s, n⟩ rs.v) := by
  refine ⟨insertSorted_sorted h.sorted.1, fun r hr => ?_⟩
  rcases mem_insertSorted.mp hr with rfl | hr
  · exact hs
  · exact h.bound r hr

/-- **An insertion is a union.** -/
theorem pts_insert {rs : Ranges} (h : rs.Wf) {s n : ℕ} (hs : s + n < 2 ^ 64) :
    (rs.insert s n).pts = rs.pts ∪ Set.Ico s (s + n) := by
  have hsort := sorted_insertSorted h hs
  ext p
  unfold insert
  split
  · rename_i hnil
    exact absurd hnil (insertSorted_ne_nil _ _)
  · rename_i x xs hx
    rw [hx] at hsort
    rw [mem_pts, mem_coalesce hsort, ← hx]
    simp only [mem_insertSorted, Set.mem_union, mem_pts]
    constructor
    · intro hcase
      rcases hcase with ⟨r, rfl | hr, hp⟩
      · exact Or.inr hp
      · exact Or.inl ⟨r, hr, hp⟩
    · intro hcase
      rcases hcase with ⟨r, hr, hp⟩ | hp
      · exact ⟨r, Or.inr hr, hp⟩
      · exact ⟨_, Or.inl rfl, hp⟩

/-- **An insertion keeps the vector sorted and coalesced.** -/
theorem wf_insert {rs : Ranges} (h : rs.Wf) {s n : ℕ} (hs : s + n < 2 ^ 64) : (rs.insert s n).Wf := by
  have hsort := sorted_insertSorted h hs
  unfold insert
  split
  · exact wf_empty
  · rename_i x xs hx
    rw [hx] at hsort
    obtain ⟨h1, h2⟩ := coalesce_wf hsort
    exact ⟨h1, fun r hr => (h2 r hr).2⟩

/-! ## 3. Coverage of an interval -/

theorem find_subset {rs : Ranges} {s n : ℕ} (hs : s + n < 2 ^ 64)
    (hf : rs.find s n = true) : Set.Ico s (s + n) ⊆ rs.pts := by
  intro p hp
  have hn : 0 < n := by
    have := hp.1
    have := hp.2
    omega
  simp only [find, Nat.ne_of_gt hn, if_false, List.any_eq_true] at hf
  obtain ⟨r, hr, hi⟩ := hf
  obtain ⟨h1, h2⟩ := (Range.includes_iff hn hs).mp hi
  exact ⟨r, hr, h1.trans hp.1, by have := hp.2; omega⟩

/-- Two ranges of a coalesced vector lie apart. -/
theorem sep_of_mem {l : List Range} (h : l.Pairwise fun a b => a.start + a.size < b.start)
    {a b : Range} (ha : a ∈ l) (hb : b ∈ l) (hne : a ≠ b) :
    a.start + a.size < b.start ∨ b.start + b.size < a.start := by
  induction l with
  | nil => exact absurd ha List.not_mem_nil
  | cons x xs ih =>
      obtain ⟨hx, hxs⟩ := List.pairwise_cons.mp h
      rcases List.mem_cons.mp ha with hax | hax <;> rcases List.mem_cons.mp hb with hbx | hbx
      · exact absurd (hax.trans hbx.symm) hne
      · exact Or.inl (hax ▸ hx b hbx)
      · exact Or.inr (hbx ▸ hx a hax)
      · exact ih hxs hax hbx

/-- **On a coalesced vector, containment in one range decides coverage.** -/
theorem find_iff {rs : Ranges} (h : rs.Wf) {s n : ℕ} (hn : 0 < n) (hs : s + n < 2 ^ 64) :
    rs.find s n = true ↔ Set.Ico s (s + n) ⊆ rs.pts := by
  refine ⟨find_subset hs, fun hsub => ?_⟩
  simp only [find, Nat.ne_of_gt hn, if_false, List.any_eq_true]
  obtain ⟨r, hr, hr1, hr2⟩ := hsub (⟨le_refl s, by omega⟩ : s ∈ Set.Ico s (s + n))
  refine ⟨r, hr, (Range.includes_iff hn hs).mpr ⟨hr1, ?_⟩⟩
  by_contra hlt
  -- the address just past `r` is covered too, by a range that would have been merged with `r`
  obtain ⟨q, hq, hq1, hq2⟩ := hsub
    (⟨by omega, by omega⟩ : r.start + r.size ∈ Set.Ico s (s + n))
  have hne : r ≠ q := by
    intro heq
    subst heq
    omega
  rcases sep_of_mem h.sep hr hq hne with hsep | hsep <;> omega

/-! ## 4. Removal -/

theorem mem_remainders {r : Range} (hr : r.Bounded) {s n : ℕ} (hn : 0 < n) (hs : s + n < 2 ^ 64)
    {q : Range} :
    q ∈ remainders ⟨s, n⟩ r ↔
      (s ∈ r.pts ∧ r.start < s ∧ q = ⟨r.start, s - r.start⟩) ∨
      (s + n - 1 ∈ r.pts ∧ s + n < r.start + r.size ∧
        q = ⟨s + n, r.start + r.size - (s + n)⟩) := by
  have hr' : r.start + r.size < 2 ^ 64 := hr
  have hstop : (⟨s, n⟩ : Range).stop = s + n := add64_of_lt hs
  have hlast : sub64 (s + n) 1 = s + n - 1 := sub64_of_le (by omega) hs
  unfold remainders
  rw [List.mem_append]
  simp only [hstop, hlast, Range.stop_eq hr, List.mem_ite_nil_right, List.mem_singleton,
    Range.includesPoint_iff (show s < 2 ^ 64 by omega),
    Range.includesPoint_iff (show s + n - 1 < 2 ^ 64 by omega), and_assoc]
  refine or_congr (and_congr_right fun hm => ?_) (and_congr_right fun hm => ?_)
  · rw [sub64_of_le hm.1 (by omega), Nat.sub_pos_iff_lt]
  · have hle : s + n ≤ r.start + r.size := by
      have := hm.2
      omega
    rw [sub64_of_le hle hr', Nat.sub_pos_iff_lt]

/-- **What a removal keeps**: of the ranges that intersect the interval, the addresses outside it;
    of the others, nothing. -/
theorem mem_remove {rs : Ranges} (h : ∀ r ∈ rs.v, r.Bounded) {s n : ℕ} (hn : 0 < n)
    (hs : s + n < 2 ^ 64) {p : ℕ} :
    p ∈ (rs.remove s n).pts ↔
      ∃ r ∈ rs.v, r.intersects ⟨s, n⟩ = true ∧ p ∈ r.pts ∧ p ∉ Set.Ico s (s + n) := by
  simp only [remove, Nat.ne_of_gt hn, if_false, mem_pts, List.mem_flatMap]
  constructor
  · intro hex
    obtain ⟨q, ⟨r, hr, hq⟩, hp⟩ := hex
    refine ⟨r, hr, ?_⟩
    rw [Range.intersects_iff (h r hr) hn hs]
    rcases (mem_remainders (h r hr) hn hs).mp hq with ⟨hm, hlt, rfl⟩ | ⟨hm, hlt, rfl⟩ <;>
    · simp only [Range.mem_pts, Set.mem_Ico] at hp hm ⊢
      omega
  · intro hex
    obtain ⟨r, hr, hi, hp, hout⟩ := hex
    rw [Range.intersects_iff (h r hr) hn hs] at hi
    simp only [Range.mem_pts, Set.mem_Ico] at hp hout
    by_cases hps : p < s
    · refine ⟨⟨r.start, s - r.start⟩, ⟨r, hr, (mem_remainders (h r hr) hn hs).mpr (Or.inl ?_)⟩, ?_⟩
      · exact ⟨⟨by omega, by omega⟩, by omega, rfl⟩
      · exact ⟨hp.1, by simp only; omega⟩
    · refine ⟨⟨s + n, r.start + r.size - (s + n)⟩,
        ⟨r, hr, (mem_remainders (h r hr) hn hs).mpr (Or.inr ?_)⟩, ?_⟩
      · exact ⟨⟨by omega, by omega⟩, by omega, rfl⟩
      · exact ⟨by simp only; omega, by simp only; omega⟩

/-- **Where every range intersects the interval, a removal is a difference.** -/
theorem pts_remove {rs : Ranges} (h : ∀ r ∈ rs.v, r.Bounded) {s n : ℕ} (hn : 0 < n)
    (hs : s + n < 2 ^ 64) (hi : ∀ r ∈ rs.v, 0 < r.size → r.intersects ⟨s, n⟩ = true) :
    (rs.remove s n).pts = rs.pts \ Set.Ico s (s + n) := by
  ext p
  rw [mem_remove h hn hs, Set.mem_sdiff, mem_pts]
  constructor
  · intro hex
    obtain ⟨r, hr, -, hp, hout⟩ := hex
    exact ⟨⟨r, hr, hp⟩, hout⟩
  · intro hboth
    obtain ⟨⟨r, hr, hp⟩, hout⟩ := hboth
    refine ⟨r, hr, hi r hr ?_, hp, hout⟩
    rw [Range.mem_pts] at hp
    omega

theorem remove_subset {rs : Ranges} (h : ∀ r ∈ rs.v, r.Bounded) {s n : ℕ} (hs : s + n < 2 ^ 64) :
    (rs.remove s n).pts ⊆ rs.pts \ Set.Ico s (s + n) := by
  intro p hp
  rcases Nat.eq_zero_or_pos n with rfl | hn
  · have hp' : p ∈ rs.pts := by simpa [remove] using hp
    exact ⟨hp', by simp⟩
  · obtain ⟨r, hr, -, hp, hout⟩ := (mem_remove h hn hs).mp hp
    exact ⟨⟨r, hr, hp⟩, hout⟩

/-- What is left of a range lies inside it. -/
theorem remainders_bounds {r : Range} (hr : r.Bounded) {s n : ℕ} (hn : 0 < n) (hs : s + n < 2 ^ 64)
    {q : Range} (hq : q ∈ remainders ⟨s, n⟩ r) :
    r.start ≤ q.start ∧ q.start + q.size ≤ r.start + r.size := by
  rcases (mem_remainders hr hn hs).mp hq with ⟨hm, hlt, rfl⟩ | ⟨hm, hlt, rfl⟩ <;>
  · simp only [Range.mem_pts] at hm ⊢
    omega

/-- A range that a removal with a non-empty interval leaves is not empty. -/
theorem size_pos_of_mem_remove {rs : Ranges} (h : ∀ r ∈ rs.v, r.Bounded) {s n : ℕ} (hn : 0 < n)
    (hs : s + n < 2 ^ 64) {q : Range} (hq : q ∈ (rs.remove s n).v) : 0 < q.size := by
  simp only [remove, Nat.ne_of_gt hn, if_false, List.mem_flatMap] at hq
  obtain ⟨r, hr, hq⟩ := hq
  rcases (mem_remainders (h r hr) hn hs).mp hq with ⟨-, hlt, rfl⟩ | ⟨-, hlt, rfl⟩ <;>
  · simp only
    omega

@[simp] theorem remove_zero (rs : Ranges) (s : ℕ) : rs.remove s 0 = rs := by
  simp [remove]

theorem remainders_sep {r : Range} {s n : ℕ} (hn : 0 < n) (hs : s + n < 2 ^ 64) :
    (remainders ⟨s, n⟩ r).Pairwise fun a b => a.start + a.size < b.start := by
  have hstop : (⟨s, n⟩ : Range).stop = s + n := add64_of_lt hs
  refine List.pairwise_append.mpr ⟨?_, ?_, fun a ha b hb => ?_⟩
  · split_ifs <;> simp
  · split_ifs <;> simp
  · simp only [List.mem_ite_nil_right, List.mem_singleton,
      Range.includesPoint_iff (show s < 2 ^ 64 by omega)] at ha hb
    obtain ⟨⟨hm, -⟩, rfl⟩ := ha
    obtain ⟨-, rfl⟩ := hb
    have hle : r.start ≤ s := hm.1
    simp only [hstop, sub64_of_le hle (show s < 2 ^ 64 by omega)]
    omega

/-- **A removal keeps the vector sorted and coalesced.** -/
theorem wf_remove {rs : Ranges} (h : rs.Wf) {s n : ℕ} (hs : s + n < 2 ^ 64) : (rs.remove s n).Wf := by
  rcases Nat.eq_zero_or_pos n with rfl | hn
  · simpa [remove] using h
  have hrem : rs.remove s n = ⟨rs.v.flatMap (remainders ⟨s, n⟩)⟩ := by
    simp [remove, Nat.ne_of_gt hn]
  rw [hrem]
  refine ⟨?_, fun q hq => ?_⟩
  · refine List.pairwise_flatMap.mpr ⟨fun r hr => remainders_sep hn hs, ?_⟩
    refine h.sep.imp_of_mem fun {a b} ha hb hab x hx y hy => ?_
    have hx' := remainders_bounds (h.bound a ha) hn hs hx
    have hy' := remainders_bounds (h.bound b hb) hn hs hy
    omega
  · obtain ⟨r, hr, hq⟩ := List.mem_flatMap.mp hq
    have hb : r.start + r.size < 2 ^ 64 := h.bound r hr
    have := remainders_bounds (h.bound r hr) hn hs hq
    show q.start + q.size < 2 ^ 64
    omega

end Ranges

end Persimmon
