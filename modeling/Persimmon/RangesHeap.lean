/-
  File:      Persimmon/RangesHeap.lean
  Subject:   WHAT `ranges` ALLOCATES AND FREES, over whole runs of calls
             (src/undo/mem_region/ranges.h).

  Every range is an object of its own. `insert` allocates one; `remove` allocates the ranges of a
  second array, frees those of the first one and takes the second one over. The pointers that an
  insertion drops when it merges, and those that `clear` drops, are not freed.

  What the allocator answers is a parameter: new pointers, and blocks apart from the array in use.
  `drvector_delete` is not under src/ either: as documented, it calls the function the vector was
  made with, `free_range`, on every entry, and releases the array.

  * `HeapRanges` -- the vector, and which objects are allocated (`Lib/Allocation.lean`); `remove`,
    with `keep`, `removeFrom` -- the function, as it is, with its assertions. Freeing an object twice
    has no result;
  * `Carried` -- the invariant of the loop of `remove`: the old array is untouched, the new one holds
    what has been kept so far;
  * `Tracks` -- the invariant of the class; `tracks_run` -- every call keeps it;
  * `ranges_heap` -- after any calls the array holds the list, all its pointers are allocated, and no
    further call fails;
  * `Tight`, `ranges_leak_iff` -- which calls leave an object allocated that nothing points to.
-/
import Persimmon.Lib.Allocation
import Persimmon.Lib.Transition
import Persimmon.RangesArray

namespace Persimmon

open Allocation Transition
open Ranges (remainders)

/-! ## 1. The functions -/

/-- The vector, and the pointers that `new_range` has returned and `free_range` has not taken
    back. -/
structure HeapRanges where
  vec : Vec
  live : Ptr → Bool

/-- What the allocator answers to the `k`th `drvector_append(&new_v, new_range(..))`: where the array
    lies then, and the pointer. -/
abbrev Answers := ℕ → ℕ × Ptr

/-- The variables of `remove`: the old array, the new one. -/
structure Removing where
  array : ℕ
  entries : ℕ
  new : Vec
  live : Ptr → Bool

namespace Removing

/-- `v` -/
def old (s : Removing) : Vec := ⟨s.array, s.entries, s.new.mem, s.new.heap⟩

/-- `drvector_append(&new_v, new_range(r))` -/
def append (s : Removing) (ans : Answers) (r : Range) : Removing :=
  let (a, p) := ans s.new.entries
  { s with
    new := (s.new.setRange p r).append a p
    live := alloc p s.live }

/-- One of the two `if`s of the loop: what is left of `curr` on one side. No result when an assertion
    fails. -/
def keep (s : Removing) (ans : Answers) (toRemove : Range) (i : ℕ) (inside : Range → Bool)
    (piece : Range → Range) : Option Removing :=
  let curr := s.old.range i
  if inside curr then
    if 0 < (piece curr).size then
      if curr.includes (piece curr) && !(piece curr).intersects toRemove then
        some (s.append ans (piece curr))
      else none
    else some s
  else some s

end Removing

/-- `range left` -/
def leftOf (toRemove curr : Range) : Range := ⟨curr.start, sub64 toRemove.start curr.start⟩

/-- `range right` -/
def rightOf (toRemove curr : Range) : Range := ⟨toRemove.stop, sub64 curr.stop toRemove.stop⟩

/-- The loop of `remove`, from entry `i` on. -/
def removeFrom (ans : Answers) (toRemove : Range) : ℕ → ℕ → Removing → Option Removing
  | 0, _, s => some s
  | n + 1, i, s =>
      (s.keep ans toRemove i (·.includesPoint toRemove.start) (leftOf toRemove)).bind fun s =>
        (s.keep ans toRemove i (·.includesPoint (sub64 toRemove.stop 1)) (rightOf toRemove)).bind
          fun s => removeFrom ans toRemove n (i + 1) s

/-- The pointers of a vector. -/
def Vec.pointers (v : Vec) : List Ptr := (List.range v.entries).map v.slot

theorem Vec.mem_pointers {v : Vec} {q : Ptr} : q ∈ v.pointers ↔ ∃ k < v.entries, v.slot k = q := by
  simp only [Vec.pointers, List.mem_map, List.mem_range]

namespace HeapRanges

def insert (s : HeapRanges) (start size a : ℕ) (p : Ptr) : HeapRanges :=
  ⟨s.vec.insert a start size p, alloc p s.live⟩

/-- **`remove`**; `a` is where the new array lies while it is empty. -/
def remove (s : HeapRanges) (start size a : ℕ) (ans : Answers) : Option HeapRanges :=
  if size = 0 then some s
  else
    (removeFrom ans ⟨start, size⟩ s.vec.entries 0
        ⟨s.vec.array, s.vec.entries, { s.vec with array := a, entries := 0 }, s.live⟩).bind fun u =>
      -- `drvector_delete(&v)`, as documented: `free_range` for every entry
      (freeAll u.old.pointers u.live).map fun live => ⟨u.new, live⟩

def clear (s : HeapRanges) : HeapRanges := { s with vec := { s.vec with entries := 0 } }

end HeapRanges

/-! ## 2. Removing -/

/-- **The allocator's answers** to the first `n` requests: new objects, and blocks apart from the
    array in use. -/
structure Answers.Granted (ans : Answers) (s : HeapRanges) (n : ℕ) : Prop where
  fresh : ∀ k < n, s.live (ans k).2 = false
  distinct : ∀ k < n, ∀ l < n, (ans k).2 = (ans l).2 → k = l
  apart : ∀ k < n, (ans k).1 + 8 * (k + 1) ≤ s.vec.array ∨
    s.vec.array + 8 * s.vec.entries ≤ (ans k).1

/-- **While `remove` runs**: the old array is what it was, and the new one holds `done`. -/
structure Carried (s0 : HeapRanges) (ans : Answers) (done : List Range) (s : Removing) : Prop where
  array : s.array = s0.vec.array
  entries : s.entries = s0.vec.entries
  slots : ∀ i < s0.vec.entries, s.old.slot i = s0.vec.slot i
  ranges : ∀ i < s0.vec.entries, s.old.range i = s0.vec.range i
  count : s.new.entries = done.length
  pointers : ∀ k < done.length, s.new.slot k = (ans k).2
  kept : (List.range done.length).map s.new.range = done
  live : ∀ q, s.live q = true ↔ s0.live q = true ∨ ∃ k < done.length, (ans k).2 = q

section Remove

variable {s0 : HeapRanges} {ans : Answers} {n : ℕ} {done : List Range} {s : Removing}

/-- All pointers of the array are allocated. -/
def HeapRanges.Allocated (s : HeapRanges) : Prop :=
  ∀ k < s.vec.entries, s.live (s.vec.slot k) = true

/-- A new pointer is none of the array's. -/
theorem HeapRanges.Allocated.ne {s : HeapRanges} (hl : s.Allocated) {p : Ptr} (hp : s.live p = false)
    {i : ℕ} (hi : i < s.vec.entries) : s.vec.slot i ≠ p := by
  rintro rfl
  rw [hl i hi] at hp
  cases hp

theorem Carried.append (h : Carried s0 ans done s) (g : ans.Granted s0 n) (hl : s0.Allocated)
    (hn : done.length < n) (r : Range) : Carried s0 ans (done ++ [r]) (s.append ans r) := by
  have hlen : (done ++ [r]).length = done.length + 1 := by
    rw [List.length_append, List.length_singleton]
  have happ : s.append ans r = { s with
      new := (s.new.setRange (ans done.length).2 r).append (ans done.length).1 (ans done.length).2
      live := alloc (ans done.length).2 s.live } := by
    rw [Removing.append, h.count]
  have hslot : ∀ k ≤ done.length, (s.append ans r).new.slot k =
      if k = done.length then (ans done.length).2 else s.new.slot k := fun k hk => by
    have hk' : k ≤ s.new.entries := h.count.symm ▸ hk
    rw [happ]
    refine (Vec.slot_append hk').trans ?_
    show (if k = s.new.entries then _ else s.new.slot k) = _
    rw [h.count]
  have hold : ∀ i < s0.vec.entries, (s.append ans r).old.slot i = s0.vec.slot i := fun i hi => by
    rw [← h.slots i hi]
    funext j
    have hj := j.isLt
    have hap := g.apart _ hn
    have ha : s.array = s0.vec.array := h.array
    rw [happ]
    refine Vec.append_mem ?_
    show s.array + 8 * i + j < _ ∨ _ + 8 * (s.new.entries + 1) ≤ s.array + 8 * i + j
    rw [h.count]
    omega
  refine ⟨by rw [happ]; exact h.array, by rw [happ]; exact h.entries, hold, fun i hi => ?_, ?_,
    fun k hk => ?_, ?_, fun q => ?_⟩
  · show (s.append ans r).new.heap ((s.append ans r).old.slot i) = _
    rw [hold i hi, ← h.ranges i hi]
    show _ = s.new.heap (s.old.slot i)
    rw [h.slots i hi, happ]
    exact Function.update_of_ne (hl.ne (g.fresh _ hn) hi) _ _
  · rw [hlen, happ, ← h.count]
    rfl
  · rw [hlen] at hk
    rw [hslot k (by omega)]
    split_ifs with hlast
    · rw [hlast]
    · exact h.pointers k (by omega)
  · rw [hlen, List.range_succ, List.map_append, List.map_singleton]
    congr 1
    · refine Eq.trans (List.map_congr_left fun k hk => ?_) h.kept
      have hk' := List.mem_range.mp hk
      show (s.append ans r).new.heap ((s.append ans r).new.slot k) = s.new.heap (s.new.slot k)
      rw [hslot k (by omega), if_neg (by omega), h.pointers k hk', happ]
      refine Function.update_of_ne (fun heq => ?_) _ _
      have := g.distinct k (by omega) _ hn heq
      omega
    · show [(s.append ans r).new.heap ((s.append ans r).new.slot done.length)] = [r]
      rw [hslot _ (le_refl _), if_pos rfl, happ]
      exact congrArg (fun x => [x]) (Function.update_self _ _ _)
  · rw [happ, hlen]
    simp only [alloc_iff, h.live q]
    constructor
    · rintro (rfl | hq | ⟨k, hk, rfl⟩)
      · exact Or.inr ⟨done.length, by omega, rfl⟩
      · exact Or.inl hq
      · exact Or.inr ⟨k, by omega, rfl⟩
    · rintro (hq | ⟨k, hk, rfl⟩)
      · exact Or.inr (Or.inl hq)
      · rcases Nat.lt_succ_iff_lt_or_eq.mp hk with hk | rfl
        · exact Or.inr (Or.inr ⟨k, hk, rfl⟩)
        · exact Or.inl rfl

/-- What one of the two `if`s adds to the new array. -/
def side (inside : Range → Bool) (piece : Range → Range) (curr : Range) : List Range :=
  if inside curr = true ∧ 0 < (piece curr).size then [piece curr] else []

theorem remainders_eq (toRemove curr : Range) :
    remainders toRemove curr =
      side (·.includesPoint toRemove.start) (leftOf toRemove) curr ++
        side (·.includesPoint (sub64 toRemove.stop 1)) (rightOf toRemove) curr := rfl

/-- One `if` of the loop, with the assertions in it. -/
theorem Carried.keep (h : Carried s0 ans done s) (g : ans.Granted s0 n) (hl : s0.Allocated)
    (toRemove : Range) {i : ℕ} (hi : i < s0.vec.entries) (inside : Range → Bool)
    (piece : Range → Range)
    (hok : inside (s0.vec.range i) = true → 0 < (piece (s0.vec.range i)).size →
      (s0.vec.range i).includes (piece (s0.vec.range i)) = true ∧
        (piece (s0.vec.range i)).intersects toRemove = false)
    (hn : (done ++ side inside piece (s0.vec.range i)).length ≤ n) :
    ∃ s', s.keep ans toRemove i inside piece = some s' ∧
      Carried s0 ans (done ++ side inside piece (s0.vec.range i)) s' := by
  unfold Removing.keep
  unfold side at hn ⊢
  simp only [h.ranges i hi]
  by_cases hin : inside (s0.vec.range i) = true
  · by_cases hpos : 0 < (piece (s0.vec.range i)).size
    · have hboth := And.intro hin hpos
      obtain ⟨h1, h2⟩ := hok hin hpos
      rw [if_pos hboth, List.length_append, List.length_singleton] at hn
      rw [if_pos hin, if_pos hpos, h1, h2, if_pos hboth]
      exact ⟨_, rfl, h.append g hl (by omega) _⟩
    · have hnot : ¬ (inside (s0.vec.range i) = true ∧ 0 < (piece (s0.vec.range i)).size) :=
        fun hboth => hpos hboth.2
      rw [if_pos hin, if_neg hpos, if_neg hnot, List.append_nil]
      exact ⟨s, rfl, h⟩
  · have hnot : ¬ (inside (s0.vec.range i) = true ∧ 0 < (piece (s0.vec.range i)).size) :=
      fun hboth => hin hboth.1
    rw [if_neg hin, if_neg hnot, List.append_nil]
    exact ⟨s, rfl, h⟩

/-- **The assertions of `remove` hold** of a part of `curr` that lies apart from what is removed. -/
theorem asserts_of_apart {curr piece : Range} (hc : curr.Bounded) {start size : ℕ} (hs : 0 < size)
    (hstop : start + size < 2 ^ 64) (hpos : 0 < piece.size) (hle : curr.start ≤ piece.start)
    (hend : piece.start + piece.size ≤ curr.start + curr.size)
    (hapart : piece.start + piece.size ≤ start ∨ start + size ≤ piece.start) :
    curr.includes piece = true ∧ piece.intersects ⟨start, size⟩ = false := by
  have hc' : curr.start + curr.size < 2 ^ 64 := hc
  have hb : piece.Bounded := Nat.lt_of_le_of_lt hend hc'
  refine ⟨(Range.includes_iff hpos hb).mpr ⟨hle, hend⟩, ?_⟩
  rw [Bool.eq_false_iff]
  intro hint
  rcases (Range.intersects_iff hb hs hstop).mp hint with h | h <;> omega

theorem leftOf_asserts {curr : Range} (hc : curr.Bounded) {start size : ℕ} (hs : 0 < size)
    (hstop : start + size < 2 ^ 64) (hin : curr.includesPoint start = true)
    (hpos : 0 < (leftOf ⟨start, size⟩ curr).size) :
    curr.includes (leftOf ⟨start, size⟩ curr) = true ∧
      (leftOf ⟨start, size⟩ curr).intersects ⟨start, size⟩ = false := by
  rw [Range.includesPoint_iff (by omega), Range.mem_pts] at hin
  have hstart : start < 2 ^ 64 := by omega
  have hleft : leftOf ⟨start, size⟩ curr = ⟨curr.start, start - curr.start⟩ :=
    congrArg (Range.mk curr.start) (sub64_of_le hin.1 hstart)
  rw [hleft] at hpos ⊢
  exact asserts_of_apart hc hs hstop hpos (le_refl _) (by dsimp only; omega)
    (Or.inl (by dsimp only; omega))

theorem rightOf_asserts {curr : Range} (hc : curr.Bounded) {start size : ℕ} (hs : 0 < size)
    (hstop : start + size < 2 ^ 64)
    (hin : curr.includesPoint (sub64 (Range.stop ⟨start, size⟩) 1) = true)
    (hpos : 0 < (rightOf ⟨start, size⟩ curr).size) :
    curr.includes (rightOf ⟨start, size⟩ curr) = true ∧
      (rightOf ⟨start, size⟩ curr).intersects ⟨start, size⟩ = false := by
  have hend : Range.stop ⟨start, size⟩ = start + size := @Range.stop_eq ⟨start, size⟩ hstop
  have hc' : curr.start + curr.size < 2 ^ 64 := hc
  rw [hend, sub64_of_le (by omega) hstop, Range.includesPoint_iff (by omega), Range.mem_pts] at hin
  have hright : rightOf ⟨start, size⟩ curr =
      ⟨start + size, curr.start + curr.size - (start + size)⟩ := by
    rw [rightOf, hend, Range.stop_eq hc, sub64_of_le (by omega) hc']
  rw [hright] at hpos ⊢
  exact asserts_of_apart hc hs hstop hpos (by dsimp only; omega) (by dsimp only; omega)
    (Or.inr (le_refl _))

/-- **The loop of `remove`** keeps what the list's removal keeps. -/
theorem removeFrom_spec (g : ans.Granted s0 n) (hl : s0.Allocated) {start size : ℕ} (hs : 0 < size)
    (hstop : start + size < 2 ^ 64) (hb : ∀ i < s0.vec.entries, (s0.vec.range i).Bounded) {m i : ℕ}
    (him : i + m = s0.vec.entries) (h : Carried s0 ans done s)
    (hn : (done ++ ((List.range' i m).map s0.vec.range).flatMap
      (remainders ⟨start, size⟩)).length ≤ n) :
    ∃ s', removeFrom ans ⟨start, size⟩ m i s = some s' ∧
      Carried s0 ans (done ++ ((List.range' i m).map s0.vec.range).flatMap
        (remainders ⟨start, size⟩)) s' := by
  induction m generalizing i s done with
  | zero => exact ⟨s, rfl, by simpa using h⟩
  | succ m ih =>
      have hi : i < s0.vec.entries := by omega
      rw [List.range'_succ, List.map_cons, List.flatMap_cons, remainders_eq, ← List.append_assoc,
        ← List.append_assoc] at hn ⊢
      -- the room for all that is kept is room for what is kept so far
      have hboth := hn
      rw [List.length_append] at hboth
      have hleft := Nat.le_trans (Nat.le_add_right _ _) hboth
      rw [List.length_append] at hleft
      obtain ⟨s1, hs1, h1⟩ := h.keep g hl ⟨start, size⟩ hi (·.includesPoint start)
        (leftOf ⟨start, size⟩) (fun hin hpos => leftOf_asserts (hb i hi) hs hstop hin hpos)
        (Nat.le_trans (Nat.le_add_right _ _) hleft)
      obtain ⟨s2, hs2, h2⟩ := h1.keep g hl ⟨start, size⟩ hi
        (·.includesPoint (sub64 (Range.stop ⟨start, size⟩) 1)) (rightOf ⟨start, size⟩)
        (fun hin hpos => rightOf_asserts (hb i hi) hs hstop hin hpos)
        (Nat.le_trans (Nat.le_add_right _ _) hboth)
      obtain ⟨s', hs', h'⟩ := ih (i := i + 1) (by omega) h2 hn
      refine ⟨s', ?_, h'⟩
      unfold removeFrom
      rw [hs1, Option.bind_some, hs2, Option.bind_some]
      exact hs'

end Remove

/-! ## 3. Runs of calls -/

/-- **The invariant**: the array holds the list, whose pointers are distinct and allocated. -/
structure Tracks (s : HeapRanges) (rs : Ranges) : Prop where
  represents : s.vec.Represents rs.v
  allocated : s.Allocated
  wf : rs.Wf

section Calls

variable {s : HeapRanges} {rs : Ranges}

theorem Tracks.entries (h : Tracks s rs) : s.vec.entries = rs.v.length := by
  rw [← h.represents.ranges, List.length_map, List.length_range]

theorem Tracks.live (h : Tracks s rs) : ∀ q ∈ s.vec.pointers, s.live q = true := fun q hq => by
  obtain ⟨k, hk, rfl⟩ := Vec.mem_pointers.mp hq
  exact h.allocated k hk

theorem Tracks.bounded (h : Tracks s rs) {i : ℕ} (hi : i < s.vec.entries) :
    (s.vec.range i).Bounded := by
  refine h.wf.bound _ ?_
  rw [← h.represents.ranges]
  exact List.mem_map.mpr ⟨i, List.mem_range.mpr hi, rfl⟩

theorem tracks_insert (h : Tracks s rs) {start size a : ℕ} {p : Ptr} (hstop : start + size < 2 ^ 64)
    (ha : a + 8 * (s.vec.entries + 1) < 2 ^ 64) (hp : s.live p = false) :
    Tracks (s.insert start size a p) (rs.insert start size) := by
  have hne : ∀ k < s.vec.entries, s.vec.slot k ≠ p := fun k => h.allocated.ne hp
  refine ⟨(Vec.insert_refines h.represents ha start size hne).1, fun k hk => ?_,
    Ranges.wf_insert h.wf hstop⟩
  refine alloc_iff.mpr ((Vec.slot_insert h.represents ha start size hne hk).imp_right fun hb => ?_)
  obtain ⟨b, hb, he⟩ := hb
  exact (congrArg s.live he).trans (h.allocated b hb)

theorem Tracks.nodup (h : Tracks s rs) : s.vec.pointers.Nodup :=
  List.Nodup.map_on (fun i hi j hj => h.represents.distinct i (List.mem_range.mp hi) j
    (List.mem_range.mp hj)) List.nodup_range

/-- **What a removal leaves**: the ranges `rs` behind the new pointers, and the old pointers freed. -/
structure Removed (s : HeapRanges) (ans : Answers) (rs : List Range) (s' : HeapRanges) : Prop where
  count : s'.vec.entries = rs.length
  pointers : ∀ k < rs.length, s'.vec.slot k = (ans k).2
  ranges : (List.range rs.length).map s'.vec.range = rs
  live : ∀ q, s'.live q = true ↔
    (s.live q = true ∨ ∃ k < rs.length, (ans k).2 = q) ∧ q ∉ s.vec.pointers

theorem removed_remove (h : Tracks s rs) {start size a : ℕ} {ans : Answers} (h0 : size ≠ 0)
    (hstop : start + size < 2 ^ 64) (g : ans.Granted s (rs.remove start size).v.length) :
    ∃ s', s.remove start size a ans = some s' ∧ Removed s ans (rs.remove start size).v s' := by
  have hv : (rs.remove start size).v = rs.v.flatMap (remainders ⟨start, size⟩) := by
    rw [Ranges.remove, if_neg h0]
  have hstart : Carried s ans []
      ⟨s.vec.array, s.vec.entries, { s.vec with array := a, entries := 0 }, s.live⟩ :=
    ⟨rfl, rfl, fun _ _ => rfl, fun _ _ => rfl, rfl, fun k hk => absurd hk (Nat.not_lt_zero k), rfl,
      fun q => by simp⟩
  have hall : ((List.range' 0 s.vec.entries).map s.vec.range).flatMap (remainders ⟨start, size⟩) =
      (rs.remove start size).v := by
    rw [hv, ← List.range_eq_range', h.represents.ranges]
  obtain ⟨u, hu, hk⟩ := removeFrom_spec g h.allocated (Nat.pos_of_ne_zero h0) hstop
    (fun i hi => h.bounded hi) (Nat.zero_add _) hstart (by rw [List.nil_append, hall])
  rw [List.nil_append, hall] at hk
  have hold : u.old.pointers = s.vec.pointers := by
    show (List.range u.entries).map u.old.slot = (List.range s.vec.entries).map s.vec.slot
    rw [hk.entries]
    exact List.map_congr_left fun i hi => hk.slots i (List.mem_range.mp hi)
  obtain ⟨live', hfree, hlive⟩ := @freeAll_spec _ _ _ u.live h.nodup fun q hq =>
    (hk.live q).mpr (Or.inl (h.live q hq))
  refine ⟨⟨u.new, live'⟩, ?_, hk.count, hk.pointers, hk.kept, fun q => ?_⟩
  · rw [HeapRanges.remove, if_neg h0, hu, Option.bind_some, hold, hfree]
    rfl
  · rw [hlive, hk.live]

theorem tracks_remove (h : Tracks s rs) {start size a : ℕ} {ans : Answers}
    (hstop : start + size < 2 ^ 64) (g : ans.Granted s (rs.remove start size).v.length) :
    ∃ s', s.remove start size a ans = some s' ∧ Tracks s' (rs.remove start size) := by
  by_cases h0 : size = 0
  · refine ⟨s, by rw [HeapRanges.remove, if_pos h0], ?_⟩
    rwa [Ranges.remove, if_pos h0]
  obtain ⟨s', hs', hr⟩ := @removed_remove s rs h start size a ans h0 hstop g
  refine ⟨s', hs', ⟨?_, fun i hi j hj hij => ?_⟩, fun k hk => ?_, Ranges.wf_remove h.wf hstop⟩
  · rw [hr.count]
    exact hr.ranges
  · rw [hr.count] at hi hj
    rw [hr.pointers i hi, hr.pointers j hj] at hij
    exact g.distinct i hi j hj hij
  · rw [hr.count] at hk
    rw [hr.pointers k hk, hr.live]
    refine ⟨Or.inr ⟨k, hk, rfl⟩, fun hmem => ?_⟩
    obtain ⟨i, hi, he⟩ := Vec.mem_pointers.mp hmem
    exact h.allocated.ne (g.fresh k hk) hi he

end Calls

/-- A call, with what the allocator answers. -/
inductive HeapCall where
  | insert (start size a : ℕ) (p : Ptr)
  | remove (start size a : ℕ) (ans : Answers)
  | clear

namespace HeapCall

def run (s : HeapRanges) : HeapCall → Option HeapRanges
  | .insert start size a p => some (s.insert start size a p)
  | .remove start size a ans => s.remove start size a ans
  | .clear => some s.clear

/-- The call on the list. -/
def spec (rs : Ranges) : HeapCall → Ranges
  | .insert start size _ _ => rs.insert start size
  | .remove start size _ _ => rs.remove start size
  | .clear => rs.clear

/-- **What is asked of a call**: its interval ends within the address space; and what the allocator
    answers is new. -/
def Admitted (s : HeapRanges × Ranges) : HeapCall → Prop
  | .insert start size a p =>
      start + size < 2 ^ 64 ∧ a + 8 * (s.1.vec.entries + 1) < 2 ^ 64 ∧ s.1.live p = false
  | .remove start size _ ans =>
      start + size < 2 ^ 64 ∧ ans.Granted s.1 (s.2.remove start size).v.length
  | .clear => True

/-- The class and the list take the call together. -/
def Step (s : HeapRanges × Ranges) (c : HeapCall) (s' : HeapRanges × Ranges) : Prop :=
  c.run s.1 = some s'.1 ∧ s'.2 = c.spec s.2

end HeapCall

theorem tracks_start {v : Vec} (hv : v.entries = 0) {live : Ptr → Bool} :
    Tracks ⟨v, live⟩ Ranges.empty := by
  have hnone : ∀ k, ¬ k < v.entries := fun k hk => by omega
  refine ⟨⟨?_, fun k hk => absurd hk (hnone k)⟩, fun k hk => absurd hk (hnone k), Ranges.wf_empty⟩
  show (List.range v.entries).map v.range = []
  rw [hv]
  rfl

/-- **Every call keeps the invariant**, and none fails. -/
theorem tracks_run {s : HeapRanges × Ranges} (h : Tracks s.1 s.2) {c : HeapCall}
    (hc : c.Admitted s) : ∃ s', c.run s.1 = some s' ∧ Tracks s' (c.spec s.2) := by
  cases c with
  | insert start size a p => exact ⟨_, rfl, tracks_insert h hc.1 hc.2.1 hc.2.2⟩
  | remove start size a ans => exact tracks_remove h hc.1 hc.2
  | clear =>
      refine ⟨_, rfl, ⟨rfl, fun k hk => ?_⟩, fun k hk => ?_, Ranges.wf_empty⟩
      · exact absurd hk (Nat.not_lt_zero k)
      · exact absurd hk (Nat.not_lt_zero k)

/-- The two `find`s, on the array. -/
def Vec.findPoint (v : Vec) (point : ℕ) : Bool :=
  (List.range v.entries).any fun i => (v.range i).includesPoint point

def Vec.find (v : Vec) (start size : ℕ) : Bool :=
  if size = 0 then true else (List.range v.entries).any fun i => (v.range i).includes ⟨start, size⟩

theorem Vec.Represents.findPoint {v : Vec} {rs : Ranges} (h : v.Represents rs.v) (point : ℕ) :
    v.findPoint point = rs.findPoint point := by
  rw [Ranges.findPoint, ← h.ranges, List.any_map]
  rfl

theorem Vec.Represents.find {v : Vec} {rs : Ranges} (h : v.Represents rs.v) (start size : ℕ) :
    v.find start size = rs.find start size := by
  rw [Ranges.find, ← h.ranges, List.any_map]
  rfl

/-- **`ranges` on its memory**: after any calls both `find`s answer as the list does, every pointer
    in use is allocated and used once, and no further call stops at an assertion or frees an object
    that is not allocated. -/
theorem ranges_heap {v : Vec} (hv : v.entries = 0) {live : Ptr → Bool} {s : HeapRanges × Ranges}
    (h : Runs HeapCall.Step (fun s c => c.Admitted s) (⟨v, live⟩, Ranges.empty) s) :
    (∀ point, s.1.vec.findPoint point = s.2.findPoint point) ∧
      (∀ start size, s.1.vec.find start size = s.2.find start size) ∧
      (∀ k < s.1.vec.entries, s.1.live (s.1.vec.slot k) = true) ∧
      (∀ k < s.1.vec.entries, ∀ l < s.1.vec.entries, s.1.vec.slot k = s.1.vec.slot l → k = l) ∧
      ∀ c : HeapCall, c.Admitted s → ∃ s', HeapCall.Step s c s' := by
  have hinv : Tracks s.1 s.2 := by
    refine Runs.invariant (I := fun s => Tracks s.1 s.2) h (tracks_start hv)
      fun s c s' hs hok hstep => ?_
    obtain ⟨t, ht, htracks⟩ := tracks_run hs hok
    rw [hstep.1, Option.some.injEq] at ht
    rw [hstep.2, ht]
    exact htracks
  refine ⟨hinv.represents.findPoint, hinv.represents.find, hinv.allocated, hinv.represents.distinct,
    fun c hc => ?_⟩
  obtain ⟨t, ht, -⟩ := tracks_run hinv hc
  exact ⟨(t, c.spec s.2), ht, rfl⟩

/-- Two pages in one range, behind the pointer 1. -/
def twoPages : HeapRanges × Ranges :=
  (HeapRanges.insert ⟨⟨0, 0, fun _ => 0, fun _ => ⟨0, 0⟩⟩, fun _ => false⟩ 4096 8192 4096 fun _ => 1,
    Ranges.empty.insert 4096 8192)

/-- A kilobyte is cut out of them: two new ranges, behind the pointers 2 and 3. -/
theorem ranges_heap_cut :
    ∃ s, HeapCall.Step twoPages (.remove 6144 1024 65536 fun k => (65536, fun _ => k + 2)) s := by
  have hrun : Runs HeapCall.Step (fun s c => c.Admitted s)
      (⟨⟨0, 0, fun _ => 0, fun _ => ⟨0, 0⟩⟩, fun _ => false⟩, Ranges.empty) twoPages :=
    Runs.start.step (.insert 4096 8192 4096 fun _ => 1) ⟨by decide, by decide, rfl⟩ ⟨rfl, rfl⟩
  have hlen : (twoPages.2.remove 6144 1024).v.length = 2 := by decide
  refine (ranges_heap rfl hrun).2.2.2.2 _ ⟨by decide, ?_⟩
  rw [hlen]
  exact ⟨by decide, by decide, by decide⟩

/-! ## 4. What is never freed -/

/-- Every object that is allocated is in use. -/
def HeapRanges.Tight (s : HeapRanges) : Prop := Allocation.Tight s.live s.vec.pointers

section Leaks

variable {s : HeapRanges} {rs : Ranges}

theorem Tracks.length_pointers (h : Tracks s rs) : s.vec.pointers.length = rs.v.length := by
  rw [← h.entries, Vec.pointers, List.length_map, List.length_range]

/-- An insertion leaks the objects it merges. -/
theorem tight_insert (h : Tracks s rs) {start size a : ℕ} {p : Ptr} (hstop : start + size < 2 ^ 64)
    (ha : a + 8 * (s.vec.entries + 1) < 2 ^ 64) (hp : s.live p = false) :
    (s.insert start size a p).Tight ↔
      s.Tight ∧ (rs.insert start size).v.length = rs.v.length + 1 := by
  have ht := tracks_insert h hstop ha hp
  have hne : ∀ k < s.vec.entries, s.vec.slot k ≠ p := fun k => h.allocated.ne hp
  have hsub : (s.insert start size a p).vec.pointers ⊆ p :: s.vec.pointers := by
    intro q hq
    obtain ⟨k, hk, rfl⟩ := Vec.mem_pointers.mp hq
    refine List.mem_cons.mpr ((Vec.slot_insert h.represents ha start size hne hk).imp_right ?_)
    rintro ⟨b, hb, he⟩
    exact Vec.mem_pointers.mpr ⟨b, hb, he.symm⟩
  rw [← h.length_pointers, ← ht.length_pointers]
  exact tight_alloc_iff h.nodup ht.nodup h.live hp hsub

/-- A removal leaks nothing. -/
theorem tight_remove (h : Tracks s rs) {start size a : ℕ} {ans : Answers}
    (hstop : start + size < 2 ^ 64) (g : ans.Granted s (rs.remove start size).v.length)
    {s' : HeapRanges} (hs : s.remove start size a ans = some s') : s'.Tight ↔ s.Tight := by
  by_cases h0 : size = 0
  · rw [HeapRanges.remove, if_pos h0, Option.some.injEq] at hs
    rw [hs]
  obtain ⟨t, ht, hr⟩ := @removed_remove s rs h start size a ans h0 hstop g
  obtain rfl : t = s' := Option.some.inj (ht.symm.trans hs)
  have hmem : ∀ q, q ∈ t.vec.pointers ↔ ∃ k < (rs.remove start size).v.length, (ans k).2 = q := by
    intro q
    rw [Vec.mem_pointers, hr.count]
    exact exists_congr fun k => and_congr_right fun hk => by rw [hr.pointers k hk]
  refine tight_replace_iff (fun q hq => ?_) fun q => by rw [hr.live, hmem]
  obtain ⟨k, hk, rfl⟩ := (hmem q).mp hq
  exact g.fresh k hk

/-- `clear` leaks every object there is. -/
theorem tight_clear (h : Tracks s rs) : s.clear.Tight ↔ s.Tight ∧ rs.v = [] := by
  refine (tight_nil_iff h.live).trans (and_congr_right fun _ => ?_)
  rw [← List.length_eq_zero_iff, ← List.length_eq_zero_iff, h.length_pointers]

end Leaks

namespace HeapCall

/-- The call drops no pointer: it merges nothing, it clears nothing. -/
def DropsNothing (rs : Ranges) : HeapCall → Prop
  | .insert start size _ _ => (rs.insert start size).v.length = rs.v.length + 1
  | .remove _ _ _ _ => True
  | .clear => rs.v = []

end HeapCall

theorem tight_run {s : HeapRanges × Ranges} (h : Tracks s.1 s.2) {c : HeapCall} (hc : c.Admitted s)
    {t : HeapRanges} (ht : c.run s.1 = some t) : t.Tight ↔ s.1.Tight ∧ c.DropsNothing s.2 := by
  cases c with
  | insert start size a p =>
      rw [← Option.some.inj ht]
      exact tight_insert h hc.1 hc.2.1 hc.2.2
  | remove start size a ans => exact (tight_remove h hc.1 hc.2 ht).trans (and_iff_left trivial).symm
  | clear =>
      rw [← Option.some.inj ht]
      exact tight_clear h

/-- The calls, one after another. -/
def runCalls (s : HeapRanges × Ranges) : List HeapCall → Option (HeapRanges × Ranges)
  | [] => some s
  | c :: cs => (c.run s.1).bind fun t => runCalls (t, c.spec s.2) cs

/-- Each of them is admitted where it is made. -/
def AdmittedCalls (s : HeapRanges × Ranges) : List HeapCall → Prop
  | [] => True
  | c :: cs => c.Admitted s ∧ ∀ t, c.run s.1 = some t → AdmittedCalls (t, c.spec s.2) cs

/-- None of them drops a pointer. -/
def NothingDropped (rs : Ranges) : List HeapCall → Prop
  | [] => True
  | c :: cs => c.DropsNothing rs ∧ NothingDropped (c.spec rs) cs

theorem tight_runCalls {cs : List HeapCall} {s : HeapRanges × Ranges} (h : Tracks s.1 s.2)
    (hc : AdmittedCalls s cs) :
    ∃ s', runCalls s cs = some s' ∧ (s'.1.Tight ↔ s.1.Tight ∧ NothingDropped s.2 cs) := by
  induction cs generalizing s with
  | nil => exact ⟨s, rfl, (and_iff_left trivial).symm⟩
  | cons c cs ih =>
      obtain ⟨t, ht, htracks⟩ := tracks_run h hc.1
      obtain ⟨s', hs', htight⟩ := @ih (t, c.spec s.2) htracks (hc.2 t ht)
      refine ⟨s', by rw [runCalls, ht]; exact hs', htight.trans ?_⟩
      rw [tight_run h hc.1 ht, and_assoc]
      rfl

/-- **`ranges` leaks exactly when an insertion merges or a vector that is not empty is cleared**: any
    calls that find nothing allocated run to their end, and leave every object that is allocated
    in use exactly when none of them has dropped a pointer. -/
theorem ranges_leak_iff {v : Vec} (hv : v.entries = 0) {cs : List HeapCall}
    (hc : AdmittedCalls (⟨v, fun _ => false⟩, Ranges.empty) cs) :
    ∃ s, runCalls (⟨v, fun _ => false⟩, Ranges.empty) cs = some s ∧
      (s.1.Tight ↔ NothingDropped Ranges.empty cs) := by
  obtain ⟨s, hs, htight⟩ := tight_runCalls (tracks_start hv) hc
  exact ⟨s, hs, htight.trans (and_iff_right fun q hq => Bool.noConfusion hq)⟩

/-- A second page next to the first one: its object, or the first one, is never freed. -/
theorem ranges_leak_adjacent :
    ∃ s, runCalls (⟨⟨0, 0, fun _ => 0, fun _ => ⟨0, 0⟩⟩, fun _ => false⟩, Ranges.empty)
        [.insert 4096 4096 4096 fun _ => 1, .insert 8192 4096 4096 fun _ => 2] = some s ∧
      ¬ s.1.Tight := by
  obtain ⟨s, hs, htight⟩ := @ranges_leak_iff ⟨0, 0, fun _ => 0, fun _ => ⟨0, 0⟩⟩ rfl
    [.insert 4096 4096 4096 fun _ => 1, .insert 8192 4096 4096 fun _ => 2]
    ⟨⟨by decide, by decide, rfl⟩, fun t ht => by
      obtain rfl := Option.some.inj ht
      exact ⟨⟨by decide, by decide, by decide⟩, fun _ _ => trivial⟩⟩
  refine ⟨s, hs, fun h => ?_⟩
  have hmerged : ((Ranges.empty.insert 4096 4096).insert 8192 4096).v.length =
    (Ranges.empty.insert 4096 4096).v.length + 1 := (htight.mp h).2.1
  exact absurd hmerged (by decide)

end Persimmon
