/-
  File:      Persimmon/RangesArray.lean
  Subject:   `ranges::insert` ON THE MEMORY IT WORKS ON (src/undo/mem_region/ranges.h).

  `Ranges.lean` has an insertion as a function of a list. The class keeps a `drvector_t`, an array of
  pointers to ranges: an insertion moves the pointers behind the new one up by a `memmove`, and then
  merges ranges in place, reading the array at one index and writing it at another, lower one. A
  range that is merged is written to through its pointer.

  `drvector_append` is not under src/: what its documentation says is taken. It puts the pointer
  behind the entries, and where the array is full it copies them to a larger block first.

  * `Vec`, `slot`, `setSlot`, `setRange` -- the array, as bytes of memory, and the objects its
    pointers point to;
  * `insert`, with `append`, `search`, `place`, `coalesceFrom` -- the function, as it is;
  * `coalesceFrom_spec` -- the invariant of the merging loop: what lies before the write index is
    done, what lies behind the read index is untouched;
  * `Represents` -- the array holds a list of ranges, through distinct pointers;
  * `insert_refines` -- an insertion into the array is the insertion into the list, and writes
    nothing but the array and its objects.
-/
import Mathlib.Data.Fintype.Basic
import Persimmon.MyLibc
import Persimmon.Ranges

namespace Persimmon

open MemoryCopy
open Ranges (coalesce insertSorted merge)

/-! ## 1. The array -/

/-- A pointer, as the eight bytes it is kept in. -/
abbrev Ptr := Fin 8 → ℕ

/-- `drvector_t`: where the array lies and how many entries are in use; the memory, and what range a
    pointer points to. -/
structure Vec where
  array : ℕ
  entries : ℕ
  mem : ℕ → ℕ
  heap : Ptr → Range

namespace Vec

/-- `v.array[i]` -/
def slot (v : Vec) (i : ℕ) : Ptr := fun j => v.mem (v.array + 8 * i + j)

/-- `*v.array[i]` -/
def range (v : Vec) (i : ℕ) : Range := v.heap (v.slot i)

/-- The eight bytes of a pointer stored at `a`. -/
def storePtr (a : ℕ) (p : Ptr) (mem : ℕ → ℕ) : ℕ → ℕ := fun x =>
  if a ≤ x ∧ x < a + 8 then p ⟨(x - a) % 8, Nat.mod_lt _ (by decide)⟩ else mem x

/-- `v.array[i] = p` -/
def setSlot (v : Vec) (i : ℕ) (p : Ptr) : Vec :=
  { v with mem := storePtr (v.array + 8 * i) p v.mem }

/-- `*p = r` -/
def setRange (v : Vec) (p : Ptr) (r : Range) : Vec := { v with heap := Function.update v.heap p r }

/-- `drvector_append(&v, p)`, as documented; a full array is copied to a larger block first, `a` is
    where it lies then. -/
def append (v : Vec) (a : ℕ) (p : Ptr) : Vec :=
  let v : Vec := { v with array := a, mem := moved a v.array (8 * v.entries) v.mem }
  { v.setSlot v.entries p with entries := v.entries + 1 }

/-- The search for the place of `r`. One unit of fuel for each entry. -/
def search (v : Vec) (r : Range) : ℕ → ℕ → ℕ
  | 0, i => i
  | fuel + 1, i =>
      if i < v.entries - 1 then if r.lt (v.range i) then i else v.search r fuel (i + 1) else i

/-- `memmove(&v.array[i + 1], &v.array[i], sizeof(void *) * (v.entries - 1 - i))` -/
def shift (v : Vec) (i : ℕ) : Vec :=
  { v with mem := (memmove (v.array + 8 * (i + 1)) (v.array + 8 * i) (8 * (v.entries - 1 - i))
      v.mem).1 }

/-- The pointers from `i` on moved up, and `v.array[i] = new_range(r)`. -/
def place (v : Vec) (i : ℕ) (p : Ptr) (r : Range) : Vec := ((v.shift i).setSlot i p).setRange p r

/-- `curr->start - prev->start <= prev->size` -/
def touches (prev curr : Range) : Bool := decide (sub64 curr.start prev.start ≤ prev.size)

/-- The loop of the coalescing pass: the write index `l`, the read index `j`. One unit of fuel for
    each entry. -/
def coalesceFrom : ℕ → ℕ → ℕ → Vec → Vec × ℕ
  | 0, l, _, v => (v, l)
  | fuel + 1, l, j, v =>
      if j < v.entries then
        if touches (v.range l) (v.range j) then
          coalesceFrom fuel l (j + 1) (v.setRange (v.slot l) (merge (v.range l) (v.range j)))
        else coalesceFrom fuel (l + 1) (j + 1) (v.setSlot (l + 1) (v.slot j))
      else (v, l)

/-- **`insert`**; `p` is the pointer `new_range` returns. -/
def insert (v : Vec) (a start size : ℕ) (p : Ptr) : Vec :=
  let v := v.append a fun _ => 0
  let r : Range := ⟨start, size⟩
  let v := v.place (v.search r v.entries 0) p r
  let (v, l) := coalesceFrom v.entries 0 1 v
  { v with entries := l + 1 }

/-! ## 2. Slots -/

variable {v : Vec}

theorem slot_setSlot (v : Vec) (i k : ℕ) (p : Ptr) :
    (v.setSlot i p).slot k = if k = i then p else v.slot k := by
  funext j
  have hj := j.isLt
  unfold slot setSlot storePtr
  dsimp only
  by_cases hk : k = i
  · subst hk
    rw [if_pos rfl, if_pos (by omega)]
    congr 1
    exact Fin.ext (by dsimp only; omega)
  · rw [if_neg hk, if_neg (by omega)]

theorem setSlot_mem {i x : ℕ} (p : Ptr) (h : x < v.array + 8 * i ∨ v.array + 8 * (i + 1) ≤ x) :
    (v.setSlot i p).mem x = v.mem x := if_neg (by omega)

theorem range_setSlot (v : Vec) (i k : ℕ) (p : Ptr) :
    (v.setSlot i p).range k = if k = i then v.heap p else v.range k := by
  unfold range
  rw [slot_setSlot]
  split_ifs <;> rfl

@[simp] theorem range_setRange_self (v : Vec) (i : ℕ) (r : Range) :
    (v.setRange (v.slot i) r).range i = r := Function.update_self _ _ _

theorem range_setRange_of_ne {i : ℕ} {p : Ptr} (h : v.slot i ≠ p) (r : Range) :
    (v.setRange p r).range i = v.range i := Function.update_of_ne h _ _

theorem slot_append {a k : ℕ} {p : Ptr} (hk : k ≤ v.entries) :
    (v.append a p).slot k = if k = v.entries then p else v.slot k := by
  show ({ v with array := a, mem := moved a v.array (8 * v.entries) v.mem : Vec }.setSlot v.entries
    p).slot k = _
  rw [slot_setSlot]
  by_cases hlast : k = v.entries
  · rw [if_pos hlast, if_pos hlast]
  rw [if_neg hlast, if_neg hlast]
  funext j
  have hj := j.isLt
  unfold slot
  dsimp only
  rw [moved_of_mem (by omega)]
  congr 1
  omega

theorem append_mem {a x : ℕ} {p : Ptr} (hx : x < a ∨ a + 8 * (v.entries + 1) ≤ x) :
    (v.append a p).mem x = v.mem x := by
  show ({ v with array := a, mem := moved a v.array (8 * v.entries) v.mem : Vec }.setSlot v.entries
    p).mem x = v.mem x
  rw [setSlot_mem _ (by dsimp only; omega)]
  exact moved_of_notMem (by omega)

/-- What the `memmove` leaves in the slots. -/
theorem slot_shift {i k : ℕ} (hi : i < v.entries) (hb : v.array + 8 * v.entries < 2 ^ 64) :
    (v.shift i).slot k = if i < k ∧ k < v.entries then v.slot (k - 1) else v.slot k := by
  have hmove := @memmove_moves (v.array + 8 * (i + 1)) (v.array + 8 * i) (8 * (v.entries - 1 - i))
    v.mem (by omega) (by omega) (by omega) (by omega)
  funext j
  have hj := j.isLt
  unfold slot shift
  dsimp only
  simp only [hmove]
  split_ifs with hk
  · rw [moved_of_mem (by omega)]
    congr 1
    omega
  · rw [moved_of_notMem (by omega)]

theorem shift_mem {i x : ℕ} (hi : i < v.entries) (hb : v.array + 8 * v.entries < 2 ^ 64)
    (hx : x < v.array ∨ v.array + 8 * v.entries ≤ x) : (v.shift i).mem x = v.mem x := by
  have hmove := @memmove_moves (v.array + 8 * (i + 1)) (v.array + 8 * i) (8 * (v.entries - 1 - i))
    v.mem (by omega) (by omega) (by omega) (by omega)
  unfold shift
  simp only [hmove]
  exact moved_of_notMem (by omega)

theorem place_mem {i x : ℕ} {p : Ptr} {r : Range} (hi : i < v.entries)
    (hb : v.array + 8 * v.entries < 2 ^ 64) (hx : x < v.array ∨ v.array + 8 * v.entries ≤ x) :
    (v.place i p r).mem x = v.mem x := by
  show ((v.shift i).setSlot i p).mem x = v.mem x
  rw [setSlot_mem _ (by show x < v.array + 8 * i ∨ v.array + 8 * (i + 1) ≤ x; omega)]
  exact shift_mem hi hb hx

theorem slot_place {i k : ℕ} {p : Ptr} {r : Range} (hi : i < v.entries)
    (hb : v.array + 8 * v.entries < 2 ^ 64) :
    (v.place i p r).slot k =
      if k = i then p else if i < k ∧ k < v.entries then v.slot (k - 1) else v.slot k := by
  show ((v.shift i).setSlot i p).slot k = _
  rw [slot_setSlot, slot_shift hi hb]

/-- The slots behind `i` have the pointers before them. -/
theorem slot_place_of_ne {i k : ℕ} {p : Ptr} {r : Range} (hi : i < v.entries)
    (hb : v.array + 8 * v.entries < 2 ^ 64) (hk : k < v.entries) (hki : k ≠ i) :
    (v.place i p r).slot k = v.slot (if i < k then k - 1 else k) := by
  rw [slot_place hi hb, if_neg hki]
  by_cases hlt : i < k
  · rw [if_pos ⟨hlt, hk⟩, if_pos hlt]
  · rw [if_neg fun h => hlt h.1, if_neg hlt]

theorem slot_place_self {i : ℕ} {p : Ptr} {r : Range} (hi : i < v.entries)
    (hb : v.array + 8 * v.entries < 2 ^ 64) : (v.place i p r).slot i = p := by
  rw [slot_place hi hb, if_pos rfl]

/-- A slot holds `p`, or one of the old pointers. -/
theorem slot_place_or {i k : ℕ} {p : Ptr} {r : Range} (hi : i < v.entries)
    (hb : v.array + 8 * v.entries < 2 ^ 64) (hk : k < v.entries) :
    (v.place i p r).slot k = p ∨ ∃ b < v.entries - 1, (v.place i p r).slot k = v.slot b := by
  by_cases hki : k = i
  · exact Or.inl ((congrArg _ hki).trans (slot_place_self hi hb))
  · exact Or.inr ⟨_, by split_ifs <;> omega, slot_place_of_ne hi hb hk hki⟩

theorem distinct_place {i : ℕ} {p : Ptr} {r : Range} (hi : i < v.entries)
    (hb : v.array + 8 * v.entries < 2 ^ 64) (hp : ∀ a < v.entries - 1, v.slot a ≠ p)
    (hd : ∀ a < v.entries - 1, ∀ b < v.entries - 1, v.slot a = v.slot b → a = b) {a b : ℕ}
    (ha : a < v.entries) (hb' : b < v.entries)
    (hab : (v.place i p r).slot a = (v.place i p r).slot b) : a = b := by
  by_cases hai : a = i
  · by_cases hbi : b = i
    · exact hai.trans hbi.symm
    · rw [hai, slot_place_self hi hb, slot_place_of_ne hi hb hb' hbi] at hab
      exact absurd hab.symm (hp _ (by split_ifs <;> omega))
  · by_cases hbi : b = i
    · rw [hbi, slot_place_self hi hb, slot_place_of_ne hi hb ha hai] at hab
      exact absurd hab (hp _ (by split_ifs <;> omega))
    · rw [slot_place_of_ne hi hb ha hai, slot_place_of_ne hi hb hb' hbi] at hab
      have heq := hd _ (by split_ifs <;> omega) _ (by split_ifs <;> omega) hab
      split_ifs at heq <;> omega

/-- The new range at `i`, the others in their order. -/
theorem range_place {i k : ℕ} {p : Ptr} {r : Range} (hi : i < v.entries)
    (hb : v.array + 8 * v.entries < 2 ^ 64) (hp : ∀ a < v.entries - 1, v.slot a ≠ p)
    (hk : k < v.entries) :
    (v.place i p r).range k = if k = i then r else if i < k then v.range (k - 1) else v.range k := by
  by_cases hki : k = i
  · rw [if_pos hki, range, hki, slot_place_self hi hb]
    exact Function.update_self _ _ _
  · rw [if_neg hki, range, slot_place_of_ne hi hb hk hki]
    refine (Function.update_of_ne (hp _ (by split_ifs <;> omega)) _ _).trans ?_
    split_ifs <;> rfl

/-! ## 3. The merging loop -/

theorem coalesce_touches (prev curr : Range) (rest : List Range) :
    coalesce prev (curr :: rest) =
      if touches prev curr then coalesce (merge prev curr) rest else prev :: coalesce curr rest := by
  simp only [coalesce, touches, merge, decide_eq_true_eq]

/-- The pointers the loop still works with: those up to the write index `l` and those from the read
    index `j` on. -/
def Live (v : Vec) (l j a : ℕ) : Prop := a ≤ l ∨ j ≤ a ∧ a < v.entries

/-- They are distinct. -/
def Distinct (v : Vec) (l j : ℕ) : Prop :=
  ∀ a b, v.Live l j a → v.Live l j b → v.slot a = v.slot b → a = b

/-- What is read next is written at `l + 1`: each live pointer was live before. -/
theorem live_setSlot {l j : ℕ} (hj : j < v.entries) {a : ℕ}
    (ha : (v.setSlot (l + 1) (v.slot j)).Live (l + 1) (j + 1) a) :
    (v.setSlot (l + 1) (v.slot j)).slot a = v.slot (if a = l + 1 then j else a) ∧
      v.Live l j (if a = l + 1 then j else a) := by
  have ha' : a ≤ l + 1 ∨ j + 1 ≤ a ∧ a < v.entries := ha
  rw [slot_setSlot]
  unfold Live
  split_ifs with h
  · exact ⟨rfl, by omega⟩
  · exact ⟨rfl, by omega⟩

theorem Distinct.setSlot {l j : ℕ} (h : v.Distinct l j) (hlj : l < j) (hj : j < v.entries) :
    (v.setSlot (l + 1) (v.slot j)).Distinct (l + 1) (j + 1) := by
  intro a b ha hb hab
  obtain ⟨hsa, hla⟩ := live_setSlot hj ha
  obtain ⟨hsb, hlb⟩ := live_setSlot hj hb
  have ha' : a ≤ l + 1 ∨ j + 1 ≤ a ∧ a < v.entries := ha
  have hb' : b ≤ l + 1 ∨ j + 1 ≤ b ∧ b < v.entries := hb
  have heq := h _ _ hla hlb (hsa ▸ hsb ▸ hab)
  split_ifs at heq <;> omega

/-- **What the loop has done** when it ends in `w` with the write index `k`, and what it has left
    alone. -/
structure Merged (v : Vec) (l j : ℕ) (w : Vec) (k : ℕ) : Prop where
  lt : k < v.entries
  array : w.array = v.array
  slots : ∀ a ≤ k, ∃ b, v.Live l j b ∧ w.slot a = v.slot b
  distinct : ∀ a ≤ k, ∀ b ≤ k, w.slot a = w.slot b → a = b
  ranges : (List.range (k + 1)).map w.range =
    (List.range l).map v.range ++
      coalesce (v.range l) ((List.range' j (v.entries - j)).map v.range)
  mem : ∀ x, x < v.array ∨ v.array + 8 * v.entries ≤ x → w.mem x = v.mem x
  heap : ∀ q, (∀ a, v.Live l j a → v.slot a ≠ q) → w.heap q = v.heap q

theorem merged_end {l j : ℕ} (hlj : l < j) (hj : j = v.entries) (hd : v.Distinct l j) :
    Merged v l j v l where
  lt := by omega
  array := rfl
  slots a ha := ⟨a, Or.inl ha, rfl⟩
  distinct a ha b hb := hd a b (Or.inl ha) (Or.inl hb)
  ranges := by
    rw [hj, Nat.sub_self, List.range'_zero, List.map_nil, coalesce, List.range_succ, List.map_append,
      List.map_singleton]
  mem _ _ := rfl
  heap _ _ := rfl

/-- One pass that merges. -/
theorem Merged.merge {l j k : ℕ} {w : Vec} (hlj : l < j) (hlt : j < v.entries)
    (hd : v.Distinct l j) (hmerge : touches (v.range l) (v.range j) = true)
    (h : Merged (v.setRange (v.slot l) (merge (v.range l) (v.range j))) l (j + 1) w k) :
    Merged v l j w k := by
  have hlive : ∀ a, (v.setRange (v.slot l) (Ranges.merge (v.range l) (v.range j))).Live l (j + 1) a →
      v.Live l j a := fun a ha => ha.imp_right fun ha => ⟨by omega, ha.2⟩
  refine ⟨h.lt, h.array, fun a ha => ?_, h.distinct, h.ranges.trans ?_, h.mem, fun q hq => ?_⟩
  · obtain ⟨b, hb, he⟩ := h.slots a ha
    exact ⟨b, hlive b hb, he⟩
  · have hrest : ∀ a, a ≠ l → v.Live l j a →
        (v.setRange (v.slot l) (Ranges.merge (v.range l) (v.range j))).range a = v.range a :=
      fun a hne ha => range_setRange_of_ne
        (fun heq => hne (hd a l ha (Or.inl (le_refl _)) heq)) _
    have hnext : v.entries - j = v.entries - (j + 1) + 1 := by omega
    rw [range_setRange_self, hnext, List.range'_succ, List.map_cons, coalesce_touches,
      if_pos hmerge]
    congr 1
    · refine List.map_congr_left fun a ha => ?_
      have := List.mem_range.mp ha
      exact hrest a (by omega) (Or.inl (by omega))
    · congr 1
      refine List.map_congr_left fun a ha => ?_
      have hmem : a ∈ List.range' (j + 1) (v.entries - (j + 1)) := ha
      rw [List.mem_range'_1] at hmem
      exact hrest a (by omega) (Or.inr (by omega))
  · have hother : q ≠ v.slot l := fun heq => hq l (Or.inl (le_refl _)) heq.symm
    exact (h.heap q fun a ha => hq a (hlive a ha)).trans (Function.update_of_ne hother _ _)

/-- One pass that moves a pointer. -/
theorem Merged.move {l j k : ℕ} {w : Vec} (hlj : l < j) (hlt : j < v.entries)
    (hmerge : ¬ touches (v.range l) (v.range j) = true)
    (h : Merged (v.setSlot (l + 1) (v.slot j)) (l + 1) (j + 1) w k) : Merged v l j w k := by
  refine ⟨h.lt, h.array, fun a ha => ?_, h.distinct, h.ranges.trans ?_, fun x hx => ?_,
    fun q hq => ?_⟩
  · obtain ⟨b, hb, he⟩ := h.slots a ha
    obtain ⟨hs, hl⟩ := live_setSlot hlt hb
    exact ⟨_, hl, he.trans hs⟩
  · have hrest : ∀ a, a ≠ l + 1 → (v.setSlot (l + 1) (v.slot j)).range a = v.range a :=
      fun a ha => by rw [range_setSlot, if_neg ha]
    have hnext : v.entries - j = v.entries - (j + 1) + 1 := by omega
    rw [range_setSlot, if_pos rfl, hnext, List.range'_succ, List.map_cons, coalesce_touches,
      if_neg hmerge, List.range_succ, List.map_append, List.map_singleton, hrest l (by omega),
      List.append_assoc, List.singleton_append]
    congr 1
    · refine List.map_congr_left fun a ha => hrest a ?_
      have := List.mem_range.mp ha
      omega
    · congr 2
      refine List.map_congr_left fun a ha => hrest a ?_
      have hmem : a ∈ List.range' (j + 1) (v.entries - (j + 1)) := ha
      rw [List.mem_range'_1] at hmem
      omega
  · exact (h.mem x hx).trans (setSlot_mem _ (by omega))
  · refine h.heap q fun a ha => ?_
    obtain ⟨hs, hl⟩ := live_setSlot hlt ha
    exact hs ▸ hq _ hl

/-- **The merging loop**: what lies before the write index is done, what lies behind the read index
    is untouched. -/
theorem coalesceFrom_spec {fuel l j : ℕ} (hlj : l < j) (hj : j ≤ v.entries)
    (hf : v.entries - j ≤ fuel) (hd : v.Distinct l j) :
    Merged v l j (coalesceFrom fuel l j v).1 (coalesceFrom fuel l j v).2 := by
  induction fuel generalizing l j v with
  | zero => exact merged_end hlj (by omega) hd
  | succ fuel ih =>
      unfold coalesceFrom
      by_cases hlt : j < v.entries
      swap
      · rw [if_neg hlt]
        exact merged_end hlj (by omega) hd
      have hf' : v.entries - (j + 1) ≤ fuel := by omega
      rw [if_pos hlt]
      split_ifs with hmerge
      · have hd' : (v.setRange (v.slot l) (merge (v.range l) (v.range j))).Distinct l (j + 1) :=
          fun a b ha hb => hd a b (ha.imp_right fun ha => ⟨by omega, ha.2⟩)
            (hb.imp_right fun hb => ⟨by omega, hb.2⟩)
        exact Merged.merge hlj hlt hd hmerge (ih (by omega) hlt hf' hd')
      · exact Merged.move hlj hlt hmerge (ih (by omega) hlt hf' (hd.setSlot hlj hlt))

/-! ## 4. An insertion -/

/-- **The array holds the ranges `rs`**, through distinct pointers. -/
structure Represents (v : Vec) (rs : List Range) : Prop where
  ranges : (List.range v.entries).map v.range = rs
  distinct : ∀ a < v.entries, ∀ b < v.entries, v.slot a = v.slot b → a = b

/-- The search finds the place where `insertSorted` puts the range. -/
theorem search_spec {r : Range} {n fuel i : ℕ} (hn : v.entries = n + 1) (hi : i ≤ n)
    (hf : n - i ≤ fuel) :
    i ≤ v.search r fuel i ∧ v.search r fuel i ≤ n ∧
      insertSorted r ((List.range' i (n - i)).map v.range) =
        (List.range' i (v.search r fuel i - i)).map v.range ++
          r :: (List.range' (v.search r fuel i) (n - v.search r fuel i)).map v.range := by
  induction fuel generalizing i with
  | zero =>
      obtain rfl : i = n := by omega
      simp [search, insertSorted]
  | succ fuel ih =>
      unfold search
      by_cases hlt : i < n
      swap
      · obtain rfl : i = n := by omega
        simp [hn, insertSorted]
      rw [hn, if_pos (by omega)]
      have hnext : n - i = n - (i + 1) + 1 := by omega
      split_ifs with hless
      · refine ⟨le_refl _, hi, ?_⟩
        rw [Nat.sub_self, List.range'_zero, List.map_nil, List.nil_append, hnext, List.range'_succ,
          List.map_cons, insertSorted, if_pos hless]
      · obtain ⟨h1, h2, h3⟩ := ih (i := i + 1) hlt (by omega)
        refine ⟨by omega, h2, ?_⟩
        have hcount : v.search r fuel (i + 1) - i = v.search r fuel (i + 1) - (i + 1) + 1 := by omega
        rw [hnext, List.range'_succ, List.map_cons, insertSorted, if_neg hless, h3, hcount,
          List.range'_succ, List.map_cons, List.cons_append]

/-- The array with the new range in its place, before the merging. -/
theorem placed_spec {n : ℕ} {p : Ptr} {r : Range} (hn : v.entries = n + 1)
    (hb : v.array + 8 * v.entries < 2 ^ 64) (hp : ∀ a < n, v.slot a ≠ p)
    (hd : ∀ a < n, ∀ b < n, v.slot a = v.slot b → a = b) :
    Represents (v.place (v.search r v.entries 0) p r)
      (insertSorted r ((List.range n).map v.range)) := by
  obtain ⟨-, hi, hsorted⟩ := @search_spec v r n v.entries 0 hn (Nat.zero_le n) (by omega)
  generalize v.search r v.entries 0 = i at hi hsorted
  rw [Nat.sub_zero, Nat.sub_zero, ← List.range_eq_range', ← List.range_eq_range'] at hsorted
  have hlt : i < v.entries := by omega
  have hp' : ∀ a < v.entries - 1, v.slot a ≠ p := fun a ha => hp a (by omega)
  refine ⟨?_, fun a ha b hb' hab => ?_⟩
  · rw [hsorted]
    show (List.range v.entries).map (v.place i p r).range = _
    have hsplit : List.range v.entries =
        List.range i ++ i :: (List.range' i (n - i)).map (1 + ·) := by
      rw [List.range_eq_range', show v.entries = i + (n - i + 1) by omega, List.range'_append_1.symm,
        List.range'_succ, List.range_eq_range', Nat.zero_add, List.map_add_range', Nat.add_comm 1 i]
    rw [hsplit, List.map_append, List.map_cons, List.map_map]
    congr 1
    · refine List.map_congr_left fun a ha => ?_
      have := List.mem_range.mp ha
      rw [range_place hlt hb hp' (by omega), if_neg (by omega), if_neg (by omega)]
    · congr 1
      · rw [range_place hlt hb hp' hlt, if_pos rfl]
      · refine List.map_congr_left fun a ha => ?_
        rw [List.mem_range'_1] at ha
        show (v.place i p r).range (1 + a) = v.range a
        rw [Nat.add_comm 1 a, range_place hlt hb hp' (by omega), if_neg (by omega), if_pos (by omega),
          Nat.add_sub_cancel]
  · refine distinct_place hlt hb hp' (fun a ha b hb => ?_) ha hb' hab
    exact hd a (by omega) b (by omega)

/-- The merging of the whole array. -/
theorem Represents.merged {x : Range} {xs : List Range} (h : Represents v (x :: xs)) :
    Represents { (coalesceFrom v.entries 0 1 v).1 with
        entries := (coalesceFrom v.entries 0 1 v).2 + 1 } (coalesce x xs) ∧
      Merged v 0 1 (coalesceFrom v.entries 0 1 v).1 (coalesceFrom v.entries 0 1 v).2 := by
  have hlen := congrArg List.length h.ranges
  rw [List.length_map, List.length_range, List.length_cons] at hlen
  have hm : Merged v 0 1 (coalesceFrom v.entries 0 1 v).1 (coalesceFrom v.entries 0 1 v).2 :=
    coalesceFrom_spec Nat.zero_lt_one (by omega) (by omega) fun a b ha hb =>
      h.distinct a (by unfold Live at ha; omega) b (by unfold Live at hb; omega)
  have hcons : v.range 0 :: (List.range' 1 (v.entries - 1)).map v.range = x :: xs := by
    rw [← h.ranges, List.range_eq_range', show v.entries = v.entries - 1 + 1 by omega,
      List.range'_succ, List.map_cons, Nat.add_sub_cancel]
  obtain ⟨h0, hs⟩ := List.cons.inj hcons
  refine ⟨⟨?_, fun a ha b hb => hm.distinct a (Nat.lt_succ_iff.mp ha) b (Nat.lt_succ_iff.mp hb)⟩, hm⟩
  rw [← h0, ← hs]
  exact hm.ranges

/-- The array before the merging: its pointers, and what has been written so far. -/
structure Placed (v : Vec) (a : ℕ) (p : Ptr) (u : Vec) : Prop where
  array : u.array = a
  entries : u.entries = v.entries + 1
  slots : ∀ k < u.entries, u.slot k = p ∨ ∃ b < v.entries, u.slot k = v.slot b
  mem : ∀ x, x < a ∨ a + 8 * (v.entries + 1) ≤ x → u.mem x = v.mem x
  heap : ∀ q, q ≠ p → u.heap q = v.heap q

/-- An insertion merges an array that holds the sorted list. -/
theorem insert_placed {rs : List Range} (h : Represents v rs) {a : ℕ}
    (ha : a + 8 * (v.entries + 1) < 2 ^ 64) (start size : ℕ) {p : Ptr}
    (hp : ∀ k < v.entries, v.slot k ≠ p) :
    ∃ u, Placed v a p u ∧ Represents u (insertSorted ⟨start, size⟩ rs) ∧
      v.insert a start size p = { (coalesceFrom u.entries 0 1 u).1 with
        entries := (coalesceFrom u.entries 0 1 u).2 + 1 } := by
  set u := v.append a fun _ => 0
  have hslot : ∀ k < v.entries, u.slot k = v.slot k := fun k hk =>
    (slot_append (Nat.le_of_lt hk)).trans (if_neg (by omega))
  have hranges : (List.range v.entries).map u.range = rs := by
    rw [← h.ranges]
    refine List.map_congr_left fun k hk => ?_
    exact congrArg v.heap (hslot k (List.mem_range.mp hk))
  have hplaced := @placed_spec u v.entries p ⟨start, size⟩ rfl ha
    (fun k hk => hslot k hk ▸ hp k hk)
    (fun k hk l hl hkl => h.distinct k hk l hl (hslot k hk ▸ hslot l hl ▸ hkl))
  rw [hranges] at hplaced
  obtain ⟨-, hi, -⟩ := @search_spec u ⟨start, size⟩ v.entries u.entries 0 rfl
    (Nat.zero_le _) (Nat.le_succ _)
  have hlt : u.search ⟨start, size⟩ u.entries 0 < u.entries := Nat.lt_succ_iff.mpr hi
  refine ⟨_, ⟨rfl, rfl, fun k hk => ?_, fun x hx => ?_, fun q hq => ?_⟩, hplaced, rfl⟩
  · refine (slot_place_or hlt ha hk).imp_right fun hb => ?_
    obtain ⟨b, hb, he⟩ := hb
    exact ⟨b, hb, he.trans (hslot b hb)⟩
  · exact (place_mem hlt ha hx).trans (append_mem hx)
  · exact Function.update_of_ne hq _ _

/-- **An insertion into the array is the insertion into the list.** Nothing but the array and the
    objects it points to is written. -/
theorem insert_refines {rs : Ranges} (h : Represents v rs.v) {a : ℕ}
    (ha : a + 8 * (v.entries + 1) < 2 ^ 64) (start size : ℕ) {p : Ptr}
    (hp : ∀ k < v.entries, v.slot k ≠ p) :
    Represents (v.insert a start size p) (rs.insert start size).v ∧
      (∀ x, x < a ∨ a + 8 * (v.entries + 1) ≤ x → (v.insert a start size p).mem x = v.mem x) ∧
      ∀ q, q ≠ p → (∀ k < v.entries, v.slot k ≠ q) →
        (v.insert a start size p).heap q = v.heap q := by
  obtain ⟨u, hu, hrep, heq⟩ := insert_placed h ha start size hp
  obtain ⟨x, xs, hx⟩ := List.exists_cons_of_ne_nil (Ranges.insertSorted_ne_nil ⟨start, size⟩ rs.v)
  have hinsert : (rs.insert start size).v = coalesce x xs := by
    unfold Ranges.insert
    rw [hx]
  rw [hx] at hrep
  obtain ⟨hmerged, hm⟩ := hrep.merged
  rw [heq, hinsert]
  refine ⟨hmerged, fun y hy => ?_, fun q hq hne => ?_⟩
  · refine (hm.mem y ?_).trans (hu.mem y hy)
    rwa [hu.array, hu.entries]
  · refine (hm.heap q fun k hk => ?_).trans (hu.heap q hq)
    have hpos := hu.entries
    rcases hu.slots k (by unfold Live at hk; omega) with he | ⟨b, hb, he⟩
    · rw [he]
      exact hq.symm
    · rw [he]
      exact hne b hb

/-- The pointers of the array are those it had, and the new one. -/
theorem slot_insert {rs : List Range} (h : Represents v rs) {a : ℕ}
    (ha : a + 8 * (v.entries + 1) < 2 ^ 64) (start size : ℕ) {p : Ptr}
    (hp : ∀ k < v.entries, v.slot k ≠ p) {k : ℕ} (hk : k < (v.insert a start size p).entries) :
    (v.insert a start size p).slot k = p ∨
      ∃ b < v.entries, (v.insert a start size p).slot k = v.slot b := by
  obtain ⟨u, hu, hrep, heq⟩ := insert_placed h ha start size hp
  obtain ⟨x, xs, hx⟩ := List.exists_cons_of_ne_nil (Ranges.insertSorted_ne_nil ⟨start, size⟩ rs)
  rw [hx] at hrep
  obtain ⟨b, hb, hs⟩ := hrep.merged.2.slots k (by rw [heq] at hk; exact Nat.lt_succ_iff.mp hk)
  have hpos := hu.entries
  rw [heq]
  refine (hu.slots b (by unfold Live at hb; omega)).imp hs.trans fun hc => ?_
  obtain ⟨c, hc, he⟩ := hc
  exact ⟨c, hc, Eq.trans hs he⟩

/-- Two pages with one free page between them, through the pointers 1 and 2. -/
def twoRanges : Vec where
  array := 4096
  entries := 2
  mem x := if x < 4104 then 1 else 2
  heap q := if q 0 = 1 then ⟨4096, 4096⟩ else ⟨12288, 4096⟩

/-- The page between them makes one range of the three. -/
theorem insert_refines_between :
    Represents (twoRanges.insert 65536 8192 4096 fun _ => 3) [⟨4096, 12288⟩] := by
  have h : Represents twoRanges (Ranges.mk [⟨4096, 4096⟩, ⟨12288, 4096⟩]).v :=
    ⟨by decide, by decide⟩
  exact (insert_refines h (by decide) 8192 4096 (by decide)).1

end Vec

end Persimmon
