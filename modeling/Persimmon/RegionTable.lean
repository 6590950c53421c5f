/-
  File:      Persimmon/RegionTable.lean
  Subject:   THE REGION TABLE OVER WHOLE RUNS: what `regions` and `rs` hold after any sequence of
             `replace_region` and `remove_region` calls, and what is left of a region when a system
             call of a removal fails (src/undo/mem_region/mem_region.cc, common.h).

  * `Manager.Sound` -- non-empty regions that lie apart, all of them in `rs`; `Sound.add`,
    `Sound.drop` -- the two ways a table changes;
  * `replaceRegion_eq`, `removeRegion_eq` -- what the functions come to for every outcome of their
    system calls: their assertions do not fail;
  * `Table`, `TableCall`, `regionTable_exact` -- runs of calls that succeed: the table covers exactly
    what has been replaced and not removed since;
  * `TruthfulRemoval`, `removal_truthful_iff` -- when a removal leaves all that is still mapped in
    the table.
-/
import Persimmon.Lib.Transition
import Persimmon.MemRegion

namespace Persimmon

open Transition

/-! ## 1. Sound tables -/

namespace Region

variable {a b : Region}

theorem overlap_false_iff (ha : 0 < a.size) (hb : 0 < b.size) :
    a.doesOverlapWith b = false ↔ a.Apart b := by
  refine ⟨apart_of_not_overlap, fun h => ?_⟩
  simp only [doesOverlapWith, Bool.or_eq_false_iff, doesIncludeAddr, Bool.and_eq_false_iff,
    decide_eq_false_iff_not]
  unfold Apart stop at *
  omega

theorem apart_iff_disjoint (ha : 0 < a.size) (hb : 0 < b.size) :
    a.Apart b ↔ Disjoint a.pts b.pts := by
  rw [Set.disjoint_left]
  constructor
  · intro h x hxa hxb
    rw [mem_pts] at hxa hxb
    unfold Apart at h
    omega
  · intro h
    by_contra hno
    -- the larger of the two bases would lie in both
    have hmax := h (a := max a.base b.base)
    simp only [mem_pts] at hmax
    unfold Apart stop at *
    omega

end Region

/-- **The regions of a table**: non-empty and apart, no end overflows. -/
structure Spread (regions : List Region) : Prop where
  apart : regions.Pairwise Region.Apart
  pos : ∀ r ∈ regions, 0 < r.size
  bound : ∀ r ∈ regions, r.stop < 2 ^ 64

/-- **A sound manager**: its regions are spread, and `rs` has every address of them. -/
structure Manager.Sound (m : Manager) : Prop where
  spread : Spread m.regions
  wf : m.rs.Wf
  managed : regionPts m.regions ⊆ m.rs.pts

/-- `drvector_append(&regions, ..)` and `rs.insert`. -/
def Manager.add (m : Manager) (base size fileId : ℕ) : Manager :=
  ⟨m.regions ++ [⟨base, size, fileId⟩], m.rs.insert base size⟩

/-- The same for the remainder `[base, stop)`, when there is one. -/
def Manager.addRest (m : Manager) (base stop fileId : ℕ) : Manager :=
  if stop = base then m else m.add base (stop - base) fileId

/-- The region at `i` leaves the vector. -/
def Manager.drop (m : Manager) (i : ℕ) : Manager := ⟨swapRemove m.regions i, m.rs⟩

section Spread

variable {regions : List Region}

/-- **`find_overlap` finds nothing exactly when the interval meets no region.** -/
theorem findOverlap_none_iff (h : ∀ r ∈ regions, 0 < r.size) {base size fileId : ℕ} (hn : 0 < size) :
    findOverlap regions ⟨base, size, fileId⟩ = none ↔
      Disjoint (Set.Ico base (base + size)) (regionPts regions) := by
  rw [findOverlap_none, Set.disjoint_right]
  constructor
  · intro hall x hex hin
    obtain ⟨r, hr, hx⟩ := hex
    have hap := (Region.overlap_false_iff (h r hr) hn).mp (hall r hr)
    exact Set.disjoint_left.mp ((Region.apart_iff_disjoint (h r hr) hn).mp hap) hx hin
  · intro hall r hr
    rw [Region.overlap_false_iff (h r hr) hn, Region.apart_iff_disjoint (h r hr) hn,
      Set.disjoint_left]
    exact fun x hx hin => hall ⟨r, hr, hx⟩ hin

/-- The region an interval lies in is the one `find_overlap` finds. -/
theorem findOverlap_inside (h : Spread regions) {r : Region} (hr : r ∈ regions) {base size fileId : ℕ}
    (hn : 0 < size) (h1 : r.base ≤ base) (h2 : base + size ≤ r.stop) :
    ∃ i, ∃ hi : i < regions.length,
      findOverlap regions ⟨base, size, fileId⟩ = some i ∧ regions[i] = r := by
  have hbase : base ∈ r.pts := Region.mem_pts.mpr ⟨h1, by omega⟩
  cases hov : findOverlap regions ⟨base, size, fileId⟩ with
  | none =>
      have hd := (findOverlap_none_iff h.pos hn).mp hov
      exact absurd ⟨r, hr, hbase⟩ (Set.disjoint_left.mp hd ⟨le_refl _, by omega⟩)
  | some i =>
      obtain ⟨hi, hover⟩ := findOverlap_some hov
      refine ⟨i, hi, rfl, ?_⟩
      have hmem : regions[i] ∈ regions := List.getElem_mem hi
      by_contra hne
      have hap : regions[i].Apart r := h.apart.forall hmem hr hne
      have hap' : regions[i].Apart ⟨base, size, fileId⟩ := by
        unfold Region.Apart Region.stop at *
        simp only
        omega
      rw [← Region.overlap_false_iff (h.pos _ hmem) hn, hover] at hap'
      cases hap'

theorem Spread.swapRemove (h : Spread regions) {i : ℕ} (hi : i < regions.length) :
    Spread (Persimmon.swapRemove regions i) ∧
      (∀ q ∈ Persimmon.swapRemove regions i, q.Apart regions[i]) ∧
      regionPts (Persimmon.swapRemove regions i) = regionPts regions \ regions[i].pts := by
  have hperm : regions.Perm (regions[i] :: Persimmon.swapRemove regions i) :=
    (List.getElem_cons_eraseIdx_perm hi).symm.trans ((swapRemove_perm hi).symm.cons _)
  have hcons := (hperm.pairwise_iff fun h => Region.Apart.symm h).mp h.apart
  obtain ⟨hap, hrest⟩ := List.pairwise_cons.mp hcons
  have hsub : ∀ q ∈ Persimmon.swapRemove regions i, q ∈ regions := fun q hq =>
    hperm.mem_iff.mpr (List.mem_cons_of_mem _ hq)
  refine ⟨⟨hrest, fun q hq => h.pos q (hsub q hq), fun q hq => h.bound q (hsub q hq)⟩,
    fun q hq => (hap q hq).symm, ?_⟩
  have hdisj : ∀ q ∈ Persimmon.swapRemove regions i, Disjoint regions[i].pts q.pts := fun q hq =>
    (Region.apart_iff_disjoint (h.pos _ (List.getElem_mem hi)) (h.pos q (hsub q hq))).mp (hap q hq)
  ext x
  rw [Set.mem_sdiff]
  constructor
  · intro hex
    obtain ⟨q, hq, hx⟩ := hex
    exact ⟨⟨q, hsub q hq, hx⟩, fun hxi => Set.disjoint_left.mp (hdisj q hq) hxi hx⟩
  · intro hboth
    obtain ⟨⟨q, hq, hx⟩, hout⟩ := hboth
    rcases List.mem_cons.mp (hperm.mem_iff.mp hq) with rfl | hq
    · exact absurd hx hout
    · exact ⟨q, hq, hx⟩

end Spread

theorem regionPts_addRest (m : Manager) {base stop : ℕ} (fileId : ℕ) (hle : base ≤ stop) :
    regionPts (m.addRest base stop fileId).regions = regionPts m.regions ∪ Set.Ico base stop := by
  unfold Manager.addRest
  split
  · rename_i he
    rw [he, Set.Ico_self, Set.union_empty]
  · rw [Manager.add, regionPts_snoc, Nat.add_sub_cancel' hle]

namespace Manager.Sound

variable {m : Manager}

theorem drop (h : m.Sound) {i : ℕ} (hi : i < m.regions.length) :
    (m.drop i).Sound ∧ regionPts (m.drop i).regions = regionPts m.regions \ m.regions[i].pts := by
  obtain ⟨h1, -, h3⟩ := h.spread.swapRemove hi
  refine ⟨⟨h1, h.wf, ?_⟩, h3⟩
  show regionPts (swapRemove m.regions i) ⊆ m.rs.pts
  rw [h3]
  exact fun x hx => h.managed hx.1

theorem add (h : m.Sound) {base size : ℕ} (fileId : ℕ) (hn : 0 < size) (hb : base + size < 2 ^ 64)
    (hap : ∀ q ∈ m.regions, q.Apart ⟨base, size, fileId⟩) : (m.add base size fileId).Sound := by
  refine ⟨⟨?_, fun q hq => ?_, fun q hq => ?_⟩, Ranges.wf_insert h.wf hb, ?_⟩
  · exact List.pairwise_append.mpr ⟨h.spread.apart, List.pairwise_singleton _ _,
      fun a ha b hb => List.mem_singleton.mp hb ▸ hap a ha⟩
  · rcases List.mem_append.mp hq with hq | hq
    · exact h.spread.pos q hq
    · rw [List.mem_singleton.mp hq]
      exact hn
  · rcases List.mem_append.mp hq with hq | hq
    · exact h.spread.bound q hq
    · rw [List.mem_singleton.mp hq]
      exact hb
  · rw [Manager.add, regionPts_snoc, Ranges.pts_insert h.wf hb]
    exact Set.union_subset_union h.managed (Set.Subset.refl _)

theorem addRest (h : m.Sound) {base stop : ℕ} (fileId : ℕ) (hle : base ≤ stop) (hb : stop < 2 ^ 64)
    (hap : ∀ q ∈ m.regions, q.stop ≤ base ∨ stop ≤ q.base) :
    (m.addRest base stop fileId).Sound := by
  unfold Manager.addRest
  split
  · exact h
  · refine h.add fileId (by omega) (by omega) fun q hq => ?_
    have := hap q hq
    unfold Region.Apart Region.stop at *
    simp only
    omega

theorem new : Manager.new.Sound where
  spread := ⟨.nil, fun _ h => absurd h List.not_mem_nil, fun _ h => absurd h List.not_mem_nil⟩
  wf := Ranges.wf_empty
  managed := by
    intro x hex
    obtain ⟨r, hr, -⟩ := hex
    exact absurd hr List.not_mem_nil

/-- **Every address of a region is managed.** -/
theorem doesManage (h : m.Sound) {x : ℕ} (hx : x ∈ regionPts m.regions) : m.doesManage x = true := by
  obtain ⟨r, hr, hxr⟩ := hx
  have hlt : x < 2 ^ 64 := lt_trans hxr.2 (h.spread.bound r hr)
  exact (Ranges.findPoint_iff hlt).mpr (h.managed ⟨r, hr, hxr⟩)

end Manager.Sound

/-! ## 2. The functions, for every outcome of their system calls -/

/-- `persist_region`, `mmap` and `close` succeed. -/
def ReplaceOutcome.Succeeds (o : ReplaceOutcome) : Prop :=
  o.persisted = true ∧ o.mapped = true ∧ o.closed = true

instance (o : ReplaceOutcome) : Decidable o.Succeeds := inferInstanceAs (Decidable (_ ∧ _ ∧ _))

section Functions

variable {m : Manager} {d : Files} {mem : ℕ → ℕ} {base size stop : ℕ}

/-- **`replace_region` on an interval that meets no region**: its assertion holds, and the table
    changes when every system call succeeds. -/
theorem replaceRegion_eq {o : ReplaceOutcome}
    (hno : findOverlap m.regions ⟨base, size, o.fileId⟩ = none) :
    ∃ d', m.replaceRegion d mem base size o =
      some (if o.Succeeds then (.success, m.add base size o.fileId, d') else (.error, m, d')) := by
  obtain ⟨fileId, persisted, mapped, closed⟩ := o
  unfold Manager.replaceRegion
  simp only [hno, Option.isSome_none, Bool.false_eq_true, if_false]
  cases persisted with
  | false => exact ⟨d, by simp [ReplaceOutcome.Succeeds]⟩
  | true =>
      refine ⟨d.create (base, fileId) mem, ?_⟩
      cases mapped with
      | false => simp [ReplaceOutcome.Succeeds, Region.fileName]
      | true => cases closed <;> simp [ReplaceOutcome.Succeeds, Region.fileName, Manager.add]

theorem replaceRest_eq {o : ReplaceOutcome} (hpos : ∀ q ∈ m.regions, 0 < q.size) (hle : base ≤ stop)
    (hap : ∀ q ∈ m.regions, q.stop ≤ base ∨ stop ≤ q.base) :
    ∃ d', m.replaceRest d mem base stop o =
      some (if stop = base ∨ o.Succeeds then (.success, m.addRest base stop o.fileId, d')
        else (.error, m, d')) := by
  unfold Manager.replaceRest Manager.addRest
  by_cases he : stop = base
  · exact ⟨d, by simp [he]⟩
  · have hno : findOverlap m.regions ⟨base, stop - base, o.fileId⟩ = none := by
      refine findOverlap_none.mpr fun q hq => ?_
      rw [Region.overlap_false_iff (hpos q hq) (show 0 < stop - base by omega)]
      have := hap q hq
      unfold Region.Apart Region.stop at *
      simp only
      omega
    obtain ⟨d', h⟩ := @replaceRegion_eq _ d mem _ _ _ hno
    refine ⟨d', ?_⟩
    rw [if_pos he, h]
    simp only [he, false_or, if_false]

/-- What `remove_region` returns, and the table it leaves, when the interval lies inside the region
    `r` at index `i`. -/
def Manager.removed (m : Manager) (i : ℕ) (r : Region) (base size : ℕ) (o : RemoveOutcome) :
    Result × Manager :=
  let m1 := m.drop i
  if o.unmapped = false then (.success, m1)
  else if r.stop = base + size ∨ o.right.Succeeds then
    let m2 := m1.addRest (base + size) r.stop o.right.fileId
    if base = r.base ∨ o.left.Succeeds then (.success, m2.addRest r.base base o.left.fileId)
    else (.error, m2)
  else (.error, m1)

/-- What lies apart from a region lies apart from its right remainder, and what is then in the table
    lies apart from the left one. -/
theorem drop_apart (h : Spread m.regions) {i : ℕ} (hi : i < m.regions.length)
    (h1 : m.regions[i].base ≤ base) (h2 : base + size ≤ m.regions[i].stop) (fileId : ℕ) :
    (∀ q ∈ (m.drop i).regions, q.stop ≤ base + size ∨ m.regions[i].stop ≤ q.base) ∧
      ∀ q ∈ ((m.drop i).addRest (base + size) m.regions[i].stop fileId).regions,
        0 < q.size ∧ (q.stop ≤ m.regions[i].base ∨ base ≤ q.base) := by
  obtain ⟨hspread, hap, -⟩ := h.swapRemove hi
  refine ⟨fun q hq => ?_, fun q hq => ?_⟩
  · have hq' := hap q hq
    unfold Region.Apart at hq'
    omega
  · have hold : ∀ q ∈ (m.drop i).regions,
        0 < q.size ∧ (q.stop ≤ m.regions[i].base ∨ base ≤ q.base) := fun q hq => by
      have hq' := hap q hq
      refine ⟨hspread.pos q hq, ?_⟩
      unfold Region.Apart at hq'
      omega
    unfold Manager.addRest at hq
    split at hq
    · exact hold q hq
    · rename_i hne
      rcases List.mem_append.mp hq with hq | hq
      · exact hold q hq
      · rw [List.mem_singleton.mp hq]
        refine ⟨show 0 < m.regions[i].stop - (base + size) by omega, Or.inr ?_⟩
        show base ≤ base + size
        omega

/-- **`remove_region` on an interval inside a region**: no assertion fails, also not in the calls of
    `replace_region`. -/
theorem removeRegion_eq (h : Spread m.regions) (hn : 0 < size) {i : ℕ} (hi : i < m.regions.length)
    (hov : findOverlap m.regions ⟨base, size, 0⟩ = some i) (h1 : m.regions[i].base ≤ base)
    (h2 : base + size ≤ m.regions[i].stop) (o : RemoveOutcome) :
    ∃ d', m.removeRegion d mem base size o =
      some ((m.removed i m.regions[i] base size o).1, (m.removed i m.regions[i] base size o).2, d') := by
  have hinc : m.regions[i].doesInclude ⟨base, size, 0⟩ = true :=
    (Region.doesInclude_iff hn).mpr ⟨h1, h2⟩
  obtain ⟨hr, hl⟩ := drop_apart h hi h1 h2 o.right.fileId
  obtain ⟨hspread, -, -⟩ := h.swapRemove hi
  unfold Manager.removeRegion Manager.removed
  simp only [hov, List.getElem?_eq_getElem hi, hinc, Bool.true_eq_false, if_false]
  cases hu : o.unmapped with
  | false => exact ⟨d, by simp [Manager.drop]⟩
  | true =>
      simp only [Bool.true_eq_false, if_false]
      obtain ⟨d2, hd2⟩ := @replaceRest_eq (m.drop i) d mem _ _ o.right hspread.pos h2 hr
      have hd2' : (⟨swapRemove m.regions i, m.rs⟩ : Manager).replaceRest d mem
          (Region.stop ⟨base, size, 0⟩) m.regions[i].stop o.right = _ := hd2
      rw [hd2']
      by_cases hright : m.regions[i].stop = base + size ∨ o.right.Succeeds
      · obtain ⟨d3, hd3⟩ := @replaceRest_eq _ d2 mem _ _ o.left
          (fun q hq => (hl q hq).1) h1 fun q hq => (hl q hq).2
        refine ⟨d3, ?_⟩
        simp only [if_pos hright]
        rw [hd3]
        by_cases hleft : base = m.regions[i].base ∨ o.left.Succeeds
        · simp only [if_pos hleft]
        · simp only [if_neg hleft]
      · exact ⟨d2, by simp only [if_neg hright]⟩

end Functions

/-! ## 3. Runs of calls that succeed -/

/-- A manager with its files, and the set of addresses the calls so far ask for. -/
structure Table where
  mrm : Manager
  files : Files
  expected : Set ℕ

/-- A call, with the file ids it draws and the memory it finds. -/
inductive TableCall where
  | replace (base size fileId : ℕ) (mem : ℕ → ℕ)
  | remove (base size rightId leftId : ℕ) (mem : ℕ → ℕ)

/-- The call, every system call of it succeeding. -/
def TableCall.run (m : Manager) (d : Files) : TableCall → Option (Result × Manager × Files)
  | .replace base size fileId mem =>
      m.replaceRegion d mem base size (ReplaceOutcome.ok fileId)
  | .remove base size rightId leftId mem =>
      m.removeRegion d mem base size (RemoveOutcome.ok rightId leftId)

def TableCall.expect (S : Set ℕ) : TableCall → Set ℕ
  | .replace base size _ _ => S ∪ Set.Ico base (base + size)
  | .remove base size _ _ _ => S \ Set.Ico base (base + size)

namespace Table

def Step (s : Table) (c : TableCall) (s' : Table) : Prop :=
  ∃ res, c.run s.mrm s.files = some (res, s'.mrm, s'.files) ∧ s'.expected = c.expect s.expected

/-- **The calls considered**: non-empty intervals that do not overflow; a replaced one meets no
    region, a removed one meets none either or lies inside one. -/
def Admits (s : Table) : TableCall → Prop
  | .replace base size _ _ => 0 < size ∧ base + size < 2 ^ 64 ∧
      Disjoint (Set.Ico base (base + size)) (regionPts s.mrm.regions)
  | .remove base size _ _ _ => 0 < size ∧ base + size < 2 ^ 64 ∧
      ((∃ r ∈ s.mrm.regions, Set.Ico base (base + size) ⊆ r.pts) ∨
        Disjoint (Set.Ico base (base + size)) (regionPts s.mrm.regions))

def start (d : Files) : Table := ⟨Manager.new, d, ∅⟩

/-- **The table is exact.** -/
structure Exact (s : Table) : Prop where
  nonempty : ∀ r ∈ s.mrm.regions, 0 < r.size
  disjoint : s.mrm.regions.Pairwise fun a b => Disjoint a.pts b.pts
  union : regionPts s.mrm.regions = s.expected
  /-- No assertion of the next call fails, whichever it is, also not in nested calls. -/
  asserts : ∀ c, s.Admits c → ∃ res m d, c.run s.mrm s.files = some (res, m, d) ∧ res ≠ .error
  overlap : ∀ base size fileId, 0 < size → base + size < 2 ^ 64 →
    (findOverlap s.mrm.regions ⟨base, size, fileId⟩ = none ↔
      Disjoint (Set.Ico base (base + size)) (regionPts s.mrm.regions))
  manages : ∀ p ∈ regionPts s.mrm.regions, s.mrm.doesManage p = true

end Table

section Runs

variable {m : Manager} {d : Files} {base size : ℕ}

theorem ok_succeeds (fileId : ℕ) : (ReplaceOutcome.ok fileId).Succeeds := ⟨rfl, rfl, rfl⟩

theorem removed_ok (m : Manager) (i : ℕ) (r : Region) (base size rightId leftId : ℕ) :
    m.removed i r base size (RemoveOutcome.ok rightId leftId) =
      (.success, ((m.drop i).addRest (base + size) r.stop rightId).addRest r.base base leftId) := by
  unfold Manager.removed RemoveOutcome.ok
  simp only [ok_succeeds, or_true, if_true, Bool.true_eq_false, if_false]
  rfl

/-- A replaced interval is added to a sound table. -/
theorem replace_sound (h : m.Sound) (hn : 0 < size) (hb : base + size < 2 ^ 64)
    (hd : Disjoint (Set.Ico base (base + size)) (regionPts m.regions)) (fileId : ℕ) (mem : ℕ → ℕ) :
    ∃ m' d', (TableCall.replace base size fileId mem).run m d = some (.success, m', d') ∧ m'.Sound ∧
      regionPts m'.regions = regionPts m.regions ∪ Set.Ico base (base + size) := by
  have hno := (@findOverlap_none_iff _ h.spread.pos _ _ fileId hn).mpr hd
  obtain ⟨d', he⟩ := @replaceRegion_eq _ d mem _ _ (ReplaceOutcome.ok fileId) hno
  rw [if_pos (ok_succeeds fileId)] at he
  have hs := h.add fileId hn hb fun q hq =>
    Region.apart_of_not_overlap (findOverlap_none.mp hno q hq)
  exact ⟨_, d', he, hs, regionPts_snoc _ _ _ _⟩

/-- An interval inside a region is taken out of a sound table, and nothing else is. -/
theorem remove_sound (h : m.Sound) (hn : 0 < size) {r : Region} (hr : r ∈ m.regions)
    (hin : Set.Ico base (base + size) ⊆ r.pts) (rightId leftId : ℕ) (mem : ℕ → ℕ) :
    ∃ m' d', (TableCall.remove base size rightId leftId mem).run m d = some (.success, m', d') ∧
      m'.Sound ∧ regionPts m'.regions = regionPts m.regions \ Set.Ico base (base + size) := by
  have h1 : r.base ≤ base := (hin ⟨le_refl _, by omega⟩).1
  have h2 : base + size ≤ r.stop := by
    have := (hin (⟨by omega, by omega⟩ : base + size - 1 ∈ Set.Ico base (base + size))).2
    omega
  obtain ⟨i, hi, hov, rfl⟩ := @findOverlap_inside _ h.spread _ hr _ _ 0 hn h1 h2
  obtain ⟨d', he⟩ := @removeRegion_eq _ d mem _ _ h.spread hn _ hi hov h1 h2
    (RemoveOutcome.ok rightId leftId)
  obtain ⟨hright, hleft⟩ := drop_apart h.spread hi h1 h2 rightId
  have hbound : m.regions[i].stop < 2 ^ 64 := h.spread.bound _ (List.getElem_mem hi)
  obtain ⟨hs1, hp1⟩ := h.drop hi
  have hs2 := hs1.addRest rightId h2 hbound hright
  have hs3 := hs2.addRest leftId h1 (by omega) fun q hq => (hleft q hq).2
  rw [removed_ok] at he
  refine ⟨_, d', he, hs3, ?_⟩
  rw [regionPts_addRest _ _ h1, regionPts_addRest _ _ h2, hp1]
  ext x
  simp only [Set.mem_union, Set.mem_sdiff, Set.mem_Ico, Region.mem_pts]
  have hmem : m.regions[i].base ≤ x → x < m.regions[i].stop → x ∈ regionPts m.regions :=
    fun ha hb => ⟨_, List.getElem_mem hi, ha, hb⟩
  constructor
  · intro hcase
    rcases hcase with (⟨hx, hout⟩ | hx) | hx
    · exact ⟨hx, fun hc => hout ⟨by omega, by omega⟩⟩
    · exact ⟨hmem (by omega) hx.2, by omega⟩
    · exact ⟨hmem hx.1 (by omega), by omega⟩
  · intro hboth
    obtain ⟨hx, hout⟩ := hboth
    by_cases hreg : m.regions[i].base ≤ x ∧ x < m.regions[i].stop
    · omega
    · exact Or.inl (Or.inl ⟨hx, hreg⟩)

/-- A removal that meets no region changes nothing. -/
theorem remove_notManaged (h : m.Sound) (hn : 0 < size)
    (hd : Disjoint (Set.Ico base (base + size)) (regionPts m.regions)) (rightId leftId : ℕ)
    (mem : ℕ → ℕ) :
    (TableCall.remove base size rightId leftId mem).run m d = some (.notManaged, m, d) := by
  have hno := (@findOverlap_none_iff _ h.spread.pos _ _ 0 hn).mpr hd
  simp only [TableCall.run, Manager.removeRegion, hno]

/-- **An admitted call on a sound table succeeds** and does to the table what it asks for. -/
theorem run_sound {s : Table} (h : s.mrm.Sound) {c : TableCall} (hc : s.Admits c) :
    ∃ res m' d', c.run s.mrm s.files = some (res, m', d') ∧ res ≠ .error ∧ m'.Sound ∧
      regionPts m'.regions = c.expect (regionPts s.mrm.regions) := by
  cases c with
  | replace base size fileId mem =>
      obtain ⟨hn, hb, hd⟩ := hc
      obtain ⟨m', d', he, hs, hp⟩ := replace_sound (d := s.files) h hn hb hd fileId mem
      exact ⟨_, m', d', he, nofun, hs, hp⟩
  | remove base size rightId leftId mem =>
      obtain ⟨hn, hb, ⟨r, hr, hin⟩ | hd⟩ := hc
      · obtain ⟨m', d', he, hs, hp⟩ := remove_sound (d := s.files) h hn hr hin rightId leftId mem
        exact ⟨_, m', d', he, nofun, hs, hp⟩
      · refine ⟨_, s.mrm, s.files, remove_notManaged h hn hd rightId leftId mem, nofun, h, ?_⟩
        exact (sdiff_eq_left.mpr hd.symm).symm

/-- **The region table is exact**, after every sequence of calls. -/
theorem regionTable_exact {d : Files} {s : Table}
    (h : Runs Table.Step Table.Admits (Table.start d) s) : s.Exact := by
  have hinv : s.mrm.Sound ∧ regionPts s.mrm.regions = s.expected := by
    refine Runs.invariant (I := fun s => s.mrm.Sound ∧ regionPts s.mrm.regions = s.expected) h
      ⟨Manager.Sound.new, ?_⟩ fun s c s' hs hc hstep => ?_
    · ext x
      simp [Table.start, Manager.new, mem_regionPts]
    · obtain ⟨res, hrun, hexp⟩ := hstep
      obtain ⟨res', m', d', he, -, hsound, hpts⟩ := run_sound hs.1 hc
      rw [hrun] at he
      cases he
      exact ⟨hsound, by rw [hpts, hexp, hs.2]⟩
  obtain ⟨hsound, hunion⟩ := hinv
  refine ⟨hsound.spread.pos, ?_, hunion, fun c hc => ?_, fun base size fileId hn _ =>
    findOverlap_none_iff hsound.spread.pos hn, fun p hp => hsound.doesManage hp⟩
  · refine hsound.spread.apart.imp_of_mem fun {a b} ha hb hab => ?_
    exact (Region.apart_iff_disjoint (hsound.spread.pos a ha) (hsound.spread.pos b hb)).mp hab
  · obtain ⟨res, m', d', he, hne, -⟩ := run_sound hsound hc
    exact ⟨res, m', d', he, hne⟩

/-- Fifty bytes are replaced, and ten in the middle of them removed. -/
theorem regionTable_exact_split : ∃ s : Table,
    s.mrm.regions = [⟨120, 30, 2⟩, ⟨100, 10, 3⟩] ∧
      s.expected = (∅ ∪ Set.Ico 100 (100 + 50)) \ Set.Ico 110 (110 + 10) ∧ s.Exact := by
  have h1 : Runs Table.Step Table.Admits (Table.start ⟨fun _ => false, fun _ _ => 0, fun _ _ => 0⟩)
      ⟨⟨[⟨100, 50, 1⟩], Ranges.empty.insert 100 50⟩, _, _⟩ :=
    Runs.start.step (TableCall.replace 100 50 1 fun _ => 0)
      (show _ ∧ _ ∧ _ from ⟨by decide, by decide, by simp [Table.start, Manager.new, regionPts]⟩)
      ⟨.success, rfl, rfl⟩
  have h2 : Runs Table.Step Table.Admits (Table.start ⟨fun _ => false, fun _ _ => 0, fun _ _ => 0⟩)
      ⟨⟨[⟨120, 30, 2⟩, ⟨100, 10, 3⟩], _⟩, _, _⟩ :=
    h1.step (TableCall.remove 110 10 2 3 fun _ => 0)
      (show _ ∧ _ ∧ _ from ⟨by decide, by decide,
        Or.inl ⟨⟨100, 50, 1⟩, by simp, Set.Ico_subset_Ico (by decide) (by decide)⟩⟩)
      ⟨.success, rfl, rfl⟩
  exact ⟨_, rfl, rfl, regionTable_exact h2⟩

end Runs

/-! ## 4. Removals that fail -/

/-- The outcome of a removal's system calls. An `mmap(MAP_FIXED)` that fails may have unmapped some of
    its interval all the same. -/
structure RemovalCalls where
  outcome : RemoveOutcome
  rightLost : ℕ → Prop
  leftLost : ℕ → Prop

/-- `replace_region` gets as far as its `mmap`, which fails. -/
def ReplaceOutcome.MmapFailed (o : ReplaceOutcome) : Prop := o.persisted = true ∧ o.mapped = false

/-- The right remainder is none, or it is replaced. -/
def RemovalCalls.RightOk (e : RemovalCalls) (r : Region) (base size : ℕ) : Prop :=
  r.stop = base + size ∨ e.outcome.right.Succeeds

/-- The left remainder is none, or it is replaced. -/
def RemovalCalls.LeftOk (e : RemovalCalls) (r : Region) (base : ℕ) : Prop :=
  base = r.base ∨ e.outcome.left.Succeeds

/-- The end of the page `a - 1` lies in. -/
def pageEnd (a : ℕ) : ℕ := (a + 4095) / 4096 * 4096

/-- **The addresses of the region that are still mapped** after `remove_region`. A `munmap` unmaps
    whole pages. -/
def stillMapped (r : Region) (base size : ℕ) (e : RemovalCalls) : Set ℕ :=
  {x | x ∈ r.pts ∧ ¬ (e.outcome.unmapped = true ∧
    (x ∈ Set.Ico base (pageEnd (base + size)) ∨
      (base + size ≤ x ∧ e.outcome.right.MmapFailed ∧ e.rightLost x) ∨
      (x < base ∧ e.RightOk r base size ∧ e.outcome.left.MmapFailed ∧ e.leftLost x)))}

/-- **A removal leaves the table truthful**: a failed `munmap` is not reported as a success and
    changes nothing, and what is still mapped is still in the table. -/
def TruthfulRemoval (m : Manager) (d : Files) (mem : ℕ → ℕ) (r : Region) (base size : ℕ)
    (e : RemovalCalls) : Prop :=
  ∃ res m' d', m.removeRegion d mem base size e.outcome = some (res, m', d') ∧
    (e.outcome.unmapped = false → res ≠ .success ∧ ∀ q, q ∈ m'.regions ↔ q ∈ m.regions) ∧
    stillMapped r base size e ⊆ regionPts m'.regions

/-- **When that is so**: `munmap` succeeds, and every remainder is replaced, or the first that is not
    was the last one and is not mapped any more: its failing `mmap` has unmapped it, or it lies in the
    last page of the `munmap`. -/
def RemovalCalls.Complete (e : RemovalCalls) (r : Region) (base size : ℕ) : Prop :=
  e.outcome.unmapped = true ∧
    ((e.RightOk r base size ∧ (e.LeftOk r base ∨
        (e.outcome.left.MmapFailed ∧ ∀ x, r.base ≤ x → x < base → e.leftLost x))) ∨
      (base = r.base ∧ ∀ x, base + size ≤ x → x < r.stop →
        x < pageEnd (base + size) ∨ (e.outcome.right.MmapFailed ∧ e.rightLost x)))

section Removal

variable {m : Manager} {base size : ℕ} {e : RemovalCalls}

/-- What of the region is in the table once `munmap` has succeeded. -/
theorem mem_removed (h : Spread m.regions) {i : ℕ} (hi : i < m.regions.length)
    (h1 : m.regions[i].base ≤ base) (h2 : base + size ≤ m.regions[i].stop)
    (hu : e.outcome.unmapped = true) {x : ℕ} (hx : x ∈ m.regions[i].pts) :
    x ∈ regionPts (m.removed i m.regions[i] base size e.outcome).2.regions ↔
      e.RightOk m.regions[i] base size ∧
        (base + size ≤ x ∨ (e.LeftOk m.regions[i] base ∧ x < base)) := by
  have hdrop : x ∉ regionPts (m.drop i).regions := by
    show x ∉ regionPts (swapRemove m.regions i)
    rw [(h.swapRemove hi).2.2]
    exact fun hc => hc.2 hx
  rw [Region.mem_pts] at hx
  unfold Manager.removed RemovalCalls.RightOk RemovalCalls.LeftOk
  simp only [hu, Bool.true_eq_false, if_false]
  by_cases hr : m.regions[i].stop = base + size ∨ e.outcome.right.Succeeds
  · rw [if_pos hr]
    by_cases hl : base = m.regions[i].base ∨ e.outcome.left.Succeeds
    · rw [if_pos hl, regionPts_addRest _ _ h1, regionPts_addRest _ _ h2]
      simp only [Set.mem_union, hdrop, false_or, Set.mem_Ico, hr, hl, true_and]
      omega
    · rw [if_neg hl, regionPts_addRest _ _ h2]
      simp only [Set.mem_union, hdrop, false_or, Set.mem_Ico, hr, hl, true_and, false_and, or_false]
      omega
  · rw [if_neg hr]
    simp only [hdrop, hr, false_and]

/-- The condition, for the addresses of the region one by one. -/
theorem complete_iff {r : Region} (hn : 0 < size) (h1 : r.base ≤ base) (h2 : base + size ≤ r.stop)
    (hu : e.outcome.unmapped = true) :
    e.Complete r base size ↔ ∀ x ∈ stillMapped r base size e,
      e.RightOk r base size ∧ (base + size ≤ x ∨ (e.LeftOk r base ∧ x < base)) := by
  have hend : base + size ≤ pageEnd (base + size) := by
    unfold pageEnd
    omega
  unfold RemovalCalls.Complete stillMapped
  simp only [hu, true_and, Set.mem_ofPred_eq, not_or, and_imp, Region.mem_pts, Set.mem_Ico, not_and]
  constructor
  · intro hcase x hx1 hx2 hout hright hleft
    rcases hcase with ⟨hr, hl | ⟨hf, hlost⟩⟩ | ⟨he, hlost⟩
    · by_cases hx : x < base
      · exact ⟨hr, Or.inr ⟨hl, hx⟩⟩
      · exact ⟨hr, Or.inl (by omega)⟩
    · by_cases hx : x < base
      · exact absurd (hlost x hx1 hx) (hleft hx hr hf)
      · exact ⟨hr, Or.inl (by omega)⟩
    · have hx : base + size ≤ x := by omega
      rcases hlost x hx hx2 with hlt | ⟨hf, hlost⟩
      · omega
      · exact absurd hlost (hright hx hf)
  · intro hall
    by_cases hr : e.RightOk r base size
    · refine Or.inl ⟨hr, ?_⟩
      by_cases hl : e.LeftOk r base
      · exact Or.inl hl
      · have hne : base ≠ r.base := fun he => hl (Or.inl he)
        -- an address below the interval is in the table no more
        have hleft : ∀ x, r.base ≤ x → x < base → e.outcome.left.MmapFailed ∧ e.leftLost x := by
          intro x hx1 hx2
          by_contra hno
          have hx := hall x hx1 (by omega) (by omega) (fun hx => by omega)
            fun _ _ hf hlost => hno ⟨hf, hlost⟩
          rcases hx.2 with hx | ⟨hl', -⟩
          · omega
          · exact hl hl'
        exact Or.inr ⟨(hleft r.base (le_refl _) (by omega)).1, fun x hx1 hx2 => (hleft x hx1 hx2).2⟩
    · refine Or.inr ⟨?_, fun x hx1 hx2 => ?_⟩
      · by_contra hbase
        exact hr (hall r.base (le_refl _) (by omega) (by omega) (fun hx => by omega)
          fun _ hr' => absurd hr' hr).1
      · by_contra hno
        rw [not_or, not_lt] at hno
        exact hr (hall x (by omega) hx2 (by omega) (fun _ hf hlost => hno.2 ⟨hf, hlost⟩)
          fun hx => by omega).1

/-- **A removal leaves the table truthful exactly when it is complete.** -/
theorem removal_truthful_iff {r : Region} (h : Spread m.regions) (hr : r ∈ m.regions) (hn : 0 < size)
    (h1 : r.base ≤ base) (h2 : base + size ≤ r.stop) (d : Files) (mem : ℕ → ℕ) (e : RemovalCalls) :
    TruthfulRemoval m d mem r base size e ↔ e.Complete r base size := by
  obtain ⟨i, hi, hov, rfl⟩ := @findOverlap_inside _ h _ hr _ _ 0 hn h1 h2
  obtain ⟨d', he⟩ := @removeRegion_eq _ d mem _ _ h hn _ hi hov h1 h2 e.outcome
  cases hu : e.outcome.unmapped with
  | false =>
      -- reported as a success
      refine ⟨fun ⟨res, m', d'', he', hfail, _⟩ => ?_, fun hc => ?_⟩
      · rw [he] at he'
        cases he'
        refine absurd ?_ (hfail hu).1
        simp only [Manager.removed, hu, if_true]
      · rw [RemovalCalls.Complete, hu] at hc
        exact absurd hc.1 nofun
  | true =>
      have hpts : TruthfulRemoval m d mem m.regions[i] base size e ↔
          stillMapped m.regions[i] base size e ⊆
            regionPts (m.removed i m.regions[i] base size e.outcome).2.regions := by
        constructor
        · intro hex
          obtain ⟨res, m', d'', he', -, hsub⟩ := hex
          rw [he] at he'
          cases he'
          exact hsub
        · exact fun hsub => ⟨_, _, d', he, fun hf => absurd (hu.symm.trans hf) nofun, hsub⟩
      rw [hpts, complete_iff hn h1 h2 hu]
      exact forall₂_congr fun x hx => mem_removed h hi h1 h2 hu hx.1

/-- One region of three pages. -/
theorem spread_three : Spread [⟨4096, 12288, 1⟩] where
  apart := List.pairwise_singleton _ _
  pos := by simp
  bound := by simp [Region.stop]

/-- The middle page is removed and both remainders are replaced. -/
theorem removal_truthful_middle :
    TruthfulRemoval ⟨[⟨4096, 12288, 1⟩], Ranges.empty⟩ ⟨fun _ => false, fun _ _ => 0, fun _ _ => 0⟩
      (fun _ => 0) ⟨4096, 12288, 1⟩ 8192 4096
      ⟨RemoveOutcome.ok 2 3, fun _ => False, fun _ => False⟩ :=
  (removal_truthful_iff spread_three (by simp) (by decide) (by decide) (by decide) _ _ _).mpr
    ⟨rfl, Or.inl ⟨Or.inr (ok_succeeds 2), Or.inl (Or.inr (ok_succeeds 3))⟩⟩

/-- **A failed `munmap` is reported as a success, and the region has left the table.** -/
theorem removal_untruthful :
    ¬ ∀ (m : Manager) (d : Files) (mem : ℕ → ℕ) (r : Region) (base size : ℕ) (e : RemovalCalls),
      Spread m.regions → r ∈ m.regions → 0 < size → r.base ≤ base → base + size ≤ r.stop →
      TruthfulRemoval m d mem r base size e := by
  intro H
  obtain ⟨res, m', d', he, hfail, -⟩ := H ⟨[⟨4096, 12288, 1⟩], Ranges.empty⟩
    ⟨fun _ => false, fun _ _ => 0, fun _ _ => 0⟩ (fun _ => 0) ⟨4096, 12288, 1⟩ 8192 4096
    ⟨⟨false, ReplaceOutcome.ok 2, ReplaceOutcome.ok 3⟩, fun _ => False, fun _ => False⟩
    spread_three (by simp) (by decide) (by decide) (by decide)
  cases he
  exact absurd rfl (hfail rfl).1

end Removal

end Persimmon
