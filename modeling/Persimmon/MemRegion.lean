/-
  File:      Persimmon/MemRegion.lean
  Subject:   `mem_region_manager`: the memory regions backed by files, and the region table
             (src/undo/mem_region/mem_region.cc, common.h).

  A region file is addressed here by where it is mapped: byte `base + k` stands for offset `k` of
  the file. What the processes see of a file and what of it is persistent are two functions.

  * `Region`, `Files`, `Manager`, `replaceRegion`, `removeRegion` -- the class, with the results of
    its system calls as arguments;
  * `Tables`, `persistNewRegionTable`, `commitNewRegionTable`, `clearNewRegionTable`, `recover` --
    the region table and its replacement;
  * `Tiled` -- the regions are non-empty, page-aligned and apart;
  * `removeRegion_tiled`, `mem_removeRegion` -- a removal keeps that, and removes an interval;
  * `recover_doesManage` -- a recovered manager manages the addresses of its table.
-/
import Mathlib.Data.List.Induction
import Mathlib.Data.List.Pairwise
import Mathlib.Data.List.Perm.Basic
import Persimmon.Ranges

namespace Persimmon

/-- `region` -/
structure Region where
  base : ℕ
  size : ℕ
  fileId : ℕ
  deriving DecidableEq, Repr

namespace Region

/-- `end()`. Pointers do not wrap. -/
def stop (r : Region) : ℕ := r.base + r.size

/-- `does_include(void *)` -/
def doesIncludeAddr (r : Region) (a : ℕ) : Bool := decide (r.base ≤ a) && decide (a < r.stop)

/-- `does_include(const region &)` -/
def doesInclude (r o : Region) : Bool := r.doesIncludeAddr o.base && r.doesIncludeAddr (o.stop - 1)

def doesOverlapWith (r o : Region) : Bool := r.doesIncludeAddr o.base || o.doesIncludeAddr r.base

/-- The addresses of a region. -/
def pts (r : Region) : Set ℕ := Set.Ico r.base r.stop

end Region

/-- `make_file_name`: a file name is `mem_`, the base and the file id. -/
abbrev FileName := ℕ × ℕ

def Region.fileName (r : Region) : FileName := (r.base, r.fileId)

/-- The region files: which exist, what the processes see of them and what of them is persistent. -/
structure Files where
  made : FileName → Bool
  cache : FileName → ℕ → ℕ
  pm : FileName → ℕ → ℕ

/-- A file written and fsynced with the contents of `mem`. -/
def Files.create (d : Files) (n : FileName) (mem : ℕ → ℕ) : Files where
  made m := if m = n then true else d.made m
  cache m := if m = n then mem else d.cache m
  pm m := if m = n then mem else d.pm m

/-- `mem_region_manager`: `regions` and `rs`. -/
structure Manager where
  regions : List Region
  rs : Ranges
  deriving DecidableEq, Repr

inductive Result where
  | success
  | notManaged
  | error
  deriving DecidableEq, Repr

/-- What the system calls of `replace_region` do: the random file id, and whether
    `persist_region`, `mmap` and `close` succeed. -/
structure ReplaceOutcome where
  fileId : ℕ
  persisted : Bool
  mapped : Bool
  closed : Bool
  deriving DecidableEq, Repr

def ReplaceOutcome.ok (fileId : ℕ) : ReplaceOutcome := ⟨fileId, true, true, true⟩

/-- What the system calls of `remove_region` do: `munmap`, and the two calls of
    `replace_region`. -/
structure RemoveOutcome where
  unmapped : Bool
  right : ReplaceOutcome
  left : ReplaceOutcome
  deriving DecidableEq, Repr

def RemoveOutcome.ok (rightId leftId : ℕ) : RemoveOutcome :=
  ⟨true, ReplaceOutcome.ok rightId, ReplaceOutcome.ok leftId⟩

/-- `find_overlap` -/
def findOverlap (regions : List Region) (o : Region) : Option ℕ :=
  regions.findIdx? fun r => r.doesOverlapWith o

/-- `regions.array[i] = regions.array[--regions.entries]` -/
def swapRemove (regions : List Region) (i : ℕ) : List Region :=
  match regions.getLast? with
  | none => []
  | some last => (regions.set i last).dropLast

namespace Manager

/-- `does_manage` -/
def doesManage (m : Manager) (a : ℕ) : Bool := m.rs.findPoint a

/-- **`replace_region`**, called on memory with contents `mem`. No result when its assertion fails.
    Nothing refers to the file a failed `persist_region` leaves. -/
def replaceRegion (m : Manager) (d : Files) (mem : ℕ → ℕ) (base size : ℕ) (o : ReplaceOutcome) :
    Option (Result × Manager × Files) :=
  let r : Region := ⟨base, size, o.fileId⟩
  if (findOverlap m.regions r).isSome then none
  else if o.persisted = false then some (.error, m, d)
  else
    let d' := d.create r.fileName mem
    if o.mapped = false then some (.error, m, d')
    else if o.closed = false then some (.error, m, d')
    else some (.success, ⟨m.regions ++ [r], m.rs.insert base size⟩, d')

/-- A remainder of `remove_region` gets a file of its own. -/
def replaceRest (m : Manager) (d : Files) (mem : ℕ → ℕ) (base stop : ℕ) (o : ReplaceOutcome) :
    Option (Result × Manager × Files) :=
  if stop ≠ base then m.replaceRegion d mem base (stop - base) o else some (.success, m, d)

/-- **`remove_region`**. No result when an assertion fails. -/
def removeRegion (m : Manager) (d : Files) (mem : ℕ → ℕ) (base size : ℕ) (o : RemoveOutcome) :
    Option (Result × Manager × Files) :=
  let removeR : Region := ⟨base, size, 0⟩
  match findOverlap m.regions removeR with
  | none => some (.notManaged, m, d)
  | some i =>
      match m.regions[i]? with
      | none => none
      | some r =>
          if r.doesInclude removeR = false then none
          else
            let m1 : Manager := ⟨swapRemove m.regions i, m.rs⟩
            if o.unmapped = false then some (.success, m1, d)
            else
              match m1.replaceRest d mem removeR.stop r.stop o.right with
              | none => none
              | some (.error, m2, d2) => some (.error, m2, d2)
              | some (_, m2, d2) =>
                  match m2.replaceRest d2 mem r.base removeR.base o.left with
                  | none => none
                  | some (.error, m3, d3) => some (.error, m3, d3)
                  | some (_, m3, d3) => some (.success, m3, d3)

/-- The region an address lies in. -/
def regionAt (m : Manager) (x : ℕ) : Option Region := m.regions.find? fun r => r.doesIncludeAddr x

end Manager

/-! ## 1. The region table -/

/-- `table.dat`, and `new_table.dat` when it exists. -/
structure Tables where
  table : List Region
  newTable : Option (List Region)
  deriving DecidableEq, Repr

/-- **`persist_new_region_table`**. The file is opened without `O_TRUNC`: records of an older, longer
    `new_table.dat` stay behind the new ones. -/
def persistNewRegionTable (m : Manager) (t : Tables) : Tables :=
  { t with newTable := some (m.regions ++ (t.newTable.getD []).drop m.regions.length) }

/-- **`commit_new_region_table`**: `renamed` and `synced` are the results of `renameat` (on a file
    that exists) and of the `fsync` of the directory. -/
def commitNewRegionTable (renamed synced : Bool) (t : Tables) : Result × Tables :=
  match t.newTable with
  | none => (.success, t)
  | some n =>
      if renamed = false then (.error, t)
      else if synced = false then (.error, ⟨n, none⟩)
      else (.success, ⟨n, none⟩)

/-- **`clear_new_region_table`**: the same for `unlinkat`. -/
def clearNewRegionTable (unlinked synced : Bool) (t : Tables) : Result × Tables :=
  match t.newTable with
  | none => (.success, t)
  | some _ =>
      if unlinked = false then (.error, t)
      else if synced = false then (.error, { t with newTable := none })
      else (.success, { t with newTable := none })

/-- **`recover`**: the regions of `table.dat` are appended; no result when a region file is
    missing. -/
def Manager.recover (m : Manager) (d : Files) (t : Tables) : Option Manager :=
  if t.table.all fun r => d.made r.fileName then
    some ⟨m.regions ++ t.table, t.table.foldl (fun rs r => rs.insert r.base r.size) m.rs⟩
  else none

/-- The manager of a process that has just started. -/
def Manager.new : Manager := ⟨[], Ranges.empty⟩

/-! ## 2. Regions that lie apart -/

/-- The addresses of a list of regions. -/
def regionPts (regions : List Region) : Set ℕ := {x | ∃ r ∈ regions, x ∈ r.pts}

/-- One region ends before the other begins. -/
def Region.Apart (a b : Region) : Prop := a.stop ≤ b.base ∨ b.stop ≤ a.base

/-- **The regions of a manager**: non-empty, page-aligned, in user space, and apart. -/
structure Tiled (regions : List Region) : Prop where
  apart : regions.Pairwise Region.Apart
  pos : ∀ r ∈ regions, 0 < r.base ∧ 0 < r.size
  aligned : ∀ r ∈ regions, r.base % 4096 = 0
  user : ∀ r ∈ regions, r.stop ≤ 2 ^ 47

namespace Region

theorem mem_pts {r : Region} {x : ℕ} : x ∈ r.pts ↔ r.base ≤ x ∧ x < r.stop := Iff.rfl

theorem doesIncludeAddr_iff {r : Region} {x : ℕ} : r.doesIncludeAddr x = true ↔ x ∈ r.pts := by
  simp [doesIncludeAddr, mem_pts]

theorem Apart.symm {a b : Region} (h : a.Apart b) : b.Apart a := Or.symm h

instance : Std.Symm Apart := ⟨fun _ _ h => h.symm⟩

/-- Two regions that do not overlap lie apart. -/
theorem apart_of_not_overlap {a b : Region} (h : a.doesOverlapWith b = false) : a.Apart b := by
  simp only [doesOverlapWith, Bool.or_eq_false_iff, doesIncludeAddr, Bool.and_eq_false_iff,
    decide_eq_false_iff_not] at h
  unfold Apart stop at *
  omega

theorem doesInclude_iff {r o : Region} (ho : 0 < o.size) :
    r.doesInclude o = true ↔ r.base ≤ o.base ∧ o.stop ≤ r.stop := by
  simp only [doesInclude, Bool.and_eq_true, doesIncludeAddr_iff, mem_pts]
  unfold stop
  omega

end Region

theorem mem_regionPts {regions : List Region} {x : ℕ} :
    x ∈ regionPts regions ↔ ∃ r ∈ regions, x ∈ r.pts := Iff.rfl

instance (regions : List Region) (x : ℕ) : Decidable (x ∈ regionPts regions) :=
  decidable_of_iff (∃ r ∈ regions, r.doesIncludeAddr x = true)
    (by simp only [Region.doesIncludeAddr_iff, mem_regionPts])

theorem regionPts_append {l₁ l₂ : List Region} :
    regionPts (l₁ ++ l₂) = regionPts l₁ ∪ regionPts l₂ := by
  ext x
  simp only [mem_regionPts, List.mem_append, Set.mem_union, or_and_right, exists_or]

theorem regionPts_snoc (regions : List Region) (base size fileId : ℕ) :
    regionPts (regions ++ [⟨base, size, fileId⟩]) = regionPts regions ∪ Set.Ico base (base + size) := by
  rw [regionPts_append]
  congr 1
  ext x
  simp only [mem_regionPts, List.mem_singleton, exists_eq_left]
  rfl

theorem regionPts_perm {l₁ l₂ : List Region} (h : l₁.Perm l₂) : regionPts l₁ = regionPts l₂ := by
  ext x
  simp only [mem_regionPts, h.mem_iff]

namespace Tiled

variable {regions : List Region}

theorem nil : Tiled [] := ⟨.nil, by simp, by simp, by simp⟩

theorem stop_lt (h : Tiled regions) {r : Region} (hr : r ∈ regions) : r.stop < 2 ^ 64 :=
  Nat.lt_of_le_of_lt (h.user r hr) (by decide)

theorem perm {l : List Region} (h : Tiled regions) (hp : regions.Perm l) : Tiled l where
  apart := (hp.pairwise_iff fun h => Region.Apart.symm h).mp h.apart
  pos r hr := h.pos r (hp.mem_iff.mpr hr)
  aligned r hr := h.aligned r (hp.mem_iff.mpr hr)
  user r hr := h.user r (hp.mem_iff.mpr hr)

theorem sublist {l : List Region} (h : Tiled regions) (hl : l.Sublist regions) : Tiled l where
  apart := h.apart.sublist hl
  pos r hr := h.pos r (hl.subset hr)
  aligned r hr := h.aligned r (hl.subset hr)
  user r hr := h.user r (hl.subset hr)

theorem snoc {r : Region} (h : Tiled regions) (hr : ∀ q ∈ regions, q.Apart r)
    (hpos : 0 < r.base ∧ 0 < r.size) (hal : r.base % 4096 = 0) (hu : r.stop ≤ 2 ^ 47) :
    Tiled (regions ++ [r]) where
  apart := List.pairwise_append.mpr
    ⟨h.apart, List.pairwise_singleton _ _, fun a ha b hb => List.mem_singleton.mp hb ▸ hr a ha⟩
  pos q hq := by
    rcases List.mem_append.mp hq with hq | hq
    · exact h.pos q hq
    · exact List.mem_singleton.mp hq ▸ hpos
  aligned q hq := by
    rcases List.mem_append.mp hq with hq | hq
    · exact h.aligned q hq
    · exact List.mem_singleton.mp hq ▸ hal
  user q hq := by
    rcases List.mem_append.mp hq with hq | hq
    · exact h.user q hq
    · exact List.mem_singleton.mp hq ▸ hu

/-- Two regions that share a page are one region: bases are page-aligned. -/
theorem eq_of_page {r q : Region} {x y : ℕ} (h : Tiled regions) (hr : r ∈ regions)
    (hq : q ∈ regions) (hx : x ∈ r.pts) (hy : y ∈ q.pts) (hxy : x / 4096 = y / 4096) : r = q := by
  by_contra hne
  have hap : r.Apart q := h.apart.forall hr hq hne
  have har := h.aligned r hr
  have haq := h.aligned q hq
  rw [Region.mem_pts] at hx hy
  unfold Region.Apart at hap
  omega

theorem eq_of_mem {r q : Region} {x : ℕ} (h : Tiled regions) (hr : r ∈ regions) (hq : q ∈ regions)
    (hx : x ∈ r.pts) (hy : x ∈ q.pts) : r = q :=
  h.eq_of_page hr hq hx hy rfl

end Tiled

/-! ## 3. Replacing and removing -/

theorem findOverlap_none {regions : List Region} {o : Region} :
    findOverlap regions o = none ↔ ∀ r ∈ regions, r.doesOverlapWith o = false := by
  simp [findOverlap, List.findIdx?_eq_none_iff]

theorem findOverlap_some {regions : List Region} {o : Region} {i : ℕ}
    (h : findOverlap regions o = some i) :
    ∃ hi : i < regions.length, regions[i].doesOverlapWith o = true := by
  obtain ⟨hi, hp, -⟩ := List.findIdx?_eq_some_iff_getElem.mp h
  exact ⟨hi, hp⟩

/-- The vector without the region at `i`, in another order. -/
theorem swapRemove_perm {regions : List Region} {i : ℕ} (hi : i < regions.length) :
    (swapRemove regions i).Perm (regions.eraseIdx i) := by
  induction regions using List.reverseRecOn with
  | nil => exact absurd hi (Nat.not_lt_zero i)
  | append_singleton l x _ =>
      simp only [swapRemove, List.getLast?_concat]
      rw [List.length_append, List.length_singleton] at hi
      rcases Nat.lt_succ_iff_lt_or_eq.mp hi with hlt | rfl
      · rw [List.set_append_left _ _ hlt, List.dropLast_concat, List.eraseIdx_append_of_lt_length hlt]
        exact (List.set_perm_cons_eraseIdx hlt x).trans (List.perm_append_singleton _ _).symm
      · rw [List.set_append_right _ _ (le_refl _), List.eraseIdx_append_of_length_le (le_refl _)]
        simp

theorem replaceRegion_success {m m' : Manager} {d d' : Files} {mem : ℕ → ℕ} {base size : ℕ}
    {o : ReplaceOutcome} (h : m.replaceRegion d mem base size o = some (.success, m', d')) :
    (∀ r ∈ m.regions, r.Apart ⟨base, size, o.fileId⟩) ∧
      m' = ⟨m.regions ++ [⟨base, size, o.fileId⟩], m.rs.insert base size⟩ ∧
      d' = d.create (base, o.fileId) mem := by
  unfold Manager.replaceRegion at h
  simp only at h
  split at h
  · cases h
  rename_i hover
  split at h
  · cases h
  split at h
  · cases h
  split at h
  · cases h
  cases h
  rw [Bool.not_eq_true, Option.isSome_eq_false_iff, Option.isNone_iff_eq_none,
    findOverlap_none] at hover
  exact ⟨fun r hr => Region.apart_of_not_overlap (hover r hr), rfl, rfl⟩

/-- The remainder from `base` to `stop`, when there is one. -/
def restOf (base stop fileId : ℕ) : List Region :=
  if stop ≠ base then [⟨base, stop - base, fileId⟩] else []

/-- The files a list of regions is created in. -/
def Files.createAll (d : Files) (rs : List Region) (mem : ℕ → ℕ) : Files :=
  rs.foldl (fun d r => d.create r.fileName mem) d

theorem replaceRest_success {m m' : Manager} {d d' : Files} {mem : ℕ → ℕ} {base stop : ℕ}
    {o : ReplaceOutcome} {res : Result} (hres : res ≠ .error)
    (h : m.replaceRest d mem base stop o = some (res, m', d')) :
    (∀ q ∈ restOf base stop o.fileId, ∀ r ∈ m.regions, r.Apart q) ∧
      m'.regions = m.regions ++ restOf base stop o.fileId ∧
      d' = d.createAll (restOf base stop o.fileId) mem := by
  unfold Manager.replaceRest at h
  unfold restOf
  split at h
  · rename_i hne
    have hsucc : res = .success := by
      unfold Manager.replaceRegion at h
      simp only at h
      split_ifs at h <;> cases h <;> first | rfl | exact absurd rfl hres
    subst hsucc
    obtain ⟨h1, h2, h3⟩ := replaceRegion_success h
    rw [if_pos hne]
    refine ⟨fun q hq => ?_, ?_, ?_⟩
    · rw [List.mem_singleton.mp hq]
      exact h1
    · rw [h2]
    · rw [h3]
      rfl
  · rename_i hne
    cases h
    rw [if_neg hne]
    exact ⟨by simp, by simp, rfl⟩

/-- The remainders of a region that `[base, base + size)` is removed from. -/
def rests (r : Region) (base size : ℕ) (o : RemoveOutcome) : List Region :=
  restOf (base + size) r.stop o.right.fileId ++ restOf r.base base o.left.fileId

/-- **What a successful removal does**: it takes one region out and appends its remainders, each
    with a file of its own. -/
theorem removeRegion_success {m m' : Manager} {d d' : Files} {mem : ℕ → ℕ} {base size : ℕ}
    {o : RemoveOutcome} (hn : 0 < size) (hu : o.unmapped = true)
    (h : m.removeRegion d mem base size o = some (.success, m', d')) :
    ∃ i, ∃ hi : i < m.regions.length, findOverlap m.regions ⟨base, size, 0⟩ = some i ∧
      m.regions[i].base ≤ base ∧ base + size ≤ m.regions[i].stop ∧
      m'.regions = swapRemove m.regions i ++ rests m.regions[i] base size o ∧
      d' = d.createAll (rests m.regions[i] base size o) mem := by
  unfold Manager.removeRegion at h
  simp only at h
  split at h
  · cases h
  rename_i i hov
  obtain ⟨hi, -⟩ := findOverlap_some hov
  rw [List.getElem?_eq_getElem hi] at h
  simp only [hu, Bool.true_eq_false, if_false] at h
  split at h
  · cases h
  rename_i hinc
  rw [Bool.not_eq_false, Region.doesInclude_iff hn] at hinc
  refine ⟨i, hi, hov, hinc.1, hinc.2, ?_⟩
  split at h
  · cases h
  · cases h
  rename_i res2 m2 d2 hne2 h2
  split at h
  · cases h
  · cases h
  rename_i res3 m3 d3 hne3 h3
  cases h
  obtain ⟨-, hr2, hd2⟩ := replaceRest_success (fun e => hne2 e) h2
  obtain ⟨-, hr3, hd3⟩ := replaceRest_success (fun e => hne3 e) h3
  refine ⟨?_, ?_⟩
  · rw [hr3, hr2, rests, List.append_assoc]
    rfl
  · rw [hd3, hd2, rests, Files.createAll, Files.createAll, Files.createAll, List.foldl_append]
    rfl

theorem removeRegion_notManaged {m m' : Manager} {d d' : Files} {mem : ℕ → ℕ} {base size : ℕ}
    {o : RemoveOutcome} (h : m.removeRegion d mem base size o = some (.notManaged, m', d')) :
    findOverlap m.regions ⟨base, size, 0⟩ = none ∧ m' = m ∧ d' = d := by
  unfold Manager.removeRegion at h
  simp only at h
  split at h
  · rename_i hov
    cases h
    exact ⟨hov, rfl, rfl⟩
  · split at h
    · cases h
    split at h
    · cases h
    split at h
    · cases h
    split at h
    · cases h
    · cases h
    split at h <;> cases h

/-! ## 4. What a removal keeps -/

theorem Tiled.refine {r : Region} {l qs : List Region} (h : Tiled (r :: l)) (hq : Tiled qs)
    (hsub : ∀ q ∈ qs, r.base ≤ q.base ∧ q.stop ≤ r.stop) : Tiled (l ++ qs) where
  apart := List.pairwise_append.mpr ⟨(List.pairwise_cons.mp h.apart).2, hq.apart, fun a ha q hq => by
    have hra : r.Apart a := (List.pairwise_cons.mp h.apart).1 a ha
    have hrq := hsub q hq
    unfold Region.Apart at hra ⊢
    omega⟩
  pos q hq' := by
    rcases List.mem_append.mp hq' with hl | hl
    · exact h.pos q (List.mem_cons_of_mem _ hl)
    · exact hq.pos q hl
  aligned q hq' := by
    rcases List.mem_append.mp hq' with hl | hl
    · exact h.aligned q (List.mem_cons_of_mem _ hl)
    · exact hq.aligned q hl
  user q hq' := by
    rcases List.mem_append.mp hq' with hl | hl
    · exact h.user q (List.mem_cons_of_mem _ hl)
    · exact hq.user q hl

theorem mem_restOf {base stop fileId : ℕ} {q : Region} :
    q ∈ restOf base stop fileId ↔ stop ≠ base ∧ q = ⟨base, stop - base, fileId⟩ := by
  simp [restOf]

theorem mem_regionPts_restOf {base stop fileId x : ℕ} (h : base ≤ stop) :
    x ∈ regionPts (restOf base stop fileId) ↔ base ≤ x ∧ x < stop := by
  simp only [mem_regionPts, mem_restOf, Region.mem_pts, Region.stop]
  constructor
  · intro hex
    obtain ⟨q, ⟨-, rfl⟩, h1, h2⟩ := hex
    exact ⟨h1, by simp only at h2; omega⟩
  · intro hboth
    obtain ⟨h1, h2⟩ := hboth
    exact ⟨_, ⟨by omega, rfl⟩, h1, by simp only; omega⟩

section Rests

variable {r : Region} {base size : ℕ} {o : RemoveOutcome}

theorem mem_regionPts_rests (h1 : r.base ≤ base) (h2 : base + size ≤ r.stop) {x : ℕ} :
    x ∈ regionPts (rests r base size o) ↔ x ∈ r.pts ∧ x ∉ Set.Ico base (base + size) := by
  rw [rests, regionPts_append, Set.mem_union, mem_regionPts_restOf h2, mem_regionPts_restOf h1,
    Region.mem_pts, Set.mem_Ico]
  omega

/-- The remainders lie inside the region, on either side of the interval. -/
theorem rests_inside (h1 : r.base ≤ base) (h2 : base + size ≤ r.stop) {q : Region}
    (hq : q ∈ rests r base size o) :
    r.base ≤ q.base ∧ q.stop ≤ r.stop ∧ 0 < q.size ∧
      ((q.base = base + size ∧ q.base ≠ r.stop) ∨ (q.base = r.base ∧ q.stop ≤ base)) := by
  rw [rests, List.mem_append, mem_restOf, mem_restOf] at hq
  unfold Region.stop at *
  rcases hq with ⟨hne, rfl⟩ | ⟨hne, rfl⟩ <;> simp only [true_and] <;> omega

theorem rests_tiled (h : Tiled [r]) (h1 : r.base ≤ base) (h2 : base + size ≤ r.stop)
    (hal : base + size ≠ r.stop → (base + size) % 4096 = 0) : Tiled (rests r base size o) where
  apart := by
    refine List.pairwise_append.mpr ⟨?_, ?_, fun a ha b hb => ?_⟩
    · unfold restOf
      split_ifs <;> simp
    · unfold restOf
      split_ifs <;> simp
    · obtain ⟨hne, rfl⟩ := mem_restOf.mp ha
      obtain ⟨hne', rfl⟩ := mem_restOf.mp hb
      unfold Region.Apart Region.stop
      simp only
      omega
  pos q hq := by
    obtain ⟨hb, -, hs, -⟩ := rests_inside h1 h2 hq
    exact ⟨lt_of_lt_of_le (h.pos r (by simp)).1 hb, hs⟩
  aligned q hq := by
    obtain ⟨-, -, -, ⟨hb, hne⟩ | ⟨hb, -⟩⟩ := rests_inside h1 h2 hq
    · rw [hb]
      exact hal (hb ▸ hne)
    · rw [hb]
      exact h.aligned r (by simp)
  user q hq := le_trans (rests_inside h1 h2 hq).2.1 (h.user r (by simp))

end Rests

section Remove

variable {m m' : Manager} {d d' : Files} {mem : ℕ → ℕ} {base size : ℕ} {o : RemoveOutcome}

/-- **A successful removal leaves the regions apart**, when the right remainder is page-aligned. -/
theorem removeRegion_tiled (ht : Tiled m.regions) (hn : 0 < size) (hu : o.unmapped = true)
    (hal : ∀ r ∈ m.regions, r.doesInclude ⟨base, size, 0⟩ = true → base + size ≠ r.stop →
      (base + size) % 4096 = 0)
    (h : m.removeRegion d mem base size o = some (.success, m', d')) : Tiled m'.regions := by
  obtain ⟨i, hi, -, h1, h2, hreg, -⟩ := removeRegion_success hn hu h
  have hcons : Tiled (m.regions[i] :: m.regions.eraseIdx i) :=
    ht.perm (List.getElem_cons_eraseIdx_perm hi).symm
  have hcons' : Tiled (m.regions[i] :: swapRemove m.regions i) :=
    hcons.perm ((swapRemove_perm hi).symm.cons _)
  have hmem : m.regions[i] ∈ m.regions := List.getElem_mem hi
  have hone : Tiled [m.regions[i]] := hcons.sublist (by simp)
  rw [hreg]
  refine hcons'.refine (rests_tiled hone h1 h2 fun hne => ?_) fun q hq => ?_
  · exact hal _ hmem ((Region.doesInclude_iff hn).mpr ⟨h1, h2⟩) hne
  · have hin := rests_inside h1 h2 hq
    exact ⟨hin.1, hin.2.1⟩

/-- **A successful removal takes the interval out of the managed addresses**, and nothing else. -/
theorem mem_removeRegion (ht : Tiled m.regions) (hn : 0 < size) (hu : o.unmapped = true)
    (h : m.removeRegion d mem base size o = some (.success, m', d')) {x : ℕ} :
    x ∈ regionPts m'.regions ↔ x ∈ regionPts m.regions ∧ x ∉ Set.Ico base (base + size) := by
  obtain ⟨i, hi, -, h1, h2, hreg, -⟩ := removeRegion_success hn hu h
  have hperm := List.getElem_cons_eraseIdx_perm hi
  have hcons : Tiled (m.regions[i] :: m.regions.eraseIdx i) := ht.perm hperm.symm
  rw [hreg, regionPts_append, Set.mem_union, regionPts_perm (swapRemove_perm hi),
    mem_regionPts_rests h1 h2, ← regionPts_perm hperm]
  have hcover : x ∈ regionPts (m.regions[i] :: m.regions.eraseIdx i) ↔
      x ∈ m.regions[i].pts ∨ x ∈ regionPts (m.regions.eraseIdx i) := by
    simp only [mem_regionPts, List.mem_cons, exists_eq_or_imp]
  rw [hcover]
  constructor
  · intro hcase
    rcases hcase with hx | ⟨hx, hout⟩
    · refine ⟨Or.inr hx, fun hin => ?_⟩
      obtain ⟨q, hq, hxq⟩ := hx
      have hap : m.regions[i].Apart q := (List.pairwise_cons.mp hcons.apart).1 q hq
      rw [Region.mem_pts] at hxq
      rw [Set.mem_Ico] at hin
      unfold Region.Apart at hap
      omega
    · exact ⟨Or.inl hx, hout⟩
  · intro hcase
    rcases hcase with ⟨hx | hx, hout⟩
    · exact Or.inr ⟨hx, hout⟩
    · exact Or.inl hx

end Remove

/-! ## 5. Recovery of the regions -/

theorem foldl_insert {table : List Region} (ht : ∀ r ∈ table, r.stop < 2 ^ 64) {rs : Ranges}
    (h : rs.Wf) :
    (table.foldl (fun rs r => rs.insert r.base r.size) rs).Wf ∧
      (table.foldl (fun rs r => rs.insert r.base r.size) rs).pts = rs.pts ∪ regionPts table := by
  induction table generalizing rs with
  | nil => exact ⟨h, by ext x; simp [mem_regionPts]⟩
  | cons r table ih =>
      have hr : r.base + r.size < 2 ^ 64 := ht r List.mem_cons_self
      obtain ⟨h1, h2⟩ := ih (fun q hq => ht q (List.mem_cons_of_mem _ hq))
        (Ranges.wf_insert h hr)
      refine ⟨h1, ?_⟩
      rw [List.foldl_cons, h2, Ranges.pts_insert h hr, Set.union_assoc]
      congr 1
      ext x
      simp only [Set.mem_union, mem_regionPts, List.mem_cons, exists_eq_or_imp]
      rfl

/-- **A recovered manager manages the addresses of its table.** -/
theorem recover_doesManage {d : Files} {t : Tables} {m : Manager}
    (ht : ∀ r ∈ t.table, r.stop < 2 ^ 64) (h : Manager.new.recover d t = some m) {x : ℕ}
    (hx : x < 2 ^ 64) : m.doesManage x = true ↔ x ∈ regionPts t.table := by
  unfold Manager.recover at h
  split at h
  · cases h
    have hpts := (foldl_insert ht Ranges.wf_empty).2
    rw [Manager.doesManage, Ranges.findPoint_iff hx]
    simp only [Manager.new, hpts, Ranges.pts_empty, Set.empty_union]
  · cases h

end Persimmon
