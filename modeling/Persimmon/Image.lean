/-
  File:      Persimmon/Image.lean
  Subject:   THE IMAGE OF A PROCESS: which regions it has, and what their bytes are, with no word of
             files, caches, logs or fresh sets.

  An image is what a callback sees and what a checkpoint has to bring back. The operations of an
  epoch act on images as functions; the epoch with its files is a refinement of that.

  * `Image`, `Image.apply` -- the abstract process; `imageOf` -- the image of regions and the
    contents of their files;
  * `regionAt_iff` -- the region of an address, when regions lie apart;
  * `munmap_regions` -- what an `munmap` does to the regions and to the files;
  * `image_apply` -- an operation of an epoch is the operation on its image.
-/
import Persimmon.EpochSafety

namespace Persimmon

/-- **A process as its callback sees it**: regions, and the bytes of managed addresses. -/
structure Image where
  regions : List Region
  mem : ℕ → Option ℕ

theorem Image.ext_some {I J : Image} (hr : I.regions = J.regions)
    (hm : ∀ x v, I.mem x = some v ↔ J.mem x = some v) : I = J := by
  obtain ⟨regions, mem⟩ := I
  obtain rfl : regions = J.regions := hr
  obtain rfl : mem = J.mem := funext fun x => Option.ext (hm x)
  rfl

/-- The image of regions whose files have the contents `content`. -/
def imageOf (regions : List Region) (content : FileName → ℕ → ℕ) : Image where
  regions := regions
  mem x := (regions.find? fun r => r.doesIncludeAddr x).map fun r => content r.fileName x

/-- The regions after an `munmap`. -/
def removeRegions (regions : List Region) (addr size rightId leftId : ℕ) : List Region :=
  match findOverlap regions ⟨addr, size, 0⟩ with
  | none => regions
  | some i =>
      match regions[i]? with
      | none => regions
      | some r => swapRemove regions i ++ rests r addr size (RemoveOutcome.ok rightId leftId)

/-- **An operation on an image.** -/
def Image.apply (I : Image) : Op → Image
  | .store addr bytes =>
      { I with mem := fun x =>
          (I.mem x).map fun b => if inStore addr bytes x then bytes.getD (x - addr) 0 else b }
  | .mmap ret size fileId =>
      ⟨I.regions ++ [⟨ret, size, fileId⟩], fun x =>
        if ret ≤ x ∧ x < ret + size then some 0 else I.mem x⟩
  | .munmap addr size rightId leftId =>
      ⟨removeRegions I.regions addr size rightId leftId, fun x =>
        if addr ≤ x ∧ x < addr + size then none else I.mem x⟩

theorem removeRegions_some {regions : List Region} {addr size rightId leftId i : ℕ}
    (hi : i < regions.length) (h : findOverlap regions ⟨addr, size, 0⟩ = some i) :
    removeRegions regions addr size rightId leftId =
      swapRemove regions i ++ rests regions[i] addr size (RemoveOutcome.ok rightId leftId) := by
  rw [removeRegions, h]
  simp only [List.getElem?_eq_getElem hi]

/-- What the callback sees in an epoch. -/
def Epoch.image (e : Epoch) : Image := imageOf e.mrm.regions e.files.cache

/-! ## 1. The region of an address -/

section RegionAt

variable {regions : List Region} {content : FileName → ℕ → ℕ} {r : Region} {x v : ℕ}

theorem find_include_iff (ht : Tiled regions) :
    regions.find? (fun r => r.doesIncludeAddr x) = some r ↔ r ∈ regions ∧ x ∈ r.pts := by
  constructor
  · intro h
    have hx := List.find?_some h
    exact ⟨List.mem_of_find?_eq_some h, Region.doesIncludeAddr_iff.mp hx⟩
  · intro ⟨hr, hx⟩
    have hsome : (regions.find? fun r => r.doesIncludeAddr x).isSome = true :=
      List.find?_isSome.mpr ⟨r, hr, Region.doesIncludeAddr_iff.mpr hx⟩
    obtain ⟨q, hq⟩ := Option.isSome_iff_exists.mp hsome
    have hqx := List.find?_some hq
    rw [hq, ht.eq_of_mem (List.mem_of_find?_eq_some hq) hr (Region.doesIncludeAddr_iff.mp hqx) hx]

/-- **The region of an address**, when regions lie apart. -/
theorem regionAt_iff {m : Manager} (ht : Tiled m.regions) :
    m.regionAt x = some r ↔ r ∈ m.regions ∧ x ∈ r.pts := find_include_iff ht

/-- A byte of an image is a byte of the file of a region. -/
theorem imageOf_mem (ht : Tiled regions) :
    (imageOf regions content).mem x = some v ↔
      ∃ r ∈ regions, x ∈ r.pts ∧ content r.fileName x = v := by
  simp only [imageOf, Option.map_eq_some_iff, find_include_iff ht, and_assoc]

theorem imageOf_mem_of (ht : Tiled regions) (hr : r ∈ regions) (hx : x ∈ r.pts) :
    (imageOf regions content).mem x = some (content r.fileName x) :=
  (imageOf_mem ht).mpr ⟨r, hr, hx, rfl⟩

/-- Files that agree on the regions have the same image. -/
theorem imageOf_congr {content' : FileName → ℕ → ℕ} (ht : Tiled regions)
    (h : ∀ r ∈ regions, ∀ x ∈ r.pts, content r.fileName x = content' r.fileName x) :
    imageOf regions content = imageOf regions content' := by
  unfold imageOf
  congr 1
  funext x
  refine Option.ext fun v => ?_
  simp only [Option.map_eq_some_iff, find_include_iff ht]
  constructor <;>
  · intro ⟨r, ⟨hr, hx⟩, hv⟩
    refine ⟨r, ⟨hr, hx⟩, ?_⟩
    rw [← hv, h r hr x hx]

theorem imageOf_mem_inj {content' : FileName → ℕ → ℕ} (ht : Tiled regions)
    (h : imageOf regions content = imageOf regions content') (hr : r ∈ regions) (hx : x ∈ r.pts) :
    content r.fileName x = content' r.fileName x := by
  have h1 : (imageOf regions content).mem x = some (content r.fileName x) := imageOf_mem_of ht hr hx
  rw [h, imageOf_mem_of ht hr hx] at h1
  exact (Option.some.inj h1).symm

/-- What the process reads is the file of the region. -/
theorem view_eq {e : Epoch} (ht : Tiled e.mrm.regions) (hr : r ∈ e.mrm.regions) (hx : x ∈ r.pts) :
    e.view x = e.files.cache r.fileName x := by
  rw [Epoch.view, (regionAt_iff ht).mpr ⟨hr, hx⟩]

end RegionAt

/-! ## 2. What an operation does to the files -/

theorem createAll_made {d : Files} {rs : List Region} {mem : ℕ → ℕ} {n : FileName} :
    (d.createAll rs mem).made n = true ↔ n ∈ rs.map Region.fileName ∨ d.made n = true := by
  induction rs generalizing d with
  | nil => simp [Files.createAll]
  | cons r rs ih =>
      have hstep : (d.createAll (r :: rs) mem) = (d.create r.fileName mem).createAll rs mem := rfl
      rw [hstep, ih, List.map_cons, List.mem_cons]
      by_cases hn : n = r.fileName
      · simp [Files.create, hn]
      · simp [Files.create, hn]

/-- A new file holds the memory it was written from, an old one what it held. -/
theorem createAll_files (d : Files) (rs : List Region) (mem : ℕ → ℕ) (n : FileName) :
    (n ∈ rs.map Region.fileName →
        (d.createAll rs mem).cache n = mem ∧ (d.createAll rs mem).pm n = mem) ∧
      (n ∉ rs.map Region.fileName →
        (d.createAll rs mem).cache n = d.cache n ∧ (d.createAll rs mem).pm n = d.pm n) := by
  induction rs generalizing d with
  | nil => exact ⟨fun h => absurd h List.not_mem_nil, fun _ => ⟨rfl, rfl⟩⟩
  | cons r rs ih =>
      have hstep : (d.createAll (r :: rs) mem) = (d.create r.fileName mem).createAll rs mem := rfl
      obtain ⟨h1, h2⟩ := ih (d.create r.fileName mem)
      rw [hstep, List.map_cons, List.mem_cons, not_or]
      refine ⟨fun h => ?_, fun ⟨hne, h⟩ => ?_⟩
      · by_cases hin : n ∈ rs.map Region.fileName
        · exact h1 hin
        · obtain rfl := h.resolve_right hin
          rw [(h2 hin).1, (h2 hin).2]
          simp [Files.create]
      · rw [(h2 h).1, (h2 h).2]
        simp [Files.create, hne]

/-- Creating files leaves those that exist as they are. -/
theorem createAll_old {d : Files} {rs : List Region} {mem : ℕ → ℕ} {n : FileName}
    (hn : d.made n = true) (hnew : ∀ p ∈ rs, d.made p.fileName = false) :
    (d.createAll rs mem).cache n = d.cache n ∧ (d.createAll rs mem).pm n = d.pm n := by
  refine (createAll_files d rs mem n).2 fun hin => ?_
  obtain ⟨p, hp, rfl⟩ := List.mem_map.mp hin
  rw [hnew p hp] at hn
  cases hn

theorem createAll_new {d : Files} {rs : List Region} {mem : ℕ → ℕ} {p : Region} (hp : p ∈ rs) :
    (d.createAll rs mem).cache p.fileName = mem ∧ (d.createAll rs mem).pm p.fileName = mem :=
  (createAll_files d rs mem _).1 (List.mem_map_of_mem hp)

/-- Every region is backed by a file. -/
def Backed (d : Files) (regions : List Region) : Prop := ∀ r ∈ regions, d.made r.fileName = true

section Munmap

variable {e e' : Epoch} {addr size rightId leftId : ℕ}

/-- **What an `munmap` does to the regions and to the files**: nothing, or one region gives way to
    its remainders, in new files that hold what the process read. -/
theorem munmap_regions (hwf : e.Wf) (h : e.apply (.munmap addr size rightId leftId) = some e') :
    e'.mrm.regions = removeRegions e.mrm.regions addr size rightId leftId ∧
      ((e'.mrm.regions = e.mrm.regions ∧ e'.files = e.files) ∨
        ∃ q rs, q ∈ e.mrm.regions ∧ q.base ≤ addr ∧ addr + size ≤ q.stop ∧
          rs = rests q addr size (RemoveOutcome.ok rightId leftId) ∧
          e'.files = e.files.createAll rs e.view ∧
          (∀ p ∈ rs, e.files.made p.fileName = false) ∧
          ∀ p, p ∈ e'.mrm.regions ↔ (p ∈ e.mrm.regions ∧ p ≠ q) ∨ p ∈ rs) := by
  unfold Epoch.apply at h
  split at h
  swap
  · cases h
  rename_i hen
  obtain ⟨-, hn, -, hsplit⟩ := hen
  simp only [Epoch.munmap] at h
  split at h
  · cases h
  swap
  · cases h
  rename_i res m d hne hrem
  cases h
  cases res with
  | error => exact absurd rfl hne
  | notManaged =>
      obtain ⟨hov, rfl, rfl⟩ := removeRegion_notManaged hrem
      exact ⟨by rw [removeRegions, hov], Or.inl ⟨rfl, rfl⟩⟩
  | success =>
      obtain ⟨i, hi, hov, h1, h2, hreg, hd⟩ := removeRegion_success hn rfl hrem
      have hmem : e.mrm.regions[i] ∈ e.mrm.regions := List.getElem_mem hi
      have hsp := hsplit _ hmem ((Region.doesInclude_iff hn).mpr ⟨h1, h2⟩)
      have hperm : (swapRemove e.mrm.regions i).Perm (e.mrm.regions.eraseIdx i) :=
        swapRemove_perm hi
      have hcons := (List.getElem_cons_eraseIdx_perm hi).symm
      have hnot : e.mrm.regions[i] ∉ e.mrm.regions.eraseIdx i := by
        intro hin
        have hap := (List.pairwise_cons.mp (hwf.tiled.perm hcons).apart).1 _ hin
        have hpos := hwf.tiled.pos _ hmem
        unfold Region.Apart Region.stop at hap
        omega
      refine ⟨hreg.trans (removeRegions_some hi hov).symm,
        Or.inr ⟨_, _, hmem, h1, h2, rfl, hd, fun p hp => ?_, fun p => ?_⟩⟩
      · rw [rests, List.mem_append, mem_restOf, mem_restOf] at hp
        rcases hp with ⟨hne, rfl⟩ | ⟨hne, rfl⟩
        · exact (hsp.1 hne.symm).2
        · exact hsp.2 hne
      · simp only [hreg, List.mem_append, hperm.mem_iff, hcons.mem_iff, List.mem_cons]
        exact or_congr_left ⟨fun hp => ⟨Or.inr hp, fun e => hnot (e ▸ hp)⟩,
          fun hp => hp.1.resolve_left hp.2⟩

end Munmap

/-! ## 3. Operations on images -/

section Apply

variable {e e' : Epoch} {op : Op}

/-- Every operation leaves every region backed by a file. -/
theorem backed_apply (hwf : e.Wf) (hb : Backed e.files e.mrm.regions)
    (h : e.apply op = some e') : Backed e'.files e'.mrm.regions := by
  cases op with
  | store addr bytes =>
      obtain ⟨-, rfl⟩ := apply_store h
      exact hb
  | mmap ret size fileId =>
      obtain ⟨-, -, rfl⟩ := apply_mmap h
      intro r hr
      rcases List.mem_append.mp hr with hr | hr
      · simp [Files.create, hb r hr]
      · rw [List.mem_singleton.mp hr]
        simp [Files.create, Region.fileName]
  | munmap addr size rightId leftId =>
      obtain ⟨-, ⟨hr, hf⟩ | ⟨q, rs, -, -, -, -, hf, -, hr⟩⟩ := munmap_regions hwf h
      · rw [hr, hf]
        exact hb
      · intro p hp
        rw [hf, createAll_made]
        rcases (hr p).mp hp with ⟨hp, -⟩ | hp
        · exact Or.inr (hb p hp)
        · exact Or.inl (List.mem_map_of_mem hp)

theorem image_store {addr : ℕ} {bytes : List ℕ} (h : e.apply (.store addr bytes) = some e') :
    e'.image = e.image.apply (.store addr bytes) := by
  obtain ⟨-, rfl⟩ := apply_store h
  unfold Epoch.image Image.apply imageOf
  simp only [Epoch.store, Option.map_map, Image.mk.injEq, true_and]
  funext x
  refine Option.map_congr fun r hr => ?_
  have hname : (e.mrm.regionAt x).map Region.fileName = some r.fileName := by
    rw [show e.mrm.regionAt x = some r from hr]
    rfl
  simp only [Files.store, hname, if_true, storeBytes, Function.comp]

/-- The new file holds zeros, and the other files what they held. -/
theorem image_mmap {ret size fileId : ℕ} (hwf : e.Wf) (hb : Backed e.files e.mrm.regions)
    (h : e.apply (.mmap ret size fileId) = some e') :
    e'.image = e.image.apply (.mmap ret size fileId) := by
  have ht' := (wf_apply hwf h).tiled
  obtain ⟨⟨-, -, -, -, -, hnew⟩, hap, rfl⟩ := apply_mmap h
  have hcreate : e.files.create (ret, fileId) (fun _ => 0) =
      e.files.createAll [⟨ret, size, fileId⟩] fun _ => 0 := rfl
  have hfree : ∀ p ∈ [(⟨ret, size, fileId⟩ : Region)], e.files.made p.fileName = false :=
    fun p hp => by
      rw [List.mem_singleton.mp hp]
      exact hnew
  refine Image.ext_some rfl fun x v => ?_
  rw [Epoch.image, imageOf_mem ht']
  simp only [Image.apply, hcreate]
  split_ifs with hx
  · constructor
    · intro ⟨r, hr, hxr, hv⟩
      rcases List.mem_append.mp hr with hr | hr
      · have hapr := hap r hr
        rw [Region.mem_pts] at hxr
        unfold Region.Apart Region.stop at hapr
        unfold Region.stop at hxr
        simp only at hapr
        omega
      · rw [(createAll_new hr).1] at hv
        rw [← hv]
    · intro hv
      have hmem := List.mem_singleton_self (⟨ret, size, fileId⟩ : Region)
      refine ⟨_, List.mem_append_right _ hmem, hx, ?_⟩
      rw [(createAll_new hmem).1]
      exact Option.some.inj hv
  · rw [Epoch.image, imageOf_mem hwf.tiled]
    constructor
    · intro ⟨r, hr, hxr, hv⟩
      rcases List.mem_append.mp hr with hr | hr
      · rw [(createAll_old (hb r hr) hfree).1] at hv
        exact ⟨r, hr, hxr, hv⟩
      · rw [List.mem_singleton.mp hr] at hxr
        exact absurd hxr hx
    · intro ⟨r, hr, hxr, hv⟩
      refine ⟨r, List.mem_append_left _ hr, hxr, ?_⟩
      rw [(createAll_old (hb r hr) hfree).1]
      exact hv

/-- The files of the remainders hold what was read in the region. -/
theorem image_munmap {addr size rightId leftId : ℕ} (hwf : e.Wf) (hb : Backed e.files e.mrm.regions)
    (h : e.apply (.munmap addr size rightId leftId) = some e') :
    e'.image = e.image.apply (.munmap addr size rightId leftId) := by
  have ht' := (wf_apply hwf h).tiled
  obtain ⟨-, -, hpts, -⟩ := apply_munmap hwf.tiled h
  obtain ⟨hreg, hcases⟩ := munmap_regions hwf h
  refine Image.ext_some hreg fun x v => ?_
  simp only [Image.apply]
  split_ifs with hx
  · refine ⟨fun hv => ?_, nofun⟩
    obtain ⟨r, hr, hxr, -⟩ := (imageOf_mem ht').mp hv
    exact absurd hx ((hpts x).mp ⟨r, hr, hxr⟩).2
  rw [Epoch.image, imageOf_mem ht', Epoch.image, imageOf_mem hwf.tiled]
  rcases hcases with ⟨hr, hf⟩ | ⟨q, rs, hq, h1, h2, hrs, hf, hmade, hr⟩
  · rw [hr, hf]
  have hold : ∀ r ∈ e.mrm.regions, e'.files.cache r.fileName = e.files.cache r.fileName :=
    fun r hr => by
      rw [hf]
      exact (createAll_old (hb r hr) hmade).1
  have hnew : ∀ p ∈ rs, e'.files.cache p.fileName = e.view := fun p hp => by
    rw [hf]
    exact (createAll_new hp).1
  constructor
  · intro ⟨p, hp, hxp, hv⟩
    rcases (hr p).mp hp with ⟨hp, -⟩ | hp
    · exact ⟨p, hp, hxp, by rw [← hold p hp, hv]⟩
    · have hin := rests_inside h1 h2 (hrs ▸ hp)
      have hxq : x ∈ q.pts := ⟨le_trans hin.1 hxp.1, lt_of_lt_of_le hxp.2 hin.2.1⟩
      refine ⟨q, hq, hxq, ?_⟩
      rw [← hv, hnew p hp, view_eq hwf.tiled hq hxq]
  · intro ⟨p, hp, hxp, hv⟩
    by_cases hpq : p = q
    · obtain rfl := hpq
      obtain ⟨p', hp', hxp'⟩ := (mem_regionPts_rests h1 h2).mpr ⟨hxp, hx⟩
      refine ⟨p', (hr p').mpr (Or.inr (hrs ▸ hp')), hxp', ?_⟩
      rw [hnew p' (hrs ▸ hp'), view_eq hwf.tiled hq hxp, hv]
    · exact ⟨p, (hr p).mpr (Or.inl ⟨hp, hpq⟩), hxp, by rw [hold p hp, hv]⟩

/-- **An operation of an epoch is the operation on its image.** -/
theorem image_apply (hwf : e.Wf) (hb : Backed e.files e.mrm.regions)
    (h : e.apply op = some e') : e'.image = e.image.apply op := by
  cases op with
  | store addr bytes => exact image_store h
  | mmap ret size fileId => exact image_mmap hwf hb h
  | munmap addr size rightId leftId => exact image_munmap hwf hb h

end Apply

end Persimmon
