/-
  File:      Persimmon/HandOff.lean
  Subject:   THE HAND-OFF OF THE RECOVERED REGIONS from the background process to the foreground
             (src/undo/mem_region/mem_region.cc: `send_regions`, src/undo/mem_region/fg.cc:
             `map_recovered_regions`).

  A pipe holds words: a region is three of them, three zeros end the list, what follows is the
  recovered tail. Of Linux: `mmap` with `MAP_FIXED` takes page-aligned, non-empty intervals of user
  space from `vm.mmap_min_addr` on and zeroes whole pages; its raw result is an address or an error
  number; one `read` of a file transfers at most `maxRwCount` bytes, and none to the kernel's half.

  * `sendRegions`, `mapRecoveredRegions` -- the two functions; `mapOne` -- one pass of the loop;
  * `mapOne_good`, `mapOne_bad` -- what it does for a region;
  * `Mapping.loads_mem` -- later regions leave the bytes of the earlier ones;
  * `handOff_iff` -- the hand-off succeeds exactly when one `read` is enough for every region.
-/
import Persimmon.PersistRegion

namespace Persimmon

/-! ## 1. The functions -/

/-- The contents of a region file. -/
structure RegionFile where
  size : ℕ
  byte : ℕ → ℕ

/-- The foreground process: its memory, and the intervals it has mapped. -/
structure Mapping where
  mem : ℕ → ℕ
  mapped : List (ℕ × ℕ)

/-- `EINVAL`, `EAGAIN`, `ENOENT`, `ENOMEM`, `EFAULT` and `EPERM` -/
def einval : ℕ := 22

def eagain : ℕ := 11

def enoent : ℕ := 2

def enomem : ℕ := 12

def efault : ℕ := 14

def eperm : ℕ := 1

/-- The end of user space. -/
def taskSize : ℕ := 2 ^ 47 - 4096

def pageUp (n : ℕ) : ℕ := (n + 4095) / 4096 * 4096

/-- What `mmap` takes with `MAP_FIXED`, where `minAddr` is `vm.mmap_min_addr`. -/
def Mappable (minAddr base size : ℕ) : Prop :=
  base % 4096 = 0 ∧ 0 < size ∧ minAddr ≤ base ∧ pageUp (base + size) ≤ taskSize

instance (minAddr base size : ℕ) : Decidable (Mappable minAddr base size) :=
  inferInstanceAs (Decidable (_ ∧ _))

/-- The error number of an `mmap` that is refused. -/
def mmapError (base size : ℕ) : ℕ :=
  if size = 0 then einval
  else if taskSize < pageUp (base + size) then enomem
  else if base % 4096 ≠ 0 then einval
  else eperm

/-- What `my_mmap` returns, with `MAP_FIXED`: the raw result of the system call. -/
def myMmap (minAddr base size : ℕ) : ℕ :=
  if Mappable minAddr base size then base else 2 ^ 64 - mmapError base size

/-- What `my_read` returns for a file. -/
def myRead (base size : ℕ) (file : RegionFile) : ℤ :=
  if base + size ≤ taskSize then (min size (min file.size maxRwCount) : ℕ) else -efault

namespace Mapping

/-- An anonymous mapping: its pages are zero. -/
def mmap (m : Mapping) (base size : ℕ) : Mapping where
  mem x := if base ≤ x ∧ x < pageUp (base + size) then 0 else m.mem x
  mapped := m.mapped ++ [(base, size)]

/-- `n` bytes of a file read to `base`. -/
def read (m : Mapping) (base n : ℕ) (file : RegionFile) : Mapping :=
  { m with mem := fun x => if base ≤ x ∧ x < base + n then file.byte (x - base) else m.mem x }

end Mapping

/-- **`send_regions`** -/
def sendRegions (regions : List Region) : List ℕ :=
  regions.flatMap (fun r => [r.base, r.size, r.fileId]) ++ [0, 0, 0]

/-- What a pass of the loop of `map_recovered_regions` comes to. -/
inductive Pass where
  | last
  | next (m : Mapping)
  | failed (err : ℕ) (m : Mapping)

/-- **One pass** on the words that were read. `dir` gives the region files. An `mmap` that is refused
    is noticed unless its error number is the base that was asked for. -/
def mapOne (minAddr : ℕ) (dir : FileName → Option RegionFile) (m : Mapping) : List ℕ → Pass
  | [base, size, fileId] =>
      if base = 0 ∧ size = 0 then .last
      else if myMmap minAddr base size ≠ base then .failed einval m
      else
        let m' := if Mappable minAddr base size then m.mmap base size else m
        match dir (base, fileId) with
        | none => .failed enoent m'
        | some file =>
            let regionNread := toInt (myRead base size file)
            if regionNread < 0 then .failed (-regionNread).toNat m'
            else if toSizeT regionNread < size then
              .failed eagain (m'.read base regionNread.toNat file)
            else .next (m'.read base regionNread.toNat file)
  -- fewer bytes than a region
  | _ => .failed einval m

/-- **`map_recovered_regions`**: what it returns, the process after it, and what is left in the
    pipe. -/
def mapRecoveredRegions (minAddr : ℕ) (dir : FileName → Option RegionFile) :
    List ℕ → Mapping → ℕ × Mapping × List ℕ
  | base :: size :: fileId :: pipe, m =>
      match mapOne minAddr dir m [base, size, fileId] with
      | .last => (0, m, pipe)
      | .next m' => mapRecoveredRegions minAddr dir pipe m'
      | .failed err m' => (err, m', pipe)
  | pipe, m => (einval, m, pipe)

/-! ## 2. One region -/

/-- One `read` is enough. -/
def OneRead (minAddr : ℕ) (r : Region) : Prop :=
  Mappable minAddr r.base r.size ∧ r.size ≤ maxRwCount

/-- The record of a region. -/
def Region.words (r : Region) : List ℕ := [r.base, r.size, r.fileId]

/-- A region mapped and filled. -/
def Mapping.load (m : Mapping) (r : Region) (file : RegionFile) : Mapping :=
  (m.mmap r.base r.size).read r.base r.size file

section Pass

variable {minAddr : ℕ} {dir : FileName → Option RegionFile} {m m' : Mapping} {r : Region} {err : ℕ}
  {file : RegionFile}

theorem Mappable.le_taskSize {base size : ℕ} (h : Mappable minAddr base size) :
    base + size ≤ taskSize := by
  obtain ⟨-, -, -, hend⟩ := h
  unfold pageUp at hend
  omega

/-- What is refused and not noticed cannot be read to. -/
theorem myRead_of_refused {base size : ℕ} (h : ¬ Mappable minAddr base size)
    (heq : myMmap minAddr base size = base) : myRead base size file = -efault := by
  have herr : mmapError base size ≤ einval := by
    unfold mmapError
    split_ifs <;> decide
  rw [myMmap, if_neg h] at heq
  refine if_neg ?_
  unfold einval at herr
  unfold taskSize
  omega

/-- A region that is not null is not taken for the end of the list. -/
theorem mapOne_region_ne_last (hr : ¬ (r.base = 0 ∧ r.size = 0)) :
    mapOne minAddr dir m r.words ≠ .last := by
  rw [Region.words, mapOne, if_neg hr]
  split
  · exact Pass.noConfusion
  · generalize (if Mappable minAddr r.base r.size then m.mmap r.base r.size else m) = m1
    cases dir (r.base, r.fileId) with
    | none => exact Pass.noConfusion
    | some file =>
        dsimp only
        split_ifs <;> exact Pass.noConfusion

/-- The errors of a pass are not 0. -/
theorem mapOne_failed_ne_zero (h : mapOne minAddr dir m r.words = .failed err m') : err ≠ 0 := by
  rw [Region.words, mapOne] at h
  split at h
  · exact absurd h Pass.noConfusion
  · split at h
    · cases h
      decide
    · generalize (if Mappable minAddr r.base r.size then m.mmap r.base r.size else m) = m1 at h
      cases hdir : dir (r.base, r.fileId) with
      | none =>
          rw [hdir] at h
          cases h
          decide
      | some file =>
          rw [hdir] at h
          dsimp only at h
          split_ifs at h with hneg
          · rw [← (Pass.failed.inj h).1]
            omega
          · rw [← (Pass.failed.inj h).1]
            decide

/-- **One pass for a region** with a file of its size: it is loaded when one `read` is enough. -/
theorem mapOne_good (hbase : r.base ≠ 0) (hfile : dir r.fileName = some file)
    (hsize : file.size = r.size) (h : OneRead minAddr r) :
    mapOne minAddr dir m r.words = .next (m.load r file) := by
  have hn : myRead r.base r.size file = (r.size : ℕ) := by
    rw [myRead, if_pos h.1.le_taskSize, hsize, Nat.min_eq_left h.2, Nat.min_self]
  have hint : toInt (r.size : ℕ) = (r.size : ℕ) :=
    toInt_of_lt (lt_of_le_of_lt h.2 (by decide))
  have hlt : r.size < 2 ^ 64 := lt_of_le_of_lt h.2 (by decide)
  have hdir : dir (r.base, r.fileId) = some file := hfile
  have haddr : myMmap minAddr r.base r.size = r.base := if_pos h.1
  rw [Region.words, mapOne, if_neg fun hc => hbase hc.1, if_neg (not_not.mpr haddr), hdir]
  dsimp only
  rw [hn, hint, toSizeT_of_lt hlt, if_neg (by omega), if_neg (Nat.lt_irrefl _), if_pos h.1]
  rfl

/-- It ends the loop otherwise. -/
theorem mapOne_bad (hbase : r.base ≠ 0) (hfile : dir r.fileName = some file)
    (hsize : file.size = r.size) (h : ¬ OneRead minAddr r) :
    ∃ err m', mapOne minAddr dir m r.words = .failed err m' := by
  have hdir : dir (r.base, r.fileId) = some file := hfile
  rw [Region.words, mapOne, if_neg fun hc => hbase hc.1]
  by_cases heq : myMmap minAddr r.base r.size = r.base
  swap
  · exact ⟨_, _, if_pos heq⟩
  rw [if_neg (not_not.mpr heq), hdir]
  dsimp only
  by_cases hmap : Mappable minAddr r.base r.size
  · have hlong : maxRwCount < r.size := Nat.lt_of_not_le fun hle => h ⟨hmap, hle⟩
    have hn : myRead r.base r.size file = (maxRwCount : ℕ) := by
      rw [myRead, if_pos hmap.le_taskSize, hsize]
      congr 1
      omega
    have hint : toInt (maxRwCount : ℕ) = (maxRwCount : ℕ) := toInt_of_lt (by decide)
    rw [hn, hint, toSizeT_of_lt (by decide), if_neg (by omega), if_pos hlong]
    exact ⟨_, _, rfl⟩
  · rw [myRead_of_refused hmap heq, if_pos (by decide)]
    exact ⟨_, _, rfl⟩

end Pass

/-! ## 3. The memory -/

namespace Mapping

/-- The regions loaded one after the other, each from its file. -/
def loads (dir : FileName → Option RegionFile) (m : Mapping) (rs : List Region) : Mapping :=
  rs.foldl (fun m r => m.load r ((dir r.fileName).getD ⟨0, fun _ => 0⟩)) m

variable {minAddr : ℕ} {dir : FileName → Option RegionFile} {m : Mapping} {r : Region}
  {rs : List Region}

theorem load_mem_self {file : RegionFile} {k : ℕ} (hk : k < r.size) :
    (m.load r file).mem (r.base + k) = file.byte k := by
  unfold load read
  dsimp only
  rw [if_pos ⟨Nat.le_add_right _ _, Nat.add_lt_add_left hk _⟩, Nat.add_sub_cancel_left]

/-- Loading a region leaves what lies apart from its pages. -/
theorem load_mem_apart {file : RegionFile} {q : Region} {x : ℕ} (hr : Mappable minAddr r.base r.size)
    (hq : q.base % 4096 = 0) (hap : q.Apart r) (hx : x ∈ q.pts) :
    (m.load r file).mem x = m.mem x := by
  obtain ⟨h1, h2⟩ := hx
  obtain ⟨h3, h4, -, -⟩ := hr
  unfold Region.Apart at hap
  unfold Region.stop at h2 hap
  have hpage : ¬ (r.base ≤ x ∧ x < pageUp (r.base + r.size)) := by
    unfold pageUp
    omega
  unfold load read mmap
  dsimp only
  rw [if_neg (by omega), if_neg hpage]

theorem loads_mem_apart {q : Region} {x : ℕ}
    (hrs : ∀ r ∈ rs, Mappable minAddr r.base r.size ∧ q.Apart r) (hq : q.base % 4096 = 0)
    (hx : x ∈ q.pts) : (m.loads dir rs).mem x = m.mem x := by
  induction rs generalizing m with
  | nil => rfl
  | cons r rs ih =>
      rw [List.forall_mem_cons] at hrs
      exact (ih hrs.2).trans (load_mem_apart hrs.1.1 hq hrs.1.2 hx)

/-- **Every region holds its file in the end.** -/
theorem loads_mem (hrs : ∀ r ∈ rs, Mappable minAddr r.base r.size) (hap : rs.Pairwise Region.Apart)
    {file : RegionFile} {k : ℕ} (hr : r ∈ rs) (hfile : dir r.fileName = some file)
    (hk : k < r.size) : (m.loads dir rs).mem (r.base + k) = file.byte k := by
  induction rs generalizing m with
  | nil => exact absurd hr List.not_mem_nil
  | cons r' rs ih =>
      rw [List.forall_mem_cons] at hrs
      rw [List.pairwise_cons] at hap
      rcases List.mem_cons.mp hr with rfl | hr
      · have hx : r.base + k ∈ r.pts := ⟨Nat.le_add_right _ _, Nat.add_lt_add_left hk _⟩
        have hkeep := @loads_mem_apart minAddr dir
          (m.load r ((dir r.fileName).getD ⟨0, fun _ => 0⟩)) rs r (r.base + k)
          (fun q hq => ⟨hrs.2 q hq, hap.1 q hq⟩) hrs.1.1 hx
        rw [hfile] at hkeep
        rw [loads, List.foldl_cons, hfile]
        exact hkeep.trans (load_mem_self hk)
      · exact ih hrs.2 hap.2 hr

theorem loads_mapped : (m.loads dir rs).mapped = m.mapped ++ rs.map fun r => (r.base, r.size) := by
  induction rs generalizing m with
  | nil => rw [loads, List.foldl_nil, List.map_nil, List.append_nil]
  | cons r rs ih =>
      rw [loads, List.foldl_cons]
      refine ih.trans ?_
      rw [List.map_cons]
      exact List.append_assoc _ _ _

end Mapping

/-! ## 4. The hand-off -/

/-- The hand-off: 0 is returned, exactly these regions are mapped, each holds its file, and the pipe
    is at the tail. -/
def HandsOff (minAddr : ℕ) (dir : FileName → Option RegionFile) (regions : List Region)
    (tail : List ℕ) (mem : ℕ → ℕ) : Prop :=
  ∃ m, mapRecoveredRegions minAddr dir (sendRegions regions ++ tail) ⟨mem, []⟩ = (0, m, tail) ∧
    m.mapped = regions.map (fun r => (r.base, r.size)) ∧
    ∀ r ∈ regions, ∀ file, dir r.fileName = some file → ∀ k < r.size,
      m.mem (r.base + k) = file.byte k

section

variable {minAddr : ℕ} {dir : FileName → Option RegionFile} {regions : List Region} {tail : List ℕ}
  {m : Mapping}

theorem sendRegions_cons (r : Region) (rs : List Region) :
    sendRegions (r :: rs) ++ tail =
      r.base :: r.size :: r.fileId :: (sendRegions rs ++ tail) := by
  simp [sendRegions]

/-- The loop, from one region to the next. -/
theorem mapRecoveredRegions_cons (r : Region) (rs : List Region) :
    mapRecoveredRegions minAddr dir (sendRegions (r :: rs) ++ tail) m =
      match mapOne minAddr dir m r.words with
      | .last => (0, m, sendRegions rs ++ tail)
      | .next m' => mapRecoveredRegions minAddr dir (sendRegions rs ++ tail) m'
      | .failed err m' => (err, m', sendRegions rs ++ tail) := by
  rw [sendRegions_cons, mapRecoveredRegions, Region.words]

/-- The files of the regions, each of exactly its region's size. -/
def HasFiles (dir : FileName → Option RegionFile) (regions : List Region) : Prop :=
  ∀ r ∈ regions, ∃ file, dir r.fileName = some file ∧ file.size = r.size

/-- **The whole stream**, when one `read` is enough for each region. -/
theorem mapRecovered_good (hbase : ∀ r ∈ regions, r.base ≠ 0) (hfile : HasFiles dir regions)
    (h : ∀ r ∈ regions, OneRead minAddr r) :
    mapRecoveredRegions minAddr dir (sendRegions regions ++ tail) m =
      (0, m.loads dir regions, tail) := by
  induction regions generalizing m with
  | nil => rfl
  | cons r rs ih =>
      unfold HasFiles at hfile
      rw [List.forall_mem_cons] at hbase hfile h
      obtain ⟨file, hdir, hsize⟩ := hfile.1
      rw [mapRecoveredRegions_cons, mapOne_good hbase.1 hdir hsize h.1]
      dsimp only
      rw [ih hbase.2 hfile.2 h.2, Mapping.loads, Mapping.loads, List.foldl_cons, hdir]
      rfl

/-- **An error otherwise.** -/
theorem mapRecovered_bad (hbase : ∀ r ∈ regions, r.base ≠ 0) (hfile : HasFiles dir regions)
    (h : ¬ ∀ r ∈ regions, OneRead minAddr r) :
    (mapRecoveredRegions minAddr dir (sendRegions regions ++ tail) m).1 ≠ 0 := by
  induction regions generalizing m with
  | nil => exact absurd (fun r hr => absurd hr List.not_mem_nil) h
  | cons r rs ih =>
      unfold HasFiles at hfile
      rw [List.forall_mem_cons] at hbase hfile h
      obtain ⟨file, hdir, hsize⟩ := hfile.1
      rw [mapRecoveredRegions_cons]
      by_cases hr : OneRead minAddr r
      · rw [mapOne_good hbase.1 hdir hsize hr]
        exact ih hbase.2 hfile.2 fun hrs => h ⟨hr, hrs⟩
      · obtain ⟨err, m', he⟩ := @mapOne_bad minAddr dir m r file hbase.1 hdir hsize hr
        rw [he]
        exact mapOne_failed_ne_zero he

end

/-- A region of 2 GiB is not handed off. -/
theorem not_handsOff_large :
    ¬ HandsOff 65536 (fun _ => some ⟨0x80000000, fun _ => 1⟩) [⟨0x100000000, 0x80000000, 7⟩] [64]
      (fun _ => 0) := by
  intro hex
  obtain ⟨m, h, -⟩ := hex
  refine @mapRecovered_bad _ _ _ [64] ⟨fun _ => 0, []⟩ ?_ ?_ ?_ (congrArg Prod.fst h)
  · intro r hr
    rw [List.mem_singleton.mp hr]
    decide
  · intro r hr
    rw [List.mem_singleton.mp hr]
    exact ⟨_, rfl, rfl⟩
  · intro hall
    exact absurd (hall _ (List.mem_singleton_self _)).2 (by decide)

/-- **The hand-off of the regions.** For any regions with non-null bases that lie apart, each with a
    file of exactly its size: it succeeds exactly when each can be mapped and is not larger than what
    one `read` transfers. -/
theorem handOff_iff {minAddr : ℕ} {dir : FileName → Option RegionFile} {regions : List Region}
    {tail : List ℕ} {mem : ℕ → ℕ} (hbase : ∀ r ∈ regions, r.base ≠ 0)
    (hap : regions.Pairwise Region.Apart)
    (hfile : ∀ r ∈ regions, ∃ file, dir r.fileName = some file ∧ file.size = r.size) :
    HandsOff minAddr dir regions tail mem ↔
      ∀ r ∈ regions, Mappable minAddr r.base r.size ∧ r.size ≤ maxRwCount := by
  constructor
  · intro hex
    obtain ⟨m, h, -⟩ := hex
    by_contra hbad
    exact mapRecovered_bad hbase hfile hbad (congrArg Prod.fst h)
  · intro h
    refine ⟨_, mapRecovered_good hbase hfile h, Mapping.loads_mapped, fun r hr file hdir k hk => ?_⟩
    exact Mapping.loads_mem (fun q hq => (h q hq).1) hap hr hdir hk

theorem handOff_iff_two :
    HandsOff 65536 (fun _ => some ⟨4096, fun k => k⟩) [⟨65536, 4096, 1⟩, ⟨131072, 4096, 2⟩] [64]
        (fun _ => 0) ↔
      ∀ r ∈ [(⟨65536, 4096, 1⟩ : Region), ⟨131072, 4096, 2⟩],
        Mappable 65536 r.base r.size ∧ r.size ≤ maxRwCount :=
  handOff_iff (by decide)
    (List.pairwise_cons.mpr ⟨fun q hq => by rw [List.mem_singleton.mp hq]; exact Or.inl (by decide),
      List.pairwise_singleton _ _⟩)
    (by
      intro r hr
      rcases List.mem_cons.mp hr with rfl | hr
      · exact ⟨_, rfl, rfl⟩
      · rw [List.mem_singleton.mp hr]
        exact ⟨_, rfl, rfl⟩)

end Persimmon
