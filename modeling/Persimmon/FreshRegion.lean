/-
  File:      Persimmon/FreshRegion.lean
  Subject:   A NEW MAPPING IN THE FRESH SET AND IN THE REGION TABLE
             (src/undo/instrument.cc: `event_post_syscall`, src/undo/undo_log.h:
             `undo_log_record_fresh_region`).

  The same interval is recorded twice: the region table gets its size as `size_t`, the fresh set as
  `uint`.

  * `eventPostSyscall` -- the callback after an `mmap` that has succeeded;
  * `MmapStep`, `FreshManaged` -- epochs of mmaps, and what holds in them: what is fresh is managed;
  * `postSyscall_pts` -- both sets after the callback;
  * `freshRegion_iff` -- they grow by the same interval exactly for sizes below 4 GiB.
-/
import Persimmon.RegionTable
import Persimmon.UndoLog

namespace Persimmon

open Transition

/-! ## 1. The callback -/

/-- The region table with its files, and the fresh set. -/
structure MmapState where
  mrm : Manager
  files : Files
  fresh : Ranges

/-- **`event_post_syscall`** after an `mmap` of `size` bytes that returned `ret`, the system calls of
    `replace_region` succeeding. No result when an assertion fails. -/
def eventPostSyscall (s : MmapState) (ret size fileId : ℕ) : Option MmapState :=
  match s.mrm.replaceRegion s.files (fun _ => 0) ret size (ReplaceOutcome.ok fileId) with
  | some (.success, m, d) => some ⟨m, d, s.fresh.insert ret (toUint size)⟩
  | _ => none

/-- A process that has just started. -/
def MmapState.start (d : Files) : MmapState := ⟨Manager.new, d, Ranges.empty⟩

inductive MmapAct where
  | mmap (ret size fileId : ℕ)
  | clear

/-- What the kernel may return: an interval of the address space that is not managed. -/
def Returns (s : MmapState) (ret size : ℕ) : Prop :=
  0 < size ∧ ret + size < 2 ^ 64 ∧
    Disjoint (Set.Ico ret (ret + size)) (regionPts s.mrm.regions)

/-- An `mmap`, or the `undo_log_clear` that ends an epoch. -/
def MmapStep (s : MmapState) : MmapAct → MmapState → Prop
  | .mmap ret size fileId, s' =>
      Returns s ret size ∧ eventPostSyscall s ret size fileId = some s'
  | .clear, s' => s' = { s with fresh := s.fresh.clear }

/-! ## 2. What holds after any mmaps -/

/-- **What is fresh is managed**, and both sets are in order. -/
structure FreshManaged (s : MmapState) : Prop where
  sound : s.mrm.Sound
  wf : s.fresh.Wf
  managed : s.fresh.pts ⊆ regionPts s.mrm.regions

theorem freshManaged_start (d : Files) : FreshManaged (MmapState.start d) where
  sound := Manager.Sound.new
  wf := Ranges.wf_empty
  managed := by
    rw [MmapState.start, Ranges.pts_empty]
    exact Set.empty_subset _

section

variable {s s' : MmapState} {ret size : ℕ}

theorem toUint_end (h : ret + size < 2 ^ 64) : ret + toUint size < 2 ^ 64 :=
  Nat.lt_of_le_of_lt (Nat.add_le_add_left (toUint_le size) ret) h

/-- **The callback**: the assertion holds, the table grows by the interval, and the fresh set by as
    much of it as a `uint` counts. -/
theorem postSyscall_pts (h : FreshManaged s) (hr : Returns s ret size) (fileId : ℕ) :
    ∃ s', eventPostSyscall s ret size fileId = some s' ∧ s'.mrm.Sound ∧ s'.fresh.Wf ∧
      regionPts s'.mrm.regions = regionPts s.mrm.regions ∪ Set.Ico ret (ret + size) ∧
      s'.fresh.pts = s.fresh.pts ∪ Set.Ico ret (ret + toUint size) := by
  obtain ⟨hpos, hend, hd⟩ := hr
  obtain ⟨m, d, he, hs, hp⟩ := replace_sound (d := s.files) h.sound hpos hend hd fileId (fun _ => 0)
  have hrep : s.mrm.replaceRegion s.files (fun _ => 0) ret size (ReplaceOutcome.ok fileId) =
      some (.success, m, d) := he
  refine ⟨⟨m, d, s.fresh.insert ret (toUint size)⟩, ?_, hs, Ranges.wf_insert h.wf (toUint_end hend),
    hp, Ranges.pts_insert h.wf (toUint_end hend)⟩
  rw [eventPostSyscall, hrep]

theorem FreshManaged.step {a : MmapAct} (h : FreshManaged s) (hs : MmapStep s a s') :
    FreshManaged s' := by
  cases a with
  | mmap ret size fileId =>
      obtain ⟨hr, he⟩ := hs
      obtain ⟨s'', he', h1, h2, h3, h4⟩ := postSyscall_pts h hr fileId
      obtain rfl : s'' = s' := Option.some.inj (he'.symm.trans he)
      refine ⟨h1, h2, ?_⟩
      rw [h3, h4]
      exact Set.union_subset_union h.managed
        (Set.Ico_subset_Ico_right (Nat.add_le_add_left (toUint_le size) ret))
  | clear =>
      obtain rfl := hs
      exact ⟨h.sound, Ranges.wf_empty, fun x hx => absurd hx (by simp [Ranges.clear, Ranges.pts])⟩

end

/-! ## 3. The two sets -/

/-- After the callback, the fresh set and the table have grown by the same interval, and every store
    into it is left unlogged. -/
structure RecordsSame (s : MmapState) (ret size : ℕ) (s' : MmapState) : Prop where
  fresh : s'.fresh.pts = s.fresh.pts ∪ Set.Ico ret (ret + size)
  table : regionPts s'.mrm.regions = regionPts s.mrm.regions ∪ Set.Ico ret (ret + size)
  unlogged : ∀ mem log addr n, 0 < n → Set.Ico addr (addr + n) ⊆ Set.Ico ret (ret + size) →
    undoLogRecord s'.fresh mem log addr n = (log, false)

/-- A `mmap` of 4 GiB leaves nothing in the fresh set. -/
theorem not_recordsSame_4gib :
    ¬ ∀ s' : MmapState,
      eventPostSyscall (MmapState.start ⟨fun _ => false, fun _ _ => 0, fun _ _ => 0⟩)
          0x7f0000000000 (2 ^ 32) 1 = some s' →
        RecordsSame (MmapState.start ⟨fun _ => false, fun _ _ => 0, fun _ _ => 0⟩)
          0x7f0000000000 (2 ^ 32) s' := by
  intro h
  have hr : Returns (MmapState.start ⟨fun _ => false, fun _ _ => 0, fun _ _ => 0⟩)
      0x7f0000000000 (2 ^ 32) :=
    ⟨by decide, by decide, by simp [MmapState.start, Manager.new, regionPts]⟩
  obtain ⟨s', he, -, -, -, hp⟩ := postSyscall_pts (freshManaged_start _) hr 1
  have hin : 0x7f0000000000 ∈ s'.fresh.pts := by
    rw [(h s' he).fresh]
    exact Or.inr ⟨le_refl _, by decide⟩
  rw [hp, MmapState.start, Ranges.pts_empty, Set.empty_union] at hin
  exact absurd hin.2 (by decide)

/-- **The fresh set and the region table record the same new mapping**, after any mmaps of any
    epochs, exactly when its size is below 2^32. -/
theorem freshRegion_iff {d : Files} {s : MmapState} {ret size fileId : ℕ}
    (h : Runs MmapStep Always (MmapState.start d) s) (hr : Returns s ret size) :
    ∃ s', eventPostSyscall s ret size fileId = some s' ∧
      (RecordsSame s ret size s' ↔ size < 2 ^ 32) := by
  have hinv : FreshManaged s :=
    h.invariant (freshManaged_start d) fun _ _ _ hi _ hs => hi.step hs
  obtain ⟨s', he, hs, hwf, htable, hfresh⟩ := postSyscall_pts hinv hr fileId
  obtain ⟨hpos, hend, hd⟩ := hr
  refine ⟨s', he, fun hsame => ?_, fun hlt => ?_⟩
  · by_contra hge
    -- the last byte of the mapping is not fresh: it was not managed before
    have hlast : ret + size - 1 ∈ Set.Ico ret (ret + size) := ⟨by omega, by omega⟩
    have hin : ret + size - 1 ∈ s'.fresh.pts := by
      rw [hsame.fresh]
      exact Or.inr hlast
    rw [hfresh] at hin
    rcases hin with hin | hin
    · exact Set.disjoint_left.mp hd hlast (hinv.managed hin)
    · have hcut : toUint size < 2 ^ 32 := Nat.mod_lt _ (by decide)
      have := hin.2
      omega
  · rw [toUint_of_lt hlt] at hfresh
    refine ⟨hfresh, htable, fun mem log addr n hn hsub => ?_⟩
    have hn' : addr + n < 2 ^ 64 := by
      have hmem : addr + n - 1 ∈ Set.Ico addr (addr + n) := ⟨by omega, by omega⟩
      have := (hsub hmem).2
      omega
    have hfind : s'.fresh.find addr n = true := by
      rw [Ranges.find_iff hwf hn hn', hfresh]
      exact fun x hx => Or.inr (hsub hx)
    rw [undoLogRecord, if_pos hfind]

theorem freshRegion_iff_page :
    ∃ s', eventPostSyscall (MmapState.start ⟨fun _ => false, fun _ _ => 0, fun _ _ => 0⟩)
        0x7f0000000000 4096 1 = some s' ∧
      (RecordsSame (MmapState.start ⟨fun _ => false, fun _ _ => 0, fun _ _ => 0⟩)
        0x7f0000000000 4096 s' ↔ 4096 < 2 ^ 32) :=
  freshRegion_iff .start
    ⟨by decide, by decide, by simp [MmapState.start, Manager.new, regionPts]⟩

end Persimmon
