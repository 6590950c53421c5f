/-
  File:      Persimmon/Epoch.lean
  Subject:   ONE EPOCH of the background: stores, `mmap` and `munmap` between two commits
             (src/undo/instrument.cc: `record_write`, `event_pre_syscall`, `event_post_syscall`).

  * `Epoch` -- the region manager, the region files, the mapped pages, the fresh set and the undo
    log, with what has happened so far: the bytes newly mapped and the bytes stored;
  * `Op`, `Op.Enabled`, `Epoch.apply` -- the operations: a store preceded by `undo_log_record`, a
    successful `mmap`, a successful `munmap`, with what the system calls return as arguments;
  * `apply_store`, `apply_mmap`, `apply_munmap` -- what each operation does, said once;
  * `Epoch.Wf`, `wf_apply` -- the invariant of the state alone;
  * the three properties a commit and a rollback rest on: every stored byte is flushed, every undo
    entry targets a committed region, every flushed address is mapped. Each fails for some orders
    of operations, and holds in every run whose steps avoid them.
-/
import Persimmon.Lib.Transition
import Persimmon.MemRegion
import Persimmon.UndoLog

namespace Persimmon

open Transition

/-- The state of the background between two commits. -/
structure Epoch where
  mrm : Manager
  files : Files
  /-- Memory outside the managed regions. -/
  other : ℕ → ℕ
  /-- The mapped pages. -/
  pages : ℕ → Bool
  fresh : Ranges
  log : List Entry
  /-- Addresses `mmap`ped since the last commit. -/
  newly : ℕ → Bool
  /-- Bytes stored since the last commit, still mapped, and not copied to a new file since. -/
  dirty : ℕ → Bool

inductive Op where
  | store (addr : ℕ) (bytes : List ℕ)
  | mmap (ret size fileId : ℕ)
  | munmap (addr size rightId leftId : ℕ)
  deriving DecidableEq, Repr

/-! ## 1. The operations -/

/-- The page lies in `[addr, addr + size)`, rounded up to whole pages. -/
def inPages (addr size p : ℕ) : Bool :=
  decide (addr / 4096 ≤ p) && decide (p < (addr + size + 4095) / 4096)

/-- A store reaches the files of the regions it lies in. -/
def Files.store (d : Files) (m : Manager) (addr : ℕ) (bytes : List ℕ) : Files :=
  { d with cache := fun n x =>
      if (m.regionAt x).map Region.fileName = some n then storeBytes addr bytes (d.cache n) x
      else d.cache n x }

namespace Epoch

/-- What the process reads. -/
def view (e : Epoch) (x : ℕ) : ℕ :=
  match e.mrm.regionAt x with
  | some r => e.files.cache r.fileName x
  | none => e.other x

/-- `record_write`, then the store. -/
def store (e : Epoch) (addr : ℕ) (bytes : List ℕ) : Epoch :=
  { e with
    log := (undoLogRecord e.fresh e.view e.log addr bytes.length).1
    files := e.files.store e.mrm addr bytes
    other := fun x => if (e.mrm.regionAt x).isNone then storeBytes addr bytes e.other x else e.other x
    dirty := fun x => inStore addr bytes x || e.dirty x }

/-- `event_post_syscall` after an `mmap` that returned `ret`; anonymous memory reads as zero.
    `undo_log_record_fresh_region` takes the size as `uint`. -/
def mmap (e : Epoch) (ret size fileId : ℕ) : Option Epoch :=
  match e.mrm.replaceRegion e.files (fun _ => 0) ret size (ReplaceOutcome.ok fileId) with
  | some (.success, m, d) =>
      some { e with
        mrm := m
        files := d
        pages := fun p => inPages ret size p || e.pages p
        fresh := e.fresh.insert ret (toUint size)
        newly := fun x => (decide (ret ≤ x) && decide (x < ret + size)) || e.newly x
        dirty := fun x => !inPages ret size (x / 4096) && e.dirty x }
  | _ => none

/-- `event_pre_syscall` for a `munmap` that succeeds: the fresh set is trimmed first, with the size
    taken as `uint`. A byte whose region changes has been copied to a new file. -/
def munmap (e : Epoch) (addr size rightId leftId : ℕ) : Option Epoch :=
  match e.mrm.removeRegion e.files e.view addr size (RemoveOutcome.ok rightId leftId) with
  | some (.error, _, _) => none
  | some (_, m, d) =>
      some { e with
        mrm := m
        files := d
        pages := fun p => !inPages addr size p && e.pages p
        fresh := e.fresh.remove addr (toUint size)
        dirty := fun x => !inPages addr size (x / 4096) &&
          decide (m.regionAt x = e.mrm.regionAt x) && e.dirty x }
  | none => none

end Epoch

/-- A remainder of a removal is mapped from its own file: page-aligned, and the file is new. -/
def Region.Splits (made : FileName → Bool) (r : Region) (addr size rightId leftId : ℕ) : Prop :=
  (addr + size ≠ r.stop → (addr + size) % 4096 = 0 ∧ made (addr + size, rightId) = false) ∧
    (addr ≠ r.base → made (r.base, leftId) = false)

/-- When the machine and the kernel let an operation succeed: a store goes to mapped memory, an
    `mmap` returns free pages of user space, an `munmap` is page-aligned, and the file of every
    new region is created (`O_EXCL`). -/
def Op.Enabled (e : Epoch) : Op → Prop
  | .store addr bytes =>
      bytes ≠ [] ∧ bytes.length < 2 ^ 32 ∧ ∀ i < bytes.length, e.pages ((addr + i) / 4096) = true
  | .mmap ret size fileId =>
      ret % 4096 = 0 ∧ 0 < ret ∧ 0 < size ∧ ret + size ≤ 2 ^ 47 ∧
        (∀ i < (size + 4095) / 4096, e.pages (ret / 4096 + i) = false) ∧
        e.files.made (ret, fileId) = false
  | .munmap addr size rightId leftId =>
      addr % 4096 = 0 ∧ 0 < size ∧ addr + size ≤ 2 ^ 47 ∧
        ∀ r ∈ e.mrm.regions, r.doesInclude ⟨addr, size, 0⟩ = true →
          r.Splits e.files.made addr size rightId leftId

instance (made : FileName → Bool) (r : Region) (a s i j : ℕ) : Decidable (r.Splits made a s i j) :=
  inferInstanceAs (Decidable (_ ∧ _))

instance (e : Epoch) (op : Op) : Decidable (op.Enabled e) :=
  match op with
  | .store _ _ => inferInstanceAs (Decidable (_ ∧ _ ∧ _))
  | .mmap _ _ _ => inferInstanceAs (Decidable (_ ∧ _ ∧ _ ∧ _ ∧ _ ∧ _))
  | .munmap _ _ _ _ => inferInstanceAs (Decidable (_ ∧ _ ∧ _ ∧ _))

/-- **One operation of an epoch.** -/
def Epoch.apply (e : Epoch) (op : Op) : Option Epoch :=
  if op.Enabled e then
    match op with
    | .store addr bytes => some (e.store addr bytes)
    | .mmap ret size fileId => e.mmap ret size fileId
    | .munmap addr size rightId leftId => e.munmap addr size rightId leftId
  else none

def Epoch.Step (e : Epoch) (op : Op) (e' : Epoch) : Prop := e.apply op = some e'

/-- The state right after a commit: nothing logged, nothing fresh, nothing new. -/
structure Epoch.Fresh (e : Epoch) : Prop where
  log : e.log = []
  fresh : e.fresh = Ranges.empty
  newly : ∀ x, e.newly x = false
  dirty : ∀ x, e.dirty x = false

/-! ## 2. What each operation does -/

theorem inPages_iff {addr size x : ℕ} (ha : addr % 4096 = 0) :
    inPages addr size (x / 4096) = true ↔
      addr ≤ x ∧ x / 4096 < (addr + size + 4095) / 4096 := by
  simp only [inPages, Bool.and_eq_true, decide_eq_true_eq]
  omega

section Apply

variable {e e' : Epoch}

theorem apply_store {addr : ℕ} {bytes : List ℕ} (h : e.apply (.store addr bytes) = some e') :
    (Op.store addr bytes).Enabled e ∧ e' = e.store addr bytes := by
  unfold Epoch.apply at h
  split at h
  · rename_i hen
    cases h
    exact ⟨hen, rfl⟩
  · cases h

theorem apply_mmap {ret size fileId : ℕ} (h : e.apply (.mmap ret size fileId) = some e') :
    (Op.mmap ret size fileId).Enabled e ∧
      (∀ r ∈ e.mrm.regions, r.Apart ⟨ret, size, fileId⟩) ∧
      e' = { e with
        mrm := ⟨e.mrm.regions ++ [⟨ret, size, fileId⟩], e.mrm.rs.insert ret size⟩
        files := e.files.create (ret, fileId) (fun _ => 0)
        pages := fun p => inPages ret size p || e.pages p
        fresh := e.fresh.insert ret (toUint size)
        newly := fun x => (decide (ret ≤ x) && decide (x < ret + size)) || e.newly x
        dirty := fun x => !inPages ret size (x / 4096) && e.dirty x } := by
  unfold Epoch.apply at h
  split at h
  swap
  · cases h
  rename_i hen
  simp only [Epoch.mmap] at h
  split at h
  swap
  · cases h
  rename_i m d hrep
  obtain ⟨h1, rfl, rfl⟩ := replaceRegion_success hrep
  cases h
  exact ⟨hen, h1, rfl⟩

/-- An `munmap` takes the interval out of the managed addresses; the regions stay apart. -/
theorem apply_munmap {addr size rightId leftId : ℕ} (ht : Tiled e.mrm.regions)
    (h : e.apply (.munmap addr size rightId leftId) = some e') :
    (Op.munmap addr size rightId leftId).Enabled e ∧ Tiled e'.mrm.regions ∧
      (∀ x, x ∈ regionPts e'.mrm.regions ↔
        x ∈ regionPts e.mrm.regions ∧ x ∉ Set.Ico addr (addr + size)) ∧
      e' = { e with
        mrm := e'.mrm
        files := e'.files
        pages := fun p => !inPages addr size p && e.pages p
        fresh := e.fresh.remove addr (toUint size)
        dirty := fun x => !inPages addr size (x / 4096) &&
          decide (e'.mrm.regionAt x = e.mrm.regionAt x) && e.dirty x } := by
  unfold Epoch.apply at h
  split at h
  swap
  · cases h
  rename_i hen
  obtain ⟨hal, hn, hle, hsplit⟩ := hen
  simp only [Epoch.munmap] at h
  split at h
  · cases h
  · rename_i res m d hne hrem
    cases h
    cases res with
    | error => exact absurd rfl hne
    | success =>
        refine ⟨⟨hal, hn, hle, hsplit⟩, ?_, fun x => mem_removeRegion ht hn rfl hrem, rfl⟩
        exact removeRegion_tiled ht hn rfl (fun r hr hinc hne => ((hsplit r hr hinc).1 hne).1) hrem
    | notManaged =>
        obtain ⟨hov, rfl, -⟩ := removeRegion_notManaged hrem
        refine ⟨⟨hal, hn, hle, hsplit⟩, ht, fun x => ?_, rfl⟩
        refine ⟨fun hx => ⟨hx, fun hin => ?_⟩, fun hx => hx.1⟩
        obtain ⟨r, hr, hxr⟩ := hx
        have hap' := Region.apart_of_not_overlap (findOverlap_none.mp hov r hr)
        rw [Region.mem_pts] at hxr
        rw [Set.mem_Ico] at hin
        unfold Region.Apart Region.stop at hap'
        unfold Region.stop at hxr
        simp only at hap'
        omega
  · cases h

end Apply

/-! ## 3. The invariant of the state -/

/-- **The regions are apart and mapped, the mapped pages are user space, the fresh set is sorted and
    coalesced.** -/
structure Epoch.Wf (e : Epoch) : Prop where
  tiled : Tiled e.mrm.regions
  mapped : ∀ x ∈ regionPts e.mrm.regions, e.pages (x / 4096) = true
  user : ∀ p, e.pages p = true → p < 2 ^ 35
  fresh : e.fresh.Wf

/-- The first byte of a managed byte's page is managed: bases are page-aligned. -/
theorem Tiled.page_mem {regions : List Region} (h : Tiled regions) {x : ℕ}
    (hx : x ∈ regionPts regions) : x - x % 4096 ∈ regionPts regions := by
  obtain ⟨r, hr, hxr⟩ := hx
  have hal := h.aligned r hr
  rw [Region.mem_pts] at hxr
  refine ⟨r, hr, Region.mem_pts.mpr ?_⟩
  omega

/-- No managed byte shares a page with an interval that holds none. -/
theorem Tiled.not_inPages {regions : List Region} (h : Tiled regions) {addr size x : ℕ}
    (ha : addr % 4096 = 0) (hd : ∀ y ∈ regionPts regions, y ∉ Set.Ico addr (addr + size))
    (hx : x ∈ regionPts regions) : inPages addr size (x / 4096) = false := by
  rw [Bool.eq_false_iff]
  intro hin
  rw [inPages_iff ha] at hin
  refine hd _ (h.page_mem hx) ?_
  rw [Set.mem_Ico]
  omega

theorem lt_of_page {p x : ℕ} (h : p < 2 ^ 35) (hx : x / 4096 = p) : x < 2 ^ 47 := by omega

section Wf

variable {e e' : Epoch}

theorem Epoch.Wf.lt (h : e.Wf) {x : ℕ} (hx : e.pages (x / 4096) = true) : x < 2 ^ 47 :=
  lt_of_page (h.user _ hx) rfl

/-- A store to mapped memory does not wrap. -/
theorem Epoch.Wf.store_lt (h : e.Wf) {addr : ℕ} {bytes : List ℕ}
    (hen : (Op.store addr bytes).Enabled e) : addr + bytes.length < 2 ^ 64 := by
  have hpos : 0 < bytes.length := List.length_pos_of_ne_nil hen.1
  have hlt := h.lt (hen.2.2 (bytes.length - 1) (by omega))
  omega

/-- **Every operation keeps the invariant.** -/
theorem wf_apply {op : Op} (h : e.Wf) (hs : e.apply op = some e') : e'.Wf := by
  cases op with
  | store addr bytes =>
      obtain ⟨-, rfl⟩ := apply_store hs
      exact ⟨h.tiled, h.mapped, h.user, h.fresh⟩
  | mmap ret size fileId =>
      obtain ⟨⟨hal, hpos, hn, hle, -, -⟩, hap, rfl⟩ := apply_mmap hs
      have hsz := toUint_le size
      refine ⟨h.tiled.snoc hap ⟨hpos, hn⟩ hal hle, fun x hx => ?_, fun p hp => ?_,
        Ranges.wf_insert h.fresh (by omega)⟩
      · rw [regionPts_snoc, Set.mem_union, Set.mem_Ico] at hx
        rcases hx with hx | hx
        · simp only [h.mapped x hx, Bool.or_true]
        · have hin : inPages ret size (x / 4096) = true := by
            rw [inPages_iff hal]
            omega
          simp only [hin, Bool.true_or]
      · rw [Bool.or_eq_true] at hp
        rcases hp with hp | hp
        · simp only [inPages, Bool.and_eq_true, decide_eq_true_eq] at hp
          omega
        · exact h.user p hp
  | munmap addr size rightId leftId =>
      obtain ⟨⟨hal, hn, hle, -⟩, ht, hpts, he⟩ := apply_munmap h.tiled hs
      have hsz := toUint_le size
      rw [he]
      refine ⟨ht, fun x hx => ?_, fun p hp => ?_, Ranges.wf_remove h.fresh (by omega)⟩
      · have hout := ht.not_inPages hal (fun y hy => ((hpts y).mp hy).2) hx
        simp only [hout, h.mapped x ((hpts x).mp hx).1, Bool.not_false, Bool.and_self]
      · rw [Bool.and_eq_true] at hp
        exact h.user p hp.2

end Wf

/-! ## 4. The process right after a start -/

/-- The pages of a list of regions. -/
def regionPages (regions : List Region) (p : ℕ) : Bool :=
  regions.any fun r => inPages r.base r.size p

/-- **The epoch a recovered process starts with**: the manager's regions mapped from their files. -/
def Epoch.boot (m : Manager) (d : Files) : Epoch where
  mrm := m
  files := { d with cache := d.pm }
  other _ := 0
  pages := regionPages m.regions
  fresh := Ranges.empty
  log := []
  newly _ := false
  dirty _ := false

theorem boot_fresh (m : Manager) (d : Files) : (Epoch.boot m d).Fresh :=
  ⟨rfl, rfl, fun _ => rfl, fun _ => rfl⟩

theorem boot_wf {m : Manager} (h : Tiled m.regions) (d : Files) : (Epoch.boot m d).Wf where
  tiled := h
  mapped x hx := by
    obtain ⟨r, hr, hxr⟩ := hx
    rw [Region.mem_pts] at hxr
    unfold Region.stop at hxr
    refine List.any_eq_true.mpr ⟨r, hr, ?_⟩
    rw [inPages_iff (h.aligned r hr)]
    omega
  user p hp := by
    obtain ⟨r, hr, hin⟩ := List.any_eq_true.mp hp
    have hu := h.user r hr
    unfold Region.stop at hu
    simp only [inPages, Bool.and_eq_true, decide_eq_true_eq] at hin
    omega
  fresh := Ranges.wf_empty

/-- An epoch run on a list of operations. -/
def Epoch.runOps (e : Epoch) : List Op → Option Epoch
  | [] => some e
  | op :: ops => (e.apply op).bind fun e' => e'.runOps ops

/-- Every step of the run meets a condition. -/
def Epoch.Meets (ok : Epoch → Op → Prop) (e : Epoch) : List Op → Prop
  | [] => True
  | op :: ops => ok e op ∧ ∀ e' ∈ e.apply op, e'.Meets ok ops

instance decidableMeets (ok : Epoch → Op → Prop) [∀ e op, Decidable (ok e op)] (ops : List Op)
    (e : Epoch) : Decidable (e.Meets ok ops) :=
  match ops with
  | [] => isTrue trivial
  | _ :: ops =>
      have : ∀ e' : Epoch, Decidable (e'.Meets ok ops) := decidableMeets ok ops
      inferInstanceAs (Decidable (_ ∧ ∀ e' ∈ e.apply _, e'.Meets ok ops))

theorem runs_of_runOps {ok : Epoch → Op → Prop} {e e' : Epoch} {ops : List Op}
    (hok : e.Meets ok ops) (h : e.runOps ops = some e') : Runs Epoch.Step ok e e' := by
  induction ops generalizing e with
  | nil =>
      cases h
      exact .start
  | cons op ops ih =>
      obtain ⟨e1, h1, h2⟩ := Option.bind_eq_some_iff.mp h
      exact (Runs.start.step op hok.1 h1).trans (ih (hok.2 e1 h1) h2)

end Persimmon
