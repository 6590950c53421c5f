/-
  File:      Persimmon/SyscallEvents.lean
  Subject:   THE SYSTEM CALLS OF THE APPLICATION, as the instrumentation handles them
             (src/undo/instrument.cc: `event_filter_syscall`, `event_pre_syscall`,
             `event_post_syscall`, `last_syscall`).

  `Epoch.lean` has an `mmap` and a `munmap` as one operation each. What the background does is two
  events around an `mmap` that the kernel performs, and one event in the place of a `munmap` of
  managed memory; which of the two happens is decided from the call's number and parameters and from
  what the kernel returns.

  * `SysCall`, `Answer`, `Hooked` -- a system call, what the kernel makes of it, and the state of the
    event handlers; `filterSyscall`, `preSyscall`, `postSyscall` -- the handlers;
  * `Hooked.syscall` -- a system call with its events; `syscall_completes_iff` -- which ones get
    through the assertions; `syscall_mmap_empty` -- why those of length 0 are left out of it;
  * `AppAct`, `Hooked.run` -- stores and system calls, one after another;
  * `hooked_refines` -- a run of them is a run of the epoch's operations, and of those on its image;
    no state is left over from one call to the next, and the application is returned what the
    kernel would have returned to it.
-/
import Persimmon.Image
import Persimmon.RegionTable

namespace Persimmon

/-! ## 1. Calls, and what is kept between two events -/

def sysMmap : ℤ := 9

def sysMunmap : ℤ := 11

def sysBrk : ℤ := 12

/-- `MAP_PRIVATE | MAP_ANONYMOUS` -/
def mapPrivateAnonymous : ℤ := 0x22

/-- `MAP_FAILED` -/
def mapFailed : ℕ := 2 ^ 64 - 1

/-- A system call, with those of its parameters that are looked at, as the registers hold them. -/
structure SysCall where
  sysnum : ℤ
  addr : ℕ
  size : ℕ
  prot : ℕ
  flags : ℕ
  deriving DecidableEq, Repr

/-- What the system calls under a call do: the register the kernel returns its result in, and the
    calls of `replace_region` and `remove_region`. -/
structure Answer where
  ret : ℕ
  replace : ReplaceOutcome
  remove : RemoveOutcome
  deriving DecidableEq, Repr

/-- The register holds an error number: its last 4095 values do. -/
def Answer.Failed (a : Answer) : Prop := 2 ^ 64 - 4096 < a.ret

instance (a : Answer) : Decidable a.Failed := inferInstanceAs (Decidable (_ < _))

/-- `last_syscall` -/
structure LastSyscall where
  sysnum : ℤ
  addr : ℕ
  size : ℕ
  deriving DecidableEq, Repr

/-- The epoch, and the variables of the handlers. -/
structure Hooked where
  epoch : Epoch
  last : LastSyscall
  /-- `region_table_modified` -/
  modified : Bool

/-- `static_cast<int>(res)` -/
def Result.toInt : Result → ℤ
  | .success => 0
  | .notManaged => 1
  | .error => -1

/-! ## 2. The handlers -/

/-- **`event_filter_syscall`**: whether the other two handlers are called; no result when the
    assertion fails. -/
def filterSyscall (sysnum : ℤ) : Option Bool :=
  if sysnum = sysMmap ∨ sysnum = sysMunmap then some true
  else if sysnum = sysBrk then none
  else some false

/-- The kernel takes pages away. A byte whose region changes has been copied to a new file. -/
def Epoch.unmap (e : Epoch) (addr size : ℕ) (m : Manager) : Epoch :=
  { e with
    pages := fun p => !inPages addr size p && e.pages p
    dirty := fun x => !inPages addr size (x / 4096) &&
      decide (m.regionAt x = e.mrm.regionAt x) && e.dirty x }

/-- `undo_log_remove_fresh_region`, which takes the size as `uint`. -/
def Epoch.trim (e : Epoch) (addr size : ℕ) : Epoch :=
  { e with fresh := e.fresh.remove addr (toUint size) }

/-- What `remove_region` leaves, when it manages the memory: `unmapped` says that its `munmap`
    succeeds. -/
def Epoch.remapped (e : Epoch) (addr size : ℕ) (unmapped : Bool) (m : Manager) (d : Files) : Epoch :=
  { (if unmapped = true then e.unmap addr size m else e) with mrm := m, files := d }

/-- **`event_pre_syscall`**: the state, and the result when the call is not to be performed. -/
def preSyscall (s : Hooked) (c : SysCall) (o : RemoveOutcome) : Option (Hooked × Option ℤ) :=
  if c.sysnum ≠ sysMmap ∧ c.sysnum ≠ sysMunmap then some (s, none)
  else if c.sysnum = sysMunmap then
    let e := s.epoch.trim c.addr c.size
    match e.mrm.removeRegion e.files e.view c.addr c.size o with
    | none => none
    | some (.notManaged, _, _) => some ({ s with epoch := e }, none)
    | some (res, m, d) =>
        some ({ s with epoch := e.remapped c.addr c.size o.unmapped m d, modified := true },
          some res.toInt)
  else if s.last.sysnum ≠ -1 then none
  else if c.addr ≠ 0 ∨ toInt c.prot % 2 = 0 ∨ toInt c.flags ≠ mapPrivateAnonymous then none
  else some ({ s with last := ⟨c.sysnum, c.addr, c.size⟩ }, none)

/-- **`event_post_syscall`**; no result when an assertion fails. Anonymous memory reads as zero. -/
def postSyscall (s : Hooked) (sysnum : ℤ) (ret : ℕ) (o : ReplaceOutcome) : Option Hooked :=
  if sysnum ≠ sysMmap ∧ sysnum ≠ sysMunmap then some s
  else if s.last.sysnum = sysMmap ∧ ret ≠ mapFailed then
    match s.epoch.mrm.replaceRegion s.epoch.files (fun _ => 0) ret s.last.size o with
    | some (.success, m, d) =>
        some {
          epoch := { s.epoch with
            mrm := m
            files := d
            fresh := s.epoch.fresh.insert ret (toUint s.last.size) }
          last := { s.last with sysnum := -1 }
          modified := true }
    | _ => none
  else some { s with last := { s.last with sysnum := -1 } }

/-- What the kernel does to the pages when it performs the call. -/
def Epoch.kernel (e : Epoch) (c : SysCall) (a : Answer) : Epoch :=
  if a.Failed then e
  else if c.sysnum = sysMmap then
    { e with
      pages := fun p => inPages a.ret c.size p || e.pages p
      newly := fun x => (decide (a.ret ≤ x) && decide (x < a.ret + c.size)) || e.newly x
      dirty := fun x => !inPages a.ret c.size (x / 4096) && e.dirty x }
  else if c.sysnum = sysMunmap then e.unmap c.addr c.size e.mrm
  else e

/-- **A system call with its events**: the state behind it, and what the application is returned.
    Calls other than `mmap` and `munmap` are taken to leave the managed memory alone. -/
def Hooked.syscall (s : Hooked) (c : SysCall) (a : Answer) : Option (Hooked × ℤ) :=
  match filterSyscall c.sysnum with
  | none => none
  | some false => some (s, a.ret)
  | some true =>
      match preSyscall s c a.remove with
      | none => none
      | some (s1, some r) => some (s1, r)
      | some (s1, none) =>
          (postSyscall { s1 with epoch := s1.epoch.kernel c a } c.sysnum a.ret a.replace).map
            fun s2 => (s2, (a.ret : ℤ))

/-! ## 3. Which calls get through -/

/-- What the kernel promises about a call: an address it returns is no error number, and no file can
    be written from memory that is not there, unless nothing is written. -/
structure Answer.Kernel (c : SysCall) (a : Answer) : Prop where
  reg : a.ret < 2 ^ 64
  failed : a.Failed → 0 < c.size → ¬ a.replace.Succeeds

instance (c : SysCall) (a : Answer) : Decidable (a.Kernel c) :=
  decidable_of_iff (a.ret < 2 ^ 64 ∧ (a.Failed → 0 < c.size → ¬ a.replace.Succeeds))
    ⟨fun h => ⟨h.1, h.2⟩, fun h => ⟨h.reg, h.failed⟩⟩

/-- **The memory a call is about is not empty.** `replace_region` writes nothing for an `mmap` of
    length 0, so that it succeeds at the very error number the kernel has returned. -/
def SysCall.NonEmpty (c : SysCall) : Prop := c.sysnum = sysMmap ∨ c.sysnum = sysMunmap → 0 < c.size

instance (c : SysCall) : Decidable c.NonEmpty := inferInstanceAs (Decidable (_ → _))

section Passes

variable {s : Hooked} {c : SysCall} {a : Answer}

theorem Tiled.spread {regions : List Region} (h : Tiled regions) : Spread regions :=
  ⟨h.apart, fun r hr => (h.pos r hr).2, fun r hr => lt_of_le_of_lt (h.user r hr) (by decide)⟩

/-- `replace_region` succeeds when nothing overlaps and its system calls succeed. -/
theorem replaceRegion_success_iff {m : Manager} {d : Files} {mem : ℕ → ℕ} {base size : ℕ}
    {o : ReplaceOutcome} :
    (∃ m' d', m.replaceRegion d mem base size o = some (.success, m', d')) ↔
      o.Succeeds ∧ findOverlap m.regions ⟨base, size, o.fileId⟩ = none := by
  constructor
  · rintro ⟨m', d', h⟩
    cases hov : findOverlap m.regions ⟨base, size, o.fileId⟩ with
    | some i => simp [Manager.replaceRegion, hov] at h
    | none =>
        refine ⟨?_, rfl⟩
        by_contra hno
        obtain ⟨d1, he⟩ := @replaceRegion_eq _ d mem _ _ o hov
        rw [if_neg hno, h] at he
        cases he
  · rintro ⟨hok, hov⟩
    obtain ⟨d1, he⟩ := @replaceRegion_eq _ d mem _ _ o hov
    rw [if_pos hok] at he
    exact ⟨_, _, he⟩

/-- `remove_region` gets through its assertions when the interval lies in each region it meets. -/
theorem removeRegion_isSome_iff {m : Manager} {d : Files} {mem : ℕ → ℕ} {base size : ℕ}
    {o : RemoveOutcome} (h : Spread m.regions) (hn : 0 < size) :
    (m.removeRegion d mem base size o).isSome = true ↔
      ∀ r ∈ m.regions, ¬ r.Apart ⟨base, size, 0⟩ → r.base ≤ base ∧ base + size ≤ r.stop := by
  constructor
  · intro hsome r hr hmeet
    cases hov : findOverlap m.regions ⟨base, size, 0⟩ with
    | none => exact absurd (Region.apart_of_not_overlap (findOverlap_none.mp hov r hr)) hmeet
    | some i =>
        obtain ⟨hi, -⟩ := findOverlap_some hov
        have hinc : m.regions[i].doesInclude ⟨base, size, 0⟩ = true := by
          by_contra hno
          rw [Bool.not_eq_true] at hno
          simp [Manager.removeRegion, hov, List.getElem?_eq_getElem hi, hno] at hsome
        obtain ⟨h1, h2⟩ := (Region.doesInclude_iff hn).mp hinc
        by_cases heq : m.regions[i] = r
        · exact heq ▸ ⟨h1, h2⟩
        · -- the regions lie apart, so what lies in one meets no other
          have hap : m.regions[i].Apart r := h.apart.forall (List.getElem_mem hi) hr heq
          refine absurd ?_ hmeet
          unfold Region.Apart Region.stop at *
          simp only at *
          omega
  · intro hall
    cases hov : findOverlap m.regions ⟨base, size, 0⟩ with
    | none => simp [Manager.removeRegion, hov]
    | some i =>
        obtain ⟨hi, hover⟩ := findOverlap_some hov
        have hmeet : ¬ m.regions[i].Apart ⟨base, size, 0⟩ := fun hap => by
          rw [← Region.overlap_false_iff (h.pos _ (List.getElem_mem hi)) hn, hover] at hap
          cases hap
        obtain ⟨h1, h2⟩ := hall _ (List.getElem_mem hi) hmeet
        obtain ⟨d', he⟩ := @removeRegion_eq _ d mem _ _ h hn _ hi hov h1 h2 o
        rw [he]
        rfl

/-- An `mmap` whose parameters are supported: the kernel performs it, and the second event follows. -/
theorem syscall_mmap (hc : c.sysnum = sysMmap) (hlast : s.last.sysnum = -1) :
    s.syscall c a =
      if c.addr ≠ 0 ∨ toInt c.prot % 2 = 0 ∨ toInt c.flags ≠ mapPrivateAnonymous then none
      else (postSyscall ⟨s.epoch.kernel c a, ⟨sysMmap, c.addr, c.size⟩, s.modified⟩ sysMmap a.ret
        a.replace).map fun s2 => (s2, (a.ret : ℤ)) := by
  have hne : sysMmap ≠ sysMunmap := by decide
  unfold Hooked.syscall filterSyscall preSyscall
  simp only [hc, true_or, if_true, ne_eq, not_true_eq_false, false_and, if_false, hne, hlast]
  split_ifs with h
  · rfl
  · rfl

/-- A `munmap`: the handler performs it on managed memory, the kernel elsewhere. -/
theorem syscall_munmap (hc : c.sysnum = sysMunmap) (hlast : s.last.sysnum = -1) :
    s.syscall c a =
      match s.epoch.mrm.removeRegion s.epoch.files s.epoch.view c.addr c.size a.remove with
      | none => none
      | some (.notManaged, _, _) =>
          some ({ s with epoch := (s.epoch.trim c.addr c.size).kernel c a }, (a.ret : ℤ))
      | some (res, m, d) =>
          some (⟨(s.epoch.trim c.addr c.size).remapped c.addr c.size a.remove.unmapped m d, s.last,
            true⟩, res.toInt) := by
  have hne : sysMunmap ≠ sysMmap := by decide
  have hpost : ∀ e : Epoch, postSyscall { s with epoch := e } sysMunmap a.ret a.replace =
      some { s with epoch := e } := by
    intro e
    obtain ⟨e0, ⟨n, addr, size⟩, modified⟩ := s
    obtain rfl : n = -1 := hlast
    rfl
  unfold Hooked.syscall filterSyscall preSyscall
  simp only [hc, or_true, if_true, ne_eq, hne, not_true_eq_false, and_false, if_false]
  have htrim : (s.epoch.trim c.addr c.size).mrm.removeRegion (s.epoch.trim c.addr c.size).files
      (s.epoch.trim c.addr c.size).view c.addr c.size a.remove =
        s.epoch.mrm.removeRegion s.epoch.files s.epoch.view c.addr c.size a.remove := rfl
  rw [htrim]
  cases s.epoch.mrm.removeRegion s.epoch.files s.epoch.view c.addr c.size a.remove with
  | none => rfl
  | some r =>
      obtain ⟨res, m, d⟩ := r
      cases res with
      | success => rfl
      | error => rfl
      | notManaged =>
          simp only
          rw [hpost]
          rfl

/-- What the event after an `mmap` leaves. -/
theorem postSyscall_some {s' : Hooked} {ret : ℕ} {o : ReplaceOutcome} (h : s.last.sysnum = sysMmap)
    (hpost : postSyscall s sysMmap ret o = some s') :
    (ret = mapFailed ∧ s' = { s with last := { s.last with sysnum := -1 } }) ∨
      ret ≠ mapFailed ∧ ∃ m d,
        s.epoch.mrm.replaceRegion s.epoch.files (fun _ => 0) ret s.last.size o =
          some (.success, m, d) ∧
        s' = ⟨{ s.epoch with
          mrm := m, files := d, fresh := s.epoch.fresh.insert ret (toUint s.last.size) },
          { s.last with sysnum := -1 }, true⟩ := by
  unfold postSyscall at hpost
  rw [if_neg (by simp)] at hpost
  by_cases hret : ret = mapFailed
  · rw [if_neg (fun hc => hc.2 hret)] at hpost
    exact Or.inl ⟨hret, (Option.some.inj hpost).symm⟩
  · rw [if_pos ⟨h, hret⟩] at hpost
    split at hpost
    · rename_i m d hrep
      exact Or.inr ⟨hret, m, d, hrep, (Option.some.inj hpost).symm⟩
    · cases hpost

/-- **An `mmap` of length 0**: the kernel refuses it, no byte has to be written and the second `mmap`
    fails with the same number, so that this is the base of a new region of length 0. -/
theorem syscall_mmap_empty (hc : c.sysnum = sysMmap) (hlast : s.last.sysnum = -1)
    (haddr : c.addr = 0) (hprot : toInt c.prot % 2 = 1)
    (hflags : toInt c.flags = mapPrivateAnonymous) (hsize : c.size = 0) (hf : a.Failed)
    (hret : a.ret ≠ mapFailed) (hok : a.replace.Succeeds)
    (hfree : findOverlap s.epoch.mrm.regions ⟨a.ret, 0, a.replace.fileId⟩ = none) :
    ∃ s', s.syscall c a = some (s', (a.ret : ℤ)) ∧
      s'.epoch.mrm.regions = (s.epoch.mrm.add a.ret 0 a.replace.fileId).regions := by
  obtain ⟨d, he⟩ := @replaceRegion_eq _ s.epoch.files (fun _ => 0) _ _ a.replace hfree
  rw [if_pos hok] at he
  have hkernel : s.epoch.kernel c a = s.epoch := if_pos hf
  rw [syscall_mmap hc hlast, if_neg (by simp [haddr, hprot, hflags]), hkernel, postSyscall,
    if_neg (by simp), if_pos ⟨rfl, hret⟩, hsize]
  simp only [he, Option.map_some]
  exact ⟨_, rfl, rfl⟩

/-- `remove_region` reports no error when its system calls succeed. -/
theorem removeRegion_ok_ne_error {m m' : Manager} {d d' : Files} {mem : ℕ → ℕ}
    {base size rightId leftId : ℕ} (h : Spread m.regions) (hn : 0 < size) :
    m.removeRegion d mem base size (RemoveOutcome.ok rightId leftId) ≠ some (.error, m', d') := by
  intro he
  have hall := (@removeRegion_isSome_iff _ d mem _ _ (RemoveOutcome.ok rightId leftId) h hn).mp
    (by rw [he]; rfl)
  cases hov : findOverlap m.regions ⟨base, size, 0⟩ with
  | none => simp [Manager.removeRegion, hov] at he
  | some i =>
      obtain ⟨hi, hover⟩ := findOverlap_some hov
      have hmeet : ¬ m.regions[i].Apart ⟨base, size, 0⟩ := fun hap => by
        rw [← Region.overlap_false_iff (h.pos _ (List.getElem_mem hi)) hn, hover] at hap
        cases hap
      obtain ⟨h1, h2⟩ := hall _ (List.getElem_mem hi) hmeet
      obtain ⟨d1, he'⟩ := @removeRegion_eq _ d mem _ _ h hn _ hi hov h1 h2
        (RemoveOutcome.ok rightId leftId)
      rw [he, removed_ok] at he'
      cases he'

end Passes

/-! ## 4. Runs of the application -/

/-- What the application does: a store, which `record_write` precedes, or a system call. -/
inductive AppAct where
  | store (addr : ℕ) (bytes : List ℕ)
  | call (c : SysCall) (a : Answer)
  deriving DecidableEq, Repr

/-- **The operation of an epoch** that a store or a system call comes to, if any. -/
def AppAct.op : AppAct → Option Op
  | .store addr bytes => some (.store addr bytes)
  | .call c a =>
      if c.sysnum = sysMmap then
        if a.Failed then none else some (.mmap a.ret c.size a.replace.fileId)
      else if c.sysnum = sysMunmap then
        some (.munmap c.addr c.size a.remove.right.fileId a.remove.left.fileId)
      else none

/-- What the kernel returns for it, when nothing stands between. -/
def AppAct.ret : AppAct → Option ℤ
  | .store _ _ => none
  | .call _ a => some a.ret

/-- **The kernel serves the application**: a store goes to mapped memory, no `mmap` and no `munmap` is
    of length 0, an `mmap` that does not fail returns free pages, a `munmap` succeeds, and so do the
    system calls of `remove_region`. -/
def AppAct.Served (e : Epoch) : AppAct → Prop
  | .store addr bytes => (Op.store addr bytes).Enabled e
  | .call c a =>
      a.Kernel c ∧ c.NonEmpty ∧
        (c.sysnum = sysMmap → ¬ a.Failed → (Op.mmap a.ret c.size a.replace.fileId).Enabled e) ∧
        (c.sysnum = sysMunmap → a.ret = 0 ∧
          a.remove = RemoveOutcome.ok a.remove.right.fileId a.remove.left.fileId ∧
          (Op.munmap c.addr c.size a.remove.right.fileId a.remove.left.fileId).Enabled e)

instance (e : Epoch) (act : AppAct) : Decidable (act.Served e) :=
  match act with
  | .store addr bytes => inferInstanceAs (Decidable ((Op.store addr bytes).Enabled e))
  | .call _ _ => inferInstanceAs (Decidable (_ ∧ _ ∧ (_ → _ → _) ∧ (_ → _ ∧ _ ∧ _)))

/-- A store, or a system call with its events. -/
def Hooked.step (s : Hooked) : AppAct → Option (Hooked × Option ℤ)
  | .store addr bytes => some ({ s with epoch := s.epoch.store addr bytes }, none)
  | .call c a => (s.syscall c a).map fun r => (r.1, some r.2)

/-- Some of them, one after another: the state, and what the system calls return. -/
def Hooked.run (s : Hooked) : List AppAct → Option (Hooked × List ℤ)
  | [] => some (s, [])
  | act :: acts =>
      (s.step act).bind fun r => (r.1.run acts).map fun r' => (r'.1, r.2.toList ++ r'.2)

/-- The kernel serves each of them. -/
def Hooked.Serves (s : Hooked) : List AppAct → Prop
  | [] => True
  | act :: acts => act.Served s.epoch ∧ ∀ r ∈ s.step act, r.1.Serves acts

instance decidableServes (acts : List AppAct) (s : Hooked) : Decidable (s.Serves acts) :=
  match acts with
  | [] => isTrue trivial
  | _ :: acts =>
      have : ∀ s' : Hooked, Decidable (s'.Serves acts) := decidableServes acts
      inferInstanceAs (Decidable (_ ∧ ∀ r ∈ s.step _, r.1.Serves acts))

/-- **Between two system calls**: nothing is left over of the last one, and `region_table_modified`
    is set when the regions are not those of `regions`. -/
structure Settled (regions : List Region) (s : Hooked) : Prop where
  last : s.last.sysnum = -1
  modified : s.modified = false → s.epoch.mrm.regions = regions

section Runs

variable {s s' : Hooked} {act : AppAct} {r : Option ℤ} {regions : List Region}

/-- What a step has done: the operation it comes to, what is returned, and nothing left over. -/
structure Refines (s : Hooked) (act : AppAct) (s' : Hooked) (r : Option ℤ) : Prop where
  epoch : act.op.elim (some s.epoch) s.epoch.apply = some s'.epoch
  ret : r = act.ret
  settled : ∀ regions, Settled regions s → Settled regions s'

theorem refines_mmap {c : SysCall} {a : Answer} (hc : c.sysnum = sysMmap) (hlast : s.last.sysnum = -1)
    (hserved : (AppAct.call c a).Served s.epoch) (h : s.step (.call c a) = some (s', r)) :
    Refines s (.call c a) s' r := by
  obtain ⟨hkernel, hn, hmmap, -⟩ := hserved
  simp only [Hooked.step, syscall_mmap hc hlast] at h
  split_ifs at h
  · cases h
  simp only [Option.map_map, Option.map_eq_some_iff, Function.comp, Prod.mk.injEq] at h
  obtain ⟨s1, hpost, rfl, rfl⟩ := h
  by_cases hf : a.Failed
  · have hop : (AppAct.call c a).op = none := by simp [AppAct.op, hc, hf]
    have hepoch : s.epoch.kernel c a = s.epoch := if_pos hf
    rcases postSyscall_some rfl hpost with ⟨-, rfl⟩ | ⟨-, m, d, hrep, -⟩
    · refine ⟨?_, rfl, fun regions hs => ⟨rfl, fun hm => ?_⟩⟩
      · rw [hop]
        exact congrArg some hepoch.symm
      · exact (congrArg (·.mrm.regions) hepoch).trans (hs.modified hm)
    · exact absurd (replaceRegion_success_iff.mp ⟨m, d, hrep⟩).1
        (hkernel.failed hf (hn (Or.inl hc)))
  · have hop : (AppAct.call c a).op = some (.mmap a.ret c.size a.replace.fileId) := by
      simp [AppAct.op, hc, hf]
    rcases postSyscall_some rfl hpost with ⟨hret, -⟩ | ⟨-, m, d, hrep, rfl⟩
    · refine absurd ?_ hf
      rw [Answer.Failed, hret]
      decide
    · have hok : a.replace = ReplaceOutcome.ok a.replace.fileId := by
        obtain ⟨hp, hm, hcl⟩ := (replaceRegion_success_iff.mp ⟨m, d, hrep⟩).1
        generalize a.replace = o at hp hm hcl
        obtain ⟨fileId, p, q, t⟩ := o
        simp only at hp hm hcl
        subst hp hm hcl
        rfl
      have hepoch : s.epoch.kernel c a = { s.epoch with
          pages := fun p => inPages a.ret c.size p || s.epoch.pages p
          newly := fun x => (decide (a.ret ≤ x) && decide (x < a.ret + c.size)) || s.epoch.newly x
          dirty := fun x => !inPages a.ret c.size (x / 4096) && s.epoch.dirty x } := by
        rw [Epoch.kernel, if_neg hf, if_pos hc]
      refine ⟨?_, rfl, fun regions hs => ⟨rfl, fun hm => Bool.noConfusion hm⟩⟩
      rw [hepoch] at hrep ⊢
      rw [hok] at hrep
      rw [hop, Option.elim_some, Epoch.apply, if_pos (hmmap hc hf)]
      simp only [Epoch.mmap, hrep]

theorem refines_munmap {c : SysCall} {a : Answer} (hwf : s.epoch.Wf) (hc : c.sysnum = sysMunmap)
    (hlast : s.last.sysnum = -1) (hserved : (AppAct.call c a).Served s.epoch)
    (h : s.step (.call c a) = some (s', r)) : Refines s (.call c a) s' r := by
  obtain ⟨-, -, -, hmunmap⟩ := hserved
  obtain ⟨hret, hok, hen⟩ := hmunmap hc
  have hne : sysMunmap ≠ sysMmap := by decide
  have hop : (AppAct.call c a).op =
      some (.munmap c.addr c.size a.remove.right.fileId a.remove.left.fileId) := by
    simp [AppAct.op, hc, hne]
  have happly : s.epoch.apply (.munmap c.addr c.size a.remove.right.fileId a.remove.left.fileId) =
      s.epoch.munmap c.addr c.size a.remove.right.fileId a.remove.left.fileId := if_pos hen
  rw [Epoch.munmap, ← hok] at happly
  simp only [Hooked.step, syscall_munmap hc hlast] at h
  cases hrem : s.epoch.mrm.removeRegion s.epoch.files s.epoch.view c.addr c.size a.remove with
  | none =>
      rw [hrem] at h
      cases h
  | some res =>
      obtain ⟨res, m, d⟩ := res
      rw [hrem] at h happly
      cases res with
      | error =>
          rw [hok] at hrem
          exact absurd hrem (removeRegion_ok_ne_error hwf.tiled.spread hen.2.1)
      | notManaged =>
          obtain ⟨-, rfl, rfl⟩ := removeRegion_notManaged hrem
          simp only [Option.map_some, Option.some.injEq, Prod.mk.injEq] at h
          obtain ⟨rfl, rfl⟩ := h
          have hnf : ¬ a.Failed := by
            rw [Answer.Failed, hret]
            decide
          have hepoch : (s.epoch.trim c.addr c.size).kernel c a =
              (s.epoch.trim c.addr c.size).unmap c.addr c.size s.epoch.mrm := by
            rw [Epoch.kernel, if_neg hnf, if_neg (by rw [hc]; exact hne), if_pos hc]
            rfl
          refine ⟨?_, rfl, fun regions hs => ⟨hlast, fun hm => ?_⟩⟩
          · rw [hop, Option.elim_some, happly]
            exact congrArg some hepoch.symm
          · exact (congrArg (·.mrm.regions) hepoch).trans (hs.modified hm)
      | success =>
          simp only [Option.map_some, Option.some.injEq, Prod.mk.injEq] at h
          obtain ⟨rfl, rfl⟩ := h
          refine ⟨?_, ?_, fun regions hs => ⟨hlast, fun hm => Bool.noConfusion hm⟩⟩
          · rw [hop, Option.elim_some, happly, hok]
            rfl
          · simp only [AppAct.ret, hret]
            rfl

/-- **A step with its events is an operation of the epoch, or none.** -/
theorem refines_step (hwf : s.epoch.Wf) (hlast : s.last.sysnum = -1) (hserved : act.Served s.epoch)
    (h : s.step act = some (s', r)) : Refines s act s' r := by
  cases act with
  | store addr bytes =>
      simp only [Hooked.step, Option.some.injEq, Prod.mk.injEq] at h
      obtain ⟨rfl, rfl⟩ := h
      exact ⟨if_pos hserved, rfl, fun regions hs => ⟨hs.last, hs.modified⟩⟩
  | call c a =>
      by_cases hmmap : c.sysnum = sysMmap
      · exact refines_mmap hmmap hlast hserved h
      by_cases hmunmap : c.sysnum = sysMunmap
      · exact refines_munmap hwf hmunmap hlast hserved h
      have hop : (AppAct.call c a).op = none := by simp [AppAct.op, hmmap, hmunmap]
      have hpass : s.syscall c a = none ∨ s.syscall c a = some (s, (a.ret : ℤ)) := by
        unfold Hooked.syscall filterSyscall
        rw [if_neg (not_or.mpr ⟨hmmap, hmunmap⟩)]
        split_ifs with hbrk
        · exact Or.inl rfl
        · exact Or.inr rfl
      simp only [Hooked.step] at h
      rcases hpass with hnone | hsome
      · rw [hnone] at h
        cases h
      · rw [hsome] at h
        simp only [Option.map_some, Option.some.injEq, Prod.mk.injEq] at h
        obtain ⟨rfl, rfl⟩ := h
        exact ⟨by rw [hop]; rfl, rfl, fun regions hs => hs⟩

/-- **A run with its events is a run of the epoch's operations**, and of these on the image the
    process has; nothing is left over of a system call, `region_table_modified` is set when a region
    has changed, and the system calls return what the kernel returned. -/
theorem hooked_refines {acts : List AppAct} {rets : List ℤ} (hwf : s.epoch.Wf)
    (hb : Backed s.epoch.files s.epoch.mrm.regions) (hs : Settled regions s)
    (hserved : s.Serves acts) (h : s.run acts = some (s', rets)) :
    s.epoch.runOps (acts.filterMap AppAct.op) = some s'.epoch ∧
      s'.epoch.image = (acts.filterMap AppAct.op).foldl Image.apply s.epoch.image ∧
      Settled regions s' ∧ rets = acts.filterMap AppAct.ret := by
  induction acts generalizing s rets with
  | nil =>
      simp only [Hooked.run, Option.some.injEq, Prod.mk.injEq] at h
      obtain ⟨rfl, rfl⟩ := h
      exact ⟨rfl, rfl, hs, rfl⟩
  | cons act acts ih =>
      obtain ⟨hact, hrest⟩ := hserved
      simp only [Hooked.run, Option.bind_eq_some_iff, Option.map_eq_some_iff, Prod.mk.injEq] at h
      obtain ⟨⟨s1, r⟩, hstep, ⟨s2, rets'⟩, hrun, rfl, rfl⟩ := h
      have href := refines_step hwf hs.last hact hstep
      have hserves := hrest (s1, r) hstep
      have hs1 := href.settled _ hs
      have hepoch := href.epoch
      have hrets : ∀ rs : List ℤ, rs = acts.filterMap AppAct.ret →
          r.toList ++ rs = (act :: acts).filterMap AppAct.ret := by
        intro rs hrs
        rw [href.ret, hrs, List.filterMap_cons]
        cases act.ret <;> rfl
      cases hop : act.op with
      | none =>
          rw [hop] at hepoch
          have he : s1.epoch = s.epoch := (Option.some.inj hepoch).symm
          obtain ⟨h1, h2, h3, h4⟩ := ih (he ▸ hwf) (he ▸ hb) hs1 hserves hrun
          rw [he] at h1 h2
          rw [List.filterMap_cons_none hop]
          exact ⟨h1, h2, h3, hrets _ h4⟩
      | some op =>
          rw [hop, Option.elim_some] at hepoch
          obtain ⟨h1, h2, h3, h4⟩ :=
            ih (wf_apply hwf hepoch) (backed_apply hwf hb hepoch) hs1 hserves hrun
          rw [List.filterMap_cons_some hop]
          refine ⟨?_, ?_, h3, hrets _ h4⟩
          · rw [Epoch.runOps, hepoch, Option.bind_some]
            exact h1
          · rw [List.foldl_cons, ← image_apply hwf hb hepoch]
            exact h2

end Runs

/-- The page at 8192 is managed, and in a file of fives. -/
def hookedOne : Hooked where
  epoch := Epoch.boot onePage ⟨fun n => decide (n = (8192, 0)), fun _ _ => 5, fun _ _ => 5⟩
  last := ⟨-1, 0, 0⟩
  modified := false

theorem hookedOne_wf : hookedOne.epoch.Wf := boot_wf (m := onePage) onePage_tiled _

/-- An `mmap` of a page. -/
def mmapPage : SysCall := ⟨sysMmap, 0, 4096, 3, 0x22⟩

/-- It returns `ret`; no file is made of memory that is not there. -/
def returns (ret : ℕ) : Answer := ⟨ret, ⟨1, decide (ret < 2 ^ 47), true, true⟩, RemoveOutcome.ok 0 0⟩

/-- A page is mapped and stored to, the managed one is unmapped, a page is refused, and a call that is
    let through. -/
def mapStoreUnmap : List AppAct :=
  [.call mmapPage (returns 4096), .store 4096 [9],
    .call ⟨sysMunmap, 8192, 4096, 0, 0⟩ { returns 0 with remove := RemoveOutcome.ok 2 3 },
    .call mmapPage (returns (2 ^ 64 - 1)), .call ⟨39, 0, 0, 0, 0⟩ (returns 7)]

theorem hooked_refines_mapStoreUnmap :
    ∃ s', hookedOne.run mapStoreUnmap = some (s', [4096, 0, 2 ^ 64 - 1, 7]) ∧
      s'.epoch.image = [Op.mmap 4096 4096 1, .store 4096 [9], .munmap 8192 4096 2 3].foldl
        Image.apply hookedOne.epoch.image ∧ s'.modified = true := by
  have hend : (hookedOne.run mapStoreUnmap).map (fun r => (r.2, r.1.modified)) =
      some ([4096, 0, 2 ^ 64 - 1, 7], true) := by decide
  obtain ⟨⟨s', rets⟩, hs, hfin⟩ := Option.map_eq_some_iff.mp hend
  rw [Prod.mk.injEq] at hfin
  obtain ⟨rfl, hmod⟩ := hfin
  have hback : Backed hookedOne.epoch.files hookedOne.epoch.mrm.regions := fun r hr => by
    rw [List.mem_singleton.mp hr]
    decide
  have hsettled : Settled onePage.regions hookedOne := ⟨rfl, fun _ => rfl⟩
  obtain ⟨-, himage, -, -⟩ := hooked_refines hookedOne_wf hback hsettled (by decide) hs
  exact ⟨s', hs, himage, hmod⟩

end Persimmon
