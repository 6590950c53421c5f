/-
  File:      Persimmon/EpochSafety.lean
  Subject:   WHAT A COMMIT AND A ROLLBACK REST ON, over every epoch (src/undo/undo_log.h:
             `undo_log_commit`, `undo_log_recover`).

  An epoch is any run of stores, `mmap`s and `munmap`s from an empty undo log and an empty fresh
  set. Three properties are wanted of the state it leaves, and for each the operations that break
  it are named by a condition on the state before a step:

  * `commit_flushes_stored` -- every byte stored and still mapped lies on a flushed line, when no
    `munmap` drops a fresh range that holds the only trace of a stored byte (`KeepsDirty`);
  * `undo_targets_committed` -- every undo entry lies in a region of the last committed table, when
    new memory is covered by the fresh set, no store straddles it, and none touches a committed
    region's last block where the region ends inside it (`KeepsFresh`, `NoStraddle`, `WholeBlocks`);
  * `commit_flushes_mapped` -- every flushed address is mapped, when no `munmap` takes away a logged
    block or leaves a fresh range behind (`UnmapsUnlogged`).
-/
import Persimmon.Epoch

namespace Persimmon

open Transition UndoReplay

/-! ## 1. Every stored byte is flushed -/

/-- A fresh range that the `remove` of an `munmap` does not carry over holds no stored byte that is
    not logged as well. -/
def KeepsDirty (e : Epoch) : Op → Prop
  | .munmap addr size _ _ =>
      toUint size = 0 ∨ ∀ r ∈ e.fresh.v, r.intersects ⟨addr, toUint size⟩ = true ∨
        ∀ x ∈ r.pts, e.dirty x = true → undoJournal.Logged e.log x
  | .store _ _ => True
  | .mmap _ _ _ => True

instance (log : List Entry) (x : ℕ) : Decidable (undoJournal.Logged log x) :=
  inferInstanceAs (Decidable (∃ e ∈ log, e.addr = blkStart x))

instance (e : Epoch) (op : Op) : Decidable (KeepsDirty e op) :=
  match op with
  | .munmap _ _ _ _ => inferInstanceAs (Decidable (_ ∨ ∀ r ∈ e.fresh.v, _ ∨ _))
  | .store _ _ => isTrue trivial
  | .mmap _ _ _ => isTrue trivial

/-- A stored byte is fresh, or its block is logged. -/
def DirtyCovered (e : Epoch) : Prop :=
  e.Wf ∧ ∀ x, e.dirty x = true → x ∈ e.fresh.pts ∨ undoJournal.Logged e.log x

/-- A removal of the interval keeps a fresh byte outside it whose range intersects it. -/
theorem mem_remove_toUint {rs : Ranges} (h : rs.Wf) {addr size x : ℕ} (hle : addr + size ≤ 2 ^ 47)
    {r : Range} (hr : r ∈ rs.v) (hx : x ∈ r.pts)
    (hi : toUint size = 0 ∨ r.intersects ⟨addr, toUint size⟩ = true)
    (hout : x ∉ Set.Ico addr (addr + size)) : x ∈ (rs.remove addr (toUint size)).pts := by
  have hsz := toUint_le size
  rcases Nat.eq_zero_or_pos (toUint size) with hz | hpos
  · rw [hz, Ranges.remove_zero]
    exact ⟨r, hr, hx⟩
  · rw [Ranges.mem_remove h.bound hpos (by omega)]
    refine ⟨r, hr, hi.resolve_left (by omega), hx, fun hin => hout ?_⟩
    rw [Set.mem_Ico] at hin ⊢
    omega

theorem dirtyCovered_apply {e e' : Epoch} {op : Op} (h : DirtyCovered e) (hok : KeepsDirty e op)
    (hs : e.apply op = some e') : DirtyCovered e' := by
  obtain ⟨hwf, hd⟩ := h
  refine ⟨wf_apply hwf hs, ?_⟩
  cases op with
  | store addr bytes =>
      obtain ⟨hen, rfl⟩ := apply_store hs
      have hlt := hwf.store_lt hen
      intro x hx
      by_cases hf : e.fresh.find addr bytes.length = true
      · rcases Bool.or_eq_true _ _ ▸ hx with hx | hx
        · exact Or.inl (Ranges.find_subset hlt hf (inStore_iff.mp hx))
        · exact (hd x hx).imp id logged_undoLogRecord_mono
      · rw [Bool.not_eq_true] at hf
        rcases Bool.or_eq_true _ _ ▸ hx with hx | hx
        · obtain ⟨h1, h2⟩ := inStore_iff.mp hx
          exact Or.inr (logged_undoLogRecord hf h1 h2)
        · exact (hd x hx).imp id logged_undoLogRecord_mono
  | mmap ret size fileId =>
      obtain ⟨⟨-, -, -, hle, -, -⟩, -, rfl⟩ := apply_mmap hs
      have hsz := toUint_le size
      intro x hx
      rw [Bool.and_eq_true] at hx
      refine (hd x hx.2).imp (fun h => ?_) id
      rw [Ranges.pts_insert hwf.fresh (by omega)]
      exact Or.inl h
  | munmap addr size rightId leftId =>
      obtain ⟨⟨hal, -, hle, -⟩, -, -, he⟩ := apply_munmap hwf.tiled hs
      rw [he]
      intro x hx
      simp only [Bool.and_eq_true, Bool.not_eq_true', decide_eq_true_eq] at hx
      obtain ⟨⟨hpage, -⟩, hdirty⟩ := hx
      have hout : x ∉ Set.Ico addr (addr + size) := by
        intro hin
        rw [Set.mem_Ico] at hin
        have : inPages addr size (x / 4096) = true := by
          rw [inPages_iff hal]
          omega
        rw [this] at hpage
        cases hpage
      rcases hd x hdirty with ⟨r, hr, hxr⟩ | hlog
      · rcases hok with hz | hok
        · exact Or.inl (mem_remove_toUint hwf.fresh hle hr hxr (Or.inl hz) hout)
        · rcases hok r hr with hi | hlogged
          · exact Or.inl (mem_remove_toUint hwf.fresh hle hr hxr (Or.inr hi) hout)
          · exact Or.inr (hlogged x hxr hdirty)
      · exact Or.inr hlog

/-- A byte that is fresh or logged lies on a line that a commit flushes. -/
theorem exists_commitFlush {log : List Entry} {fresh : Ranges} {x : ℕ}
    (h : x ∈ fresh.pts ∨ undoJournal.Logged log x) :
    ∃ q ∈ undoLogCommitFlushes log fresh, cacheLine q = cacheLine x := by
  rcases h with ⟨r, hr, hx⟩ | ⟨en, hen, hk⟩
  · obtain ⟨q, hq, hline⟩ := exists_freshFlush hx
    exact ⟨q, mem_commitFlushes.mpr (Or.inr ⟨r, hr, hq⟩), hline⟩
  · refine ⟨en.addr, mem_commitFlushes.mpr (Or.inl ⟨en, hen, rfl⟩), ?_⟩
    have hk' : en.addr = blkStart x := hk
    rw [hk', cacheLine_blkStart]

/-- **Commit durability**: in a run whose `munmap`s drop no fresh range that holds the only trace of
    a stored byte, every byte stored and still mapped lies on a line that the commit flushes. -/
theorem commit_flushes_stored {e0 e : Epoch} (hwf : e0.Wf) (h0 : e0.Fresh)
    (h : Runs Epoch.Step KeepsDirty e0 e) {x : ℕ} (hx : e.dirty x = true) :
    ∃ q ∈ undoLogCommitFlushes e.log e.fresh, cacheLine q = cacheLine x := by
  have hinv : DirtyCovered e := h.invariant
    ⟨hwf, fun y hy => absurd hy (by rw [h0.dirty y]; exact Bool.false_ne_true)⟩
    fun _ _ _ hi hok hs => dirtyCovered_apply hi hok hs
  exact exists_commitFlush (hinv.2 x hx)

/-- No file exists yet. -/
def noFiles : Files := ⟨fun _ => false, fun _ _ => 0, fun _ _ => 0⟩

/-- A new region, its second page unmapped again, and a store to what is left. -/
def trimFresh : List Op :=
  [.mmap 4096 8192 1, .store 4096 [7], .munmap 8192 4096 2 3, .store 4100 [9]]

theorem commit_flushes_trimmed :
    ∃ e, Runs Epoch.Step KeepsDirty (Epoch.boot Manager.new noFiles) e ∧ e.dirty 4100 = true ∧
      ∃ q ∈ undoLogCommitFlushes e.log e.fresh, cacheLine q = cacheLine 4100 := by
  have hend : ((Epoch.boot Manager.new noFiles).runOps trimFresh).map (fun e => e.dirty 4100) =
      some true := by decide
  obtain ⟨e, he, hd⟩ := Option.map_eq_some_iff.mp hend
  have hrun : Runs Epoch.Step KeepsDirty _ e := runs_of_runOps (by decide) he
  exact ⟨e, hrun, hd, commit_flushes_stored (boot_wf Tiled.nil _) (boot_fresh _ _) hrun hd⟩

/-- Two regions apart, a store to the first, and the second one unmapped again. -/
def dropFresh : List Op :=
  [.mmap 4096 4096 1, .store 4096 [7], .mmap 65536 4096 2, .munmap 65536 4096 3 4]

/-- **Without the condition a stored byte is lost**: `ranges::remove` keeps only the ranges that
    intersect what it removes. -/
theorem commit_misses_stored :
    ¬ ∀ e0 e : Epoch, e0.Wf → e0.Fresh → Runs Epoch.Step Always e0 e → ∀ x, e.dirty x = true →
      ∃ q ∈ undoLogCommitFlushes e.log e.fresh, cacheLine q = cacheLine x := by
  intro H
  have hend : ((Epoch.boot Manager.new noFiles).runOps dropFresh).map
      (fun e => (e.dirty 4096, undoLogCommitFlushes e.log e.fresh)) = some (true, []) := by decide
  obtain ⟨e, he, hlost⟩ := Option.map_eq_some_iff.mp hend
  rw [Prod.mk.injEq] at hlost
  obtain ⟨q, hq, -⟩ := H _ e (boot_wf Tiled.nil _) (boot_fresh _ _)
    (runs_of_runOps (by decide) he) 4096 hlost.1
  rw [hlost.2] at hq
  exact List.not_mem_nil hq

/-! ## 2. Every undo entry targets a committed region -/

/-- The operation keeps the fresh set equal to the new memory that is still managed: an `mmap` is
    shorter than 2^32, and an `munmap` meets every fresh range that holds managed memory. -/
def KeepsFresh (e : Epoch) : Op → Prop
  | .mmap _ size _ => size < 2 ^ 32
  | .munmap addr size _ _ =>
      toUint size = 0 ∨ ∀ r ∈ e.fresh.v, r.intersects ⟨addr, toUint size⟩ = true ∨
        ∀ x ∈ r.pts, x ∉ regionPts e.mrm.regions
  | .store _ _ => True

/-- A store that touches memory mapped since the last commit touches no other memory. -/
def NoStraddle (e : Epoch) : Op → Prop
  | .store addr bytes =>
      (∀ i < bytes.length, e.newly (addr + i) = true) ∨
        ∀ i < bytes.length, e.newly (addr + i) = false
  | .mmap _ _ _ => True
  | .munmap _ _ _ _ => True

/-- Stores go to managed memory. -/
def StoresManaged (e : Epoch) : Op → Prop
  | .store addr bytes => ∀ i < bytes.length, addr + i ∈ regionPts e.mrm.regions
  | .mmap _ _ _ => True
  | .munmap _ _ _ _ => True

instance (e : Epoch) (op : Op) : Decidable (KeepsFresh e op) :=
  match op with
  | .munmap _ _ _ _ => inferInstanceAs (Decidable (_ ∨ ∀ r ∈ e.fresh.v, _ ∨ _))
  | .store _ _ => isTrue trivial
  | .mmap _ size _ => inferInstanceAs (Decidable (size < 2 ^ 32))

instance (e : Epoch) (op : Op) : Decidable (NoStraddle e op) :=
  match op with
  | .store _ _ => inferInstanceAs (Decidable (_ ∨ _))
  | .mmap _ _ _ => isTrue trivial
  | .munmap _ _ _ _ => isTrue trivial

instance (e : Epoch) (op : Op) : Decidable (StoresManaged e op) :=
  match op with
  | .store addr bytes =>
      inferInstanceAs (Decidable (∀ i < bytes.length, addr + i ∈ regionPts e.mrm.regions))
  | .mmap _ _ _ => isTrue trivial
  | .munmap _ _ _ _ => isTrue trivial

/-- **The fresh set is the new memory**: what is fresh is new, what is new and managed is fresh, and
    what is managed and not new belongs to the committed regions `table`. -/
structure FreshIsNew (table : List Region) (e : Epoch) : Prop where
  wf : e.Wf
  newly : ∀ x ∈ e.fresh.pts, e.newly x = true
  fresh : ∀ x ∈ regionPts e.mrm.regions, e.newly x = true → x ∈ e.fresh.pts
  old : ∀ x ∈ regionPts e.mrm.regions, e.newly x = false → x ∈ regionPts table

theorem freshIsNew_start {e : Epoch} (hwf : e.Wf) (h : e.Fresh) :
    FreshIsNew e.mrm.regions e where
  wf := hwf
  newly x hx := by
    rw [h.fresh, Ranges.pts_empty] at hx
    exact absurd hx (Set.notMem_empty x)
  fresh x _ hn := by
    rw [h.newly x] at hn
    cases hn
  old x hx _ := hx

theorem freshIsNew_apply {table : List Region} {e e' : Epoch} {op : Op} (h : FreshIsNew table e)
    (hok : KeepsFresh e op) (hs : e.apply op = some e') : FreshIsNew table e' := by
  have hwf' := wf_apply h.wf hs
  cases op with
  | store addr bytes =>
      obtain ⟨-, rfl⟩ := apply_store hs
      exact ⟨hwf', h.newly, h.fresh, h.old⟩
  | mmap ret size fileId =>
      obtain ⟨⟨-, -, -, hle, -, -⟩, -, he⟩ := apply_mmap hs
      have hsz : toUint size = size := toUint_of_lt hok
      have hpts : e'.fresh.pts = e.fresh.pts ∪ Set.Ico ret (ret + size) := by
        rw [he]
        simp only [hsz]
        exact Ranges.pts_insert h.wf.fresh (by omega)
      have hreg : ∀ x, x ∈ regionPts e'.mrm.regions ↔
          x ∈ regionPts e.mrm.regions ∨ x ∈ Set.Ico ret (ret + size) := by
        intro x
        rw [he, regionPts_snoc]
        exact Iff.rfl
      have hnew : ∀ x, e'.newly x = true ↔ x ∈ Set.Ico ret (ret + size) ∨ e.newly x = true := by
        intro x
        rw [he]
        simp [Set.mem_Ico]
      refine ⟨hwf', fun x hx => ?_, fun x hx hn => ?_, fun x hx hn => ?_⟩
      · rw [hpts] at hx
        exact (hnew x).mpr (hx.symm.imp id fun hx => h.newly x hx)
      · rw [hpts]
        rcases (hnew x).mp hn with hin | hn
        · exact Or.inr hin
        · rcases (hreg x).mp hx with hx | hin
          · exact Or.inl (h.fresh x hx hn)
          · exact Or.inr hin
      · have hno : ¬ (x ∈ Set.Ico ret (ret + size) ∨ e.newly x = true) := by
          rw [← hnew, hn]
          exact Bool.false_ne_true
        rcases (hreg x).mp hx with hx | hin
        · exact h.old x hx (Bool.eq_false_iff.mpr fun hn => hno (Or.inr hn))
        · exact absurd (Or.inl hin) hno
  | munmap addr size rightId leftId =>
      obtain ⟨⟨-, -, hle, -⟩, -, hreg, he⟩ := apply_munmap h.wf.tiled hs
      have hsz := toUint_le size
      have hfresh : e'.fresh = e.fresh.remove addr (toUint size) := by rw [he]
      have hnew : e'.newly = e.newly := by rw [he]
      refine ⟨hwf', fun x hx => ?_, fun x hx hn => ?_, fun x hx hn => ?_⟩
      · rw [hfresh] at hx
        rw [hnew]
        exact h.newly x (Ranges.remove_subset h.wf.fresh.bound (by omega) hx).1
      · obtain ⟨hx, hout⟩ := (hreg x).mp hx
        rw [hnew] at hn
        rw [hfresh]
        obtain ⟨r, hr, hxr⟩ := h.fresh x hx hn
        refine mem_remove_toUint h.wf.fresh hle hr hxr (hok.imp id fun hok => ?_) hout
        exact (hok r hr).resolve_right fun hno => hno x hxr hx
      · rw [hnew] at hn
        exact h.old x ((hreg x).mp hx).1 hn

/-- A store to new memory alone is found in the fresh set. -/
theorem find_of_newly {table : List Region} {e : Epoch} {addr : ℕ} {bytes : List ℕ}
    (h : FreshIsNew table e) (hen : (Op.store addr bytes).Enabled e)
    (hm : StoresManaged e (.store addr bytes))
    (hn : ∀ i < bytes.length, e.newly (addr + i) = true) :
    e.fresh.find addr bytes.length = true := by
  rw [Ranges.find_iff h.wf.fresh (List.length_pos_of_ne_nil hen.1) (h.wf.store_lt hen)]
  intro x hx
  rw [Set.mem_Ico] at hx
  obtain ⟨i, rfl⟩ : ∃ i, x = addr + i := ⟨x - addr, by omega⟩
  exact h.fresh _ (hm i (by omega)) (hn i (by omega))

/-- The block of an entry lies in a region. -/
def InRegions (regions : List Region) (en : Entry) : Prop :=
  ∃ r ∈ regions, r.base ≤ en.addr ∧ en.addr + 32 ≤ r.stop

/-- The block of a stored byte that is not new ends before the committed region does: always so where
    the sizes of these regions are multiples of 32. -/
def WholeBlocks (table : List Region) (e : Epoch) : Op → Prop
  | .store addr bytes => ∀ i < bytes.length, e.newly (addr + i) = false →
      ∀ r ∈ table, addr + i ∈ r.pts → blkStart (addr + i) + 32 ≤ r.stop
  | .mmap _ _ _ => True
  | .munmap _ _ _ _ => True

instance (table : List Region) (e : Epoch) (op : Op) : Decidable (WholeBlocks table e op) :=
  match op with
  | .store addr bytes => inferInstanceAs (Decidable (∀ i < bytes.length, e.newly (addr + i) = false →
      ∀ r ∈ table, (r.base ≤ addr + i ∧ addr + i < r.stop) → blkStart (addr + i) + 32 ≤ r.stop))
  | .mmap _ _ _ => isTrue trivial
  | .munmap _ _ _ _ => isTrue trivial

/-- A block that holds a byte of a region, and ends before it, lies in it. -/
theorem inRegions_save {table : List Region} (ht : Tiled table) {mem : ℕ → ℕ} {x : ℕ}
    (hx : x ∈ regionPts table) (hend : ∀ r ∈ table, x ∈ r.pts → blkStart x + 32 ≤ r.stop) :
    InRegions table (Entry.save mem (blkStart x)) := by
  obtain ⟨r, hr, hxr⟩ := hx
  have hal := ht.aligned r hr
  refine ⟨r, hr, ?_, hend r hr hxr⟩
  rw [Region.mem_pts] at hxr
  rw [Entry.save_addr]
  unfold blkStart
  omega

/-- The entries of the log are those of committed regions. -/
def TargetsCommitted (table : List Region) (e : Epoch) : Prop :=
  FreshIsNew table e ∧ ∀ en ∈ e.log, InRegions table en

theorem targetsCommitted_apply {table : List Region} (ht : Tiled table) {e e' : Epoch} {op : Op}
    (h : TargetsCommitted table e) (hm : StoresManaged e op) (hk : KeepsFresh e op)
    (hn : NoStraddle e op) (hw : WholeBlocks table e op) (hs : e.apply op = some e') :
    TargetsCommitted table e' := by
  refine ⟨freshIsNew_apply h.1 hk hs, ?_⟩
  cases op with
  | store addr bytes =>
      obtain ⟨hen, rfl⟩ := apply_store hs
      intro en hen'
      rcases mem_undoLogRecord.mp hen' with hold | ⟨hf, p, hp, rfl⟩
      · exact h.2 en hold
      · rcases hn with hnew | hnew
        · rw [find_of_newly h.1 hen hm hnew] at hf
          cases hf
        · obtain ⟨x, hx1, hx2, rfl⟩ := exists_of_mem_blocks (List.length_pos_of_ne_nil hen.1) hp
          obtain ⟨i, rfl⟩ : ∃ i, x = addr + i := ⟨x - addr, by omega⟩
          have hold := h.1.old _ (hm i (by omega)) (hnew i (by omega))
          exact inRegions_save ht hold (hw i (by omega) (hnew i (by omega)))
  | mmap ret size fileId =>
      obtain ⟨-, -, rfl⟩ := apply_mmap hs
      exact h.2
  | munmap addr size rightId leftId =>
      obtain ⟨-, -, -, he⟩ := apply_munmap h.1.wf.tiled hs
      rw [he]
      exact h.2

/-- The conditions of a run whose undo entries all target committed regions. -/
def Undoable (table : List Region) (e : Epoch) (op : Op) : Prop :=
  StoresManaged e op ∧ KeepsFresh e op ∧ NoStraddle e op ∧ WholeBlocks table e op

instance (table : List Region) (e : Epoch) (op : Op) : Decidable (Undoable table e op) :=
  inferInstanceAs (Decidable (_ ∧ _ ∧ _ ∧ _))

/-- **Undo entries target committed regions**: in a run whose stores do not straddle new memory nor
    touch the partial block that a committed region ends with, and whose `mmap`s and `munmap`s keep
    the fresh set equal to the new memory, every entry has its block inside a region of the last
    committed table, and a recovered manager manages its address. -/
theorem undo_targets_committed {e0 e : Epoch} (hwf : e0.Wf) (h0 : e0.Fresh)
    (h : Runs Epoch.Step (Undoable e0.mrm.regions) e0 e) {en : Entry} (hen : en ∈ e.log) :
    InRegions e0.mrm.regions en ∧
      ∀ d t m, t.table = e0.mrm.regions → Manager.new.recover d t = some m →
        m.doesManage en.addr = true := by
  have hinv : TargetsCommitted e0.mrm.regions e := h.invariant
    ⟨freshIsNew_start hwf h0, fun y hy => absurd hy (by rw [h0.log]; exact List.not_mem_nil)⟩
    fun _ _ _ hi hok hs =>
      targetsCommitted_apply hwf.tiled hi hok.1 hok.2.1 hok.2.2.1 hok.2.2.2 hs
  have hin := hinv.2 en hen
  refine ⟨hin, fun d t m ht hrec => ?_⟩
  obtain ⟨r, hr, h1, h2⟩ := hin
  have hu := hwf.tiled.user r hr
  rw [recover_doesManage (fun q hq => hwf.tiled.stop_lt (ht ▸ hq)) hrec (by omega), ht]
  exact ⟨r, hr, Region.mem_pts.mpr (by omega)⟩

/-- One committed page at 8192. -/
def onePage : Manager := ⟨[⟨8192, 4096, 0⟩], ⟨[⟨8192, 4096⟩]⟩⟩

theorem onePage_tiled : Tiled onePage.regions where
  apart := List.pairwise_singleton _ _
  pos r hr := by
    rw [List.mem_singleton.mp hr]
    decide
  aligned r hr := by
    rw [List.mem_singleton.mp hr]
    decide
  user r hr := by
    rw [List.mem_singleton.mp hr]
    decide

/-- A new page just below the committed one, and a store across the border. -/
def straddle : List Op := [.mmap 4096 4096 1, .store 8184 (List.replicate 16 7)]

/-- **A store across the border logs the new page's block**: the fresh set is asked about the whole
    store, the log takes every block of it. -/
theorem undo_targets_uncommitted :
    ¬ ∀ e0 e : Epoch, e0.Wf → e0.Fresh → Runs Epoch.Step StoresManaged e0 e →
      ∀ en ∈ e.log, InRegions e0.mrm.regions en := by
  intro H
  have hend : ((Epoch.boot onePage noFiles).runOps straddle).map
      (fun e => e.log.map Entry.addr) = some [8160, 8192] := by decide
  obtain ⟨e, he, haddr⟩ := Option.map_eq_some_iff.mp hend
  obtain ⟨en, hen, ha⟩ := List.mem_map.mp (show 8160 ∈ e.log.map Entry.addr by rw [haddr]; simp)
  obtain ⟨r, hr, hb, -⟩ := H _ e (boot_wf onePage_tiled _) (boot_fresh _ _)
    (runs_of_runOps (by decide) he) en hen
  obtain rfl := List.mem_singleton.mp hr
  rw [ha] at hb
  exact absurd hb (by decide)

/-- The same new page, and stores on either side of the border. -/
def beside : List Op := [.mmap 4096 4096 1, .store 8184 [7], .store 8192 [7]]

theorem undo_targets_beside :
    ∃ e, Runs Epoch.Step (Undoable onePage.regions) (Epoch.boot onePage noFiles) e ∧
      ∃ en ∈ e.log, InRegions [⟨8192, 4096, 0⟩] en := by
  have hend : ((Epoch.boot onePage noFiles).runOps beside).map (fun e => e.log.length) =
      some 1 := by decide
  obtain ⟨e, he, hlen⟩ := Option.map_eq_some_iff.mp hend
  have hrun : Runs Epoch.Step (Undoable onePage.regions) _ e := runs_of_runOps (by decide) he
  obtain ⟨en, hen⟩ := List.exists_mem_of_length_pos (show 0 < e.log.length by omega)
  exact ⟨e, hrun, en, hen, (undo_targets_committed (boot_wf onePage_tiled _) (boot_fresh _ _)
    hrun hen).1⟩

/-! ## 3. Every flushed address is mapped -/

/-- An `munmap` takes away no block logged this epoch, and its size fits in a `uint` or it meets no
    fresh range. -/
def UnmapsUnlogged (e : Epoch) : Op → Prop
  | .munmap addr size _ _ =>
      (∀ en ∈ e.log, inPages addr size (en.addr / 4096) = false) ∧
        (size < 2 ^ 32 ∨ ∀ r ∈ e.fresh.v,
          (r.start < addr ∧ r.start + r.size ≤ addr) ∨ addr + size ≤ r.start)
  | .store _ _ => True
  | .mmap _ _ _ => True

instance (e : Epoch) (op : Op) : Decidable (UnmapsUnlogged e op) :=
  match op with
  | .munmap _ size _ _ => inferInstanceAs (Decidable (_ ∧ (size < 2 ^ 32 ∨ _)))
  | .store _ _ => isTrue trivial
  | .mmap _ _ _ => isTrue trivial

/-- The fresh ranges begin in managed memory and lie in it; the logged blocks are mapped. -/
structure FlushesMapped (e : Epoch) : Prop where
  wf : e.Wf
  start : ∀ r ∈ e.fresh.v, r.start ∈ regionPts e.mrm.regions
  fresh : ∀ x ∈ e.fresh.pts, x ∈ regionPts e.mrm.regions
  log : ∀ en ∈ e.log, e.pages (en.addr / 4096) = true

theorem flushesMapped_mmap {e e' : Epoch} {ret size fileId : ℕ} (h : FlushesMapped e)
    (hs : e.apply (.mmap ret size fileId) = some e') : FlushesMapped e' := by
  have hwf' := wf_apply h.wf hs
  obtain ⟨⟨-, -, hn, hle, -, -⟩, -, rfl⟩ := apply_mmap hs
  have hsz := toUint_le size
  have hreg := regionPts_snoc e.mrm.regions ret size fileId
  refine ⟨hwf', fun r hr => ?_, fun x hx => ?_, fun en hen => ?_⟩
  · rw [hreg]
    rcases Ranges.start_insert hr with he | ⟨q, hq, he⟩
    · exact Or.inr (he ▸ Set.mem_Ico.mpr (by omega))
    · exact Or.inl (he ▸ h.start q hq)
  · rw [Ranges.pts_insert h.wf.fresh (by omega)] at hx
    rw [hreg]
    refine hx.imp (h.fresh x) fun hx => ?_
    rw [Set.mem_Ico] at hx ⊢
    omega
  · simp only [h.log en hen, Bool.or_true]

/-- What is left of the fresh set lies outside the interval. -/
theorem flushesMapped_munmap {e e' : Epoch} {addr size rightId leftId : ℕ} (h : FlushesMapped e)
    (hok : UnmapsUnlogged e (.munmap addr size rightId leftId))
    (hs : e.apply (.munmap addr size rightId leftId) = some e') : FlushesMapped e' := by
  obtain ⟨⟨-, hn, hle, -⟩, -, hreg, he⟩ := apply_munmap h.wf.tiled hs
  obtain ⟨hlog, hsize⟩ := hok
  have hsz := toUint_le size
  have hbound := h.wf.fresh.bound
  have hfresh : e'.fresh = e.fresh.remove addr (toUint size) := by rw [he]
  have hout : ∀ x ∈ e'.fresh.pts, x ∉ Set.Ico addr (addr + size) := by
    intro x hx
    rw [hfresh] at hx
    have hx' := Ranges.remove_subset hbound (by omega) hx
    rcases hsize with hlt | hno
    · rw [toUint_of_lt hlt] at hx'
      exact hx'.2
    · obtain ⟨r, hr, hxr⟩ := hx'.1
      have hno' := hno r hr
      rw [Range.mem_pts] at hxr
      rw [Set.mem_Ico]
      omega
  have hpts : ∀ x ∈ e'.fresh.pts, x ∈ regionPts e'.mrm.regions := fun x hx => by
    refine (hreg x).mpr ⟨h.fresh x ?_, hout x hx⟩
    rw [hfresh] at hx
    exact (Ranges.remove_subset hbound (by omega) hx).1
  refine ⟨wf_apply h.wf hs, fun q hq => ?_, hpts, fun en hen => ?_⟩
  · rcases Nat.eq_zero_or_pos (toUint size) with hz | hpos
    · rw [hfresh, hz, Ranges.remove_zero] at hq
      have hbig : ¬ size < 2 ^ 32 := fun hlt => by
        rw [toUint_of_lt hlt] at hz
        omega
      have hno := hsize.resolve_left hbig q hq
      refine (hreg _).mpr ⟨h.start q hq, ?_⟩
      rw [Set.mem_Ico]
      omega
    · rw [hfresh] at hq
      have hqs := Ranges.size_pos_of_mem_remove hbound hpos (by omega) hq
      exact hpts _ (hfresh ▸ ⟨q, hq, Range.mem_pts.mpr (by omega)⟩)
  · rw [he] at hen ⊢
    simp only [hlog en hen, h.log en hen, Bool.not_false, Bool.and_self]

theorem flushesMapped_apply {e e' : Epoch} {op : Op} (h : FlushesMapped e)
    (hok : UnmapsUnlogged e op) (hs : e.apply op = some e') : FlushesMapped e' := by
  have hwf' := wf_apply h.wf hs
  cases op with
  | store addr bytes =>
      obtain ⟨hen, rfl⟩ := apply_store hs
      refine ⟨hwf', h.start, h.fresh, fun en hen' => ?_⟩
      rcases mem_undoLogRecord.mp hen' with hold | ⟨-, p, hp, rfl⟩
      · exact h.log en hold
      · obtain ⟨x, hx1, hx2, rfl⟩ := exists_of_mem_blocks (List.length_pos_of_ne_nil hen.1) hp
        have hpage := hen.2.2 (x - addr) (by omega)
        rw [Nat.add_sub_cancel' hx1] at hpage
        have heq : blkStart x / 4096 = x / 4096 := by
          unfold blkStart
          omega
        rw [Entry.save_addr, heq]
        exact hpage
  | mmap ret size fileId => exact flushesMapped_mmap h hs
  | munmap addr size rightId leftId => exact flushesMapped_munmap h hok hs

/-- **Commit flushes only mapped memory**, in a run whose `munmap`s take away no logged block and
    leave no fresh range behind. -/
theorem commit_flushes_mapped {e0 e : Epoch} (hwf : e0.Wf) (h0 : e0.Fresh)
    (h : Runs Epoch.Step UnmapsUnlogged e0 e) {q : ℕ} (hq : q ∈ undoLogCommitFlushes e.log e.fresh) :
    e.pages (q / 4096) = true := by
  have h0' : FlushesMapped e0 := by
    refine ⟨hwf, fun r hr => ?_, fun x hx => ?_, fun en hen => ?_⟩
    · rw [h0.fresh] at hr
      exact absurd hr List.not_mem_nil
    · rw [h0.fresh, Ranges.pts_empty] at hx
      exact absurd hx (Set.notMem_empty x)
    · rw [h0.log] at hen
      exact absurd hen List.not_mem_nil
  have hinv : FlushesMapped e := h.invariant h0' fun _ _ _ hi hok hs =>
    flushesMapped_apply hi hok hs
  rcases mem_commitFlushes.mp hq with ⟨en, hen, rfl⟩ | ⟨r, hr, hq⟩
  · exact hinv.log en hen
  · refine hinv.wf.mapped q ?_
    rcases mem_freshFlushes.mp hq with rfl | ⟨h1, h2, -⟩
    · exact hinv.start r hr
    · exact hinv.fresh q ⟨r, hr, Range.mem_pts.mpr ⟨Nat.le_of_lt h1, h2⟩⟩

theorem commit_flushes_beside :
    ∃ e, Runs Epoch.Step UnmapsUnlogged (Epoch.boot onePage noFiles) e ∧
      ∃ q ∈ undoLogCommitFlushes e.log e.fresh, e.pages (q / 4096) = true := by
  have hend : ((Epoch.boot onePage noFiles).runOps (beside ++ [.munmap 4096 4096 3 4])).map
      (fun e => undoLogCommitFlushes e.log e.fresh) = some [8192] := by decide
  obtain ⟨e, he, hfl⟩ := Option.map_eq_some_iff.mp hend
  have hrun : Runs Epoch.Step UnmapsUnlogged _ e := runs_of_runOps (by decide) he
  have hq : 8192 ∈ undoLogCommitFlushes e.log e.fresh := by simp [hfl]
  exact ⟨e, hrun, 8192, hq, commit_flushes_mapped (boot_wf onePage_tiled _) (boot_fresh _ _) hrun hq⟩

/-- **An `munmap` of stored memory makes the commit flush an unmapped address**: the fresh set is
    trimmed, the undo log is not. -/
theorem commit_flushes_unmapped :
    ¬ ∀ e0 e : Epoch, e0.Wf → e0.Fresh → Runs Epoch.Step StoresManaged e0 e →
      ∀ q ∈ undoLogCommitFlushes e.log e.fresh, e.pages (q / 4096) = true := by
  intro H
  have hend : ((Epoch.boot onePage noFiles).runOps [.store 8192 [7], .munmap 8192 4096 1 2]).map
      (fun e => (undoLogCommitFlushes e.log e.fresh, e.pages 2)) = some ([8192], false) := by decide
  obtain ⟨e, he, hp⟩ := Option.map_eq_some_iff.mp hend
  rw [Prod.mk.injEq] at hp
  have h2 := H _ e (boot_wf onePage_tiled _) (boot_fresh _ _) (runs_of_runOps (by decide) he) 8192
    (by rw [hp.1]; exact List.mem_singleton_self _)
  have h3 : e.pages 2 = true := h2
  rw [hp.2] at h3
  cases h3

end Persimmon
