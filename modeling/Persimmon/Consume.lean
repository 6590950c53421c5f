/-
  File:      Persimmon/Consume.lean
  Subject:   EXACTLY-ONCE EXECUTION of log entries across crashes (src/bg.cc: `_bg_consume`,
             `bg_run`; src/undo/instrument.cc: `instrument_commit`, `instrument_cleanup`).

  The background runs a callback on the entry at the tail, an epoch of `Epoch.lean`, and then takes
  the persistent steps of a commit one after another. Between any two of them the hardware writes
  lines back and the machine crashes; a recovery runs to its end and the background goes on.

  A log position counts bytes from the start of the log without wrapping around; the code keeps it
  modulo `PSM_LOG_SIZE_B`. What lies at a position and where the next entry begins are parameters
  (`entryAt`, `next`), and so is the callback: `cb` relates an entry and the memory it finds to the
  operations it may perform.

  * `Sys`, `Act`, `Sys.act`, `Sys.Step` -- the system and its steps;
  * `Executed` -- what executing entries one after another does to an image;
  * `Consistent` -- the invariant, one clause for each place in the iteration; `consistent_step`;
  * `executed_exactly_once` -- after every iteration and every recovery the region table, the
    persistent memory and the tail are those of executing the first `k` entries.
-/
import Persimmon.EpochUndo

namespace Persimmon

open Transition

/-! ## 1. The system -/

/-- Where an iteration of `_bg_consume` stands. -/
inductive Phase where
  | idle
  | callback (todo : List Op)
  | tablePersisted
  | committed
  | tailUpdated
  | tableCommitted
  | crashed
  deriving DecidableEq, Repr

structure Sys where
  epoch : Epoch
  tables : Tables
  /-- The tail of `psm_log`. -/
  tail : ℕ
  /-- `region_table_modified` -/
  modified : Bool
  phase : Phase

inductive Act where
  | call (ops : List Op)
  | op
  | persistTable
  | commit
  | updateTail
  | commitTable
  | clear
  | evict (n : FileName) (l : ℕ)
  | crash
  | recover
  deriving DecidableEq, Repr

/-- The operation sets `region_table_modified`: a `munmap` does unless it is `NOT_MANAGED`. -/
def Op.modifies (regions : List Region) : Op → Bool
  | .store _ _ => false
  | .mmap _ _ _ => true
  | .munmap addr size _ _ => (findOverlap regions ⟨addr, size, 0⟩).isSome

/-- `undo_log_clear` on the state of the process. -/
def Epoch.clear (e : Epoch) : Epoch :=
  { e with log := [], fresh := Ranges.empty, newly := fun _ => false, dirty := fun _ => false }

/-- What a crash leaves. -/
def Sys.persistent (s : Sys) : Persistent := ⟨s.epoch.files, s.tables, logArray s.epoch.log, s.tail⟩

/-- The operation a callback comes to next. -/
def Sys.nextOp (s : Sys) : Option (Op × List Op) :=
  match s.phase with
  | .callback (op :: ops) => some (op, ops)
  | _ => none

/-- **One step.** `undo_log_record` and the store it is called for are one step: what the store
    changes is not persistent before an `evict`. The undo log is empty after a recovery
    (`RecoversTo.log`). -/
def Sys.act (next : ℕ → ℕ) (s : Sys) : Act → Option Sys
  | .call ops => if s.phase = .idle then some { s with phase := .callback ops } else none
  | .op =>
      match s.nextOp with
      | none => none
      | some (op, ops) =>
          match s.epoch.apply op with
          | none => none
          | some e =>
              if e.log.length < undoNumEntries then
                some { s with
                  epoch := e
                  modified := s.modified || op.modifies s.epoch.mrm.regions
                  phase := .callback ops }
              else none
  | .persistTable =>
      if s.phase = .callback [] then
        some { s with
          tables := if s.modified then persistNewRegionTable s.epoch.mrm s.tables else s.tables
          phase := .tablePersisted }
      else none
  | .commit =>
      let qs := undoLogCommitFlushes s.epoch.log s.epoch.fresh
      -- a flush of unmapped memory is a segmentation fault
      if s.phase = .tablePersisted ∧ (∀ q ∈ qs, s.epoch.pages (q / 4096) = true) ∧
          s.epoch.log.length + 1 < undoNumEntries then
        some { s with
          epoch := { s.epoch with
            files := s.epoch.files.flushLines s.epoch.mrm qs
            log := s.epoch.log ++ [Entry.commit (next s.tail)] }
          phase := .committed }
      else none
  | .updateTail =>
      if s.phase = .committed then some { s with tail := next s.tail, phase := .tailUpdated } else none
  | .commitTable =>
      if s.phase = .tailUpdated then
        some { s with
          tables := if s.modified then (commitNewRegionTable true true s.tables).2 else s.tables
          phase := .tableCommitted }
      else none
  | .clear =>
      if s.phase = .tableCommitted then
        some { s with epoch := s.epoch.clear, modified := false, phase := .idle }
      else none
  | .evict n l => if s.phase = .crashed then none else some { s with epoch := s.epoch.evict n l }
  | .crash => if s.phase = .crashed then none else some { s with phase := .crashed }
  | .recover =>
      if s.phase = .crashed then
        (recoverAll s.persistent).map fun (p, m) => ⟨Epoch.boot m p.files, p.tables, p.tail, false, .idle⟩
      else none

/-- The system when the background starts on the regions of a table. -/
def Sys.boot (d : Files) (table : List Region) (tail : ℕ) : Sys :=
  ⟨Epoch.boot (Manager.ofTable table) d, ⟨table, none⟩, tail, false, .idle⟩

section Params

variable {Msg : Type*} (cb : Msg → (ℕ → Option ℕ) → List Op → Prop) (entryAt : ℕ → Msg)
  (next : ℕ → ℕ)

/-- A step; a callback performs operations that it may perform on the entry at the tail. -/
def Sys.Step (s : Sys) (a : Act) (s' : Sys) : Prop :=
  (∀ ops, a = .call ops → cb (entryAt s.tail) s.epoch.image.mem ops) ∧ s.act next a = some s'

/-- **The first `k` entries executed**, one after another, from the image `I0` and the position
    `t0`: the image and the position then. -/
inductive Executed (I0 : Image) (t0 : ℕ) : ℕ → Image → ℕ → Prop where
  | start : Executed I0 t0 0 I0 t0
  | entry {k : ℕ} {I : Image} {t : ℕ} {ops : List Op} (h : Executed I0 t0 k I t)
      (hops : cb (entryAt t) I.mem ops) :
      Executed I0 t0 (k + 1) (ops.foldl Image.apply I) (next t)

/-- **The region table, the persistent memory and the tail are those of executing the first `k`
    entries**, for some `k`. -/
def ExactlyOnce (I0 : Image) (t0 : ℕ) (s : Sys) : Prop :=
  ∃ k I, Executed cb entryAt next I0 t0 k I s.tail ∧ s.tables = ⟨I.regions, none⟩ ∧
    imageOf I.regions s.epoch.files.pm = I

end Params

/-- The condition on a step: an operation of a callback is recoverable. -/
def Sys.Recoverable (s : Sys) : Act → Prop
  | .op => ∀ o ∈ s.nextOp, Persimmon.Recoverable s.epoch o.1
  | _ => True

instance (s : Sys) (a : Act) : Decidable (s.Recoverable a) :=
  match a with
  | .op => inferInstanceAs (Decidable (∀ o ∈ s.nextOp, _))
  | .call _ | .persistTable | .commit | .updateTail | .commitTable | .clear | .evict _ _ | .crash
  | .recover => isTrue trivial

/-! ## 2. The invariant -/

section Invariant

variable {Msg : Type*} (cb : Msg → (ℕ → Option ℕ) → List Op → Prop) (entryAt : ℕ → Msg)
  (next : ℕ → ℕ) (I0 : Image) (t0 : ℕ)

/-- An image and a position that executing some entries leads to. -/
def Reached (I : Image) (t : ℕ) : Prop := ∃ k, Executed cb entryAt next I0 t0 k I t

/-- Before the commit record: the callback has performed `done` on the image `I`. -/
structure InCallback (s : Sys) (I : Image) (done : List Op) : Prop where
  reached : Reached cb entryAt next I0 t0 I s.tail
  undone : Undone I s.epoch
  image : s.epoch.image = done.foldl Image.apply I
  room : s.epoch.log.length < undoNumEntries
  table : s.tables.table = I.regions

/-- From the commit record on: the image is persistent, and belongs to position `t`. -/
structure Committed (s : Sys) (t : ℕ) : Prop where
  reached : Reached cb entryAt next I0 t0 s.epoch.image t
  wf : s.epoch.Wf
  backed : Backed s.epoch.files s.epoch.mrm.regions
  pm : imageOf s.epoch.mrm.regions s.epoch.files.pm = s.epoch.image
  table : committedTable s.tables = s.epoch.mrm.regions
  unmodified : s.modified = false → s.tables.newTable = none
  log : ∃ (I : Image) (data : List Entry), s.epoch.log = data ++ [Entry.commit t] ∧
    (∀ en ∈ data, Undoes I en) ∧ Tiled I.regions ∧ data.length + 1 < undoNumEntries

/-- **The invariant**, by the place in the iteration. -/
def Consistent (s : Sys) : Prop :=
  match s.phase with
  | .idle => Persisted s.epoch ∧ Reached cb entryAt next I0 t0 s.epoch.image s.tail ∧
      s.tables = ⟨s.epoch.mrm.regions, none⟩ ∧ s.modified = false
  | .callback todo => ∃ I done, InCallback cb entryAt next I0 t0 s I done ∧
      cb (entryAt s.tail) I.mem (done ++ todo) ∧ s.tables.newTable = none ∧
      (s.modified = false → s.epoch.mrm.regions = I.regions)
  | .tablePersisted => ∃ I ops, InCallback cb entryAt next I0 t0 s I ops ∧
      cb (entryAt s.tail) I.mem ops ∧ committedTable s.tables = s.epoch.mrm.regions ∧
      (s.modified = false → s.tables.newTable = none)
  | .committed => Committed cb entryAt next I0 t0 s (next s.tail)
  | .tailUpdated => Committed cb entryAt next I0 t0 s s.tail
  | .tableCommitted => Committed cb entryAt next I0 t0 s s.tail ∧
      s.tables = ⟨s.epoch.mrm.regions, none⟩
  | .crashed => ∃ I t p, Reached cb entryAt next I0 t0 I t ∧ Tiled I.regions ∧
      RecoversTo s.persistent I t p

end Invariant

/-! ## 3. Every step keeps the invariant -/

section Step

variable {Msg : Type*} {cb : Msg → (ℕ → Option ℕ) → List Op → Prop} {entryAt : ℕ → Msg}
  {next : ℕ → ℕ} {I0 : Image} {t0 : ℕ} {s s' : Sys}

theorem consistent_call {ops : List Op} (h : Consistent cb entryAt next I0 t0 s)
    (hcb : cb (entryAt s.tail) s.epoch.image.mem ops) (hs : s.act next (.call ops) = some s') :
    Consistent cb entryAt next I0 t0 s' := by
  simp only [Sys.act] at hs
  split at hs
  swap
  · cases hs
  rename_i hp
  cases hs
  simp only [Consistent, hp] at h
  obtain ⟨hpers, hreach, htab, -⟩ := h
  have hroom : s.epoch.log.length < undoNumEntries := by
    rw [hpers.start.log]
    decide
  exact ⟨s.epoch.image, [], ⟨hreach, hpers.undone, rfl, hroom, by rw [htab]; rfl⟩, hcb,
    by rw [htab], fun _ => rfl⟩

/-- An operation that leaves `region_table_modified` alone leaves the regions alone. -/
theorem regions_of_not_modifies {e e' : Epoch} {op : Op} (hwf : e.Wf)
    (hm : op.modifies e.mrm.regions = false) (hs : e.apply op = some e') :
    e'.mrm.regions = e.mrm.regions := by
  cases op with
  | store addr bytes =>
      obtain ⟨-, rfl⟩ := apply_store hs
      rfl
  | mmap ret size fileId => cases hm
  | munmap addr size rightId leftId =>
      have hno : findOverlap e.mrm.regions ⟨addr, size, 0⟩ = none :=
        Option.isSome_eq_false_iff.mp hm |> Option.isNone_iff_eq_none.mp
      rw [(munmap_regions hwf hs).1, removeRegions, hno]

theorem consistent_op (h : Consistent cb entryAt next I0 t0 s) (hok : s.Recoverable .op)
    (hs : s.act next .op = some s') : Consistent cb entryAt next I0 t0 s' := by
  simp only [Sys.act] at hs
  split at hs
  · cases hs
  rename_i op ops hnext
  split at hs
  · cases hs
  rename_i e he
  split at hs
  swap
  · cases hs
  rename_i hroom
  cases hs
  have hp : s.phase = .callback (op :: ops) := by
    unfold Sys.nextOp at hnext
    split at hnext
    · rename_i heq
      cases hnext
      exact heq
    · cases hnext
  simp only [Consistent, hp] at h
  obtain ⟨I, done, hin, hcb, hnew, hmod⟩ := h
  have hrec : Recoverable s.epoch op := hok (op, ops) hnext
  have hundone := hin.undone
  refine ⟨I, done ++ [op], ⟨hin.reached, undone_apply hundone hrec he, ?_, hroom, hin.table⟩, ?_,
    hnew, fun hm => ?_⟩
  · rw [image_apply hundone.wf hundone.backed he, hin.image, List.foldl_append]
    rfl
  · rw [List.append_assoc]
    exact hcb
  · obtain ⟨hm1, hm2⟩ := Bool.or_eq_false_iff.mp hm
    rw [regions_of_not_modifies hundone.wf hm2 he]
    exact hmod hm1

theorem consistent_persistTable (h : Consistent cb entryAt next I0 t0 s)
    (hs : s.act next .persistTable = some s') : Consistent cb entryAt next I0 t0 s' := by
  simp only [Sys.act] at hs
  split at hs
  swap
  · cases hs
  rename_i hp
  cases hs
  simp only [Consistent, hp] at h
  obtain ⟨I, done, hin, hcb, hnew, hmod⟩ := h
  rw [List.append_nil] at hcb
  by_cases hm : s.modified = true
  · refine ⟨I, done, ⟨hin.reached, hin.undone, hin.image, hin.room, ?_⟩, hcb, ?_, fun hf => ?_⟩
    · simp only [hm, if_true]
      exact hin.table
    · simp [hm, committedTable, persistNewRegionTable, hnew]
    · rw [hm] at hf
      cases hf
  · rw [Bool.not_eq_true] at hm
    refine ⟨I, done, ⟨hin.reached, hin.undone, hin.image, hin.room, ?_⟩, hcb, ?_, fun _ => ?_⟩
    · simp only [hm, Bool.false_eq_true, if_false]
      exact hin.table
    · simp [hm, committedTable, hnew, hin.table, hmod hm]
    · simp only [hm, Bool.false_eq_true, if_false]
      exact hnew

theorem consistent_commit (h : Consistent cb entryAt next I0 t0 s)
    (hs : s.act next .commit = some s') : Consistent cb entryAt next I0 t0 s' := by
  simp only [Sys.act] at hs
  split at hs
  swap
  · cases hs
  rename_i hp
  obtain ⟨hp, -, hroom⟩ := hp
  cases hs
  simp only [Consistent, hp] at h
  obtain ⟨I, ops, hin, hcb, htab, hmod⟩ := h
  obtain ⟨k, hk⟩ := hin.reached
  have hu := hin.undone
  refine ⟨⟨k + 1, ?_⟩, ⟨hu.wf.tiled, hu.wf.mapped, hu.wf.user, hu.wf.fresh⟩, hu.backed,
    hu.commit_image, htab, hmod, I, s.epoch.log, rfl, hu.entries, hu.tiled, hroom⟩
  show Executed cb entryAt next I0 t0 (k + 1) s.epoch.image (next s.tail)
  rw [hin.image]
  exact hk.entry hcb

theorem consistent_updateTail (h : Consistent cb entryAt next I0 t0 s)
    (hs : s.act next .updateTail = some s') : Consistent cb entryAt next I0 t0 s' := by
  simp only [Sys.act] at hs
  split at hs
  swap
  · cases hs
  rename_i hp
  cases hs
  simp only [Consistent, hp] at h
  exact ⟨h.reached, h.wf, h.backed, h.pm, h.table, h.unmodified, h.log⟩

theorem consistent_commitTable (h : Consistent cb entryAt next I0 t0 s)
    (hs : s.act next .commitTable = some s') : Consistent cb entryAt next I0 t0 s' := by
  simp only [Sys.act] at hs
  split at hs
  swap
  · cases hs
  rename_i hp
  cases hs
  simp only [Consistent, hp] at h
  have htab : (if s.modified = true then (commitNewRegionTable true true s.tables).2 else s.tables) =
      ⟨s.epoch.mrm.regions, none⟩ := by
    rw [← h.table, ← commitNewRegionTable_eq]
    split_ifs with hm
    · rfl
    · rw [commitNewRegionTable, h.unmodified (Bool.eq_false_iff.mpr hm)]
  refine ⟨⟨h.reached, h.wf, h.backed, h.pm, ?_, fun _ => ?_, h.log⟩, htab⟩
  · rw [htab]
    rfl
  · rw [htab]

theorem consistent_clear (h : Consistent cb entryAt next I0 t0 s)
    (hs : s.act next .clear = some s') : Consistent cb entryAt next I0 t0 s' := by
  simp only [Sys.act] at hs
  split at hs
  swap
  · cases hs
  rename_i hp
  cases hs
  simp only [Consistent, hp] at h
  obtain ⟨hc, htab⟩ := h
  refine ⟨⟨⟨hc.wf.tiled, hc.wf.mapped, hc.wf.user, Ranges.wf_empty⟩, ⟨rfl, rfl, fun _ => rfl,
    fun _ => rfl⟩, hc.backed, hc.pm⟩, hc.reached, htab, rfl⟩

/-- A write-back of files that are persistent already changes no image. -/
theorem imageOf_evict {regions : List Region} {d : Files} (ht : Tiled regions)
    (h : imageOf regions d.pm = imageOf regions d.cache) (n : FileName) (l : ℕ) :
    imageOf regions (d.evict n l).pm = imageOf regions d.cache := by
  refine imageOf_congr ht fun r hr x hx => ?_
  have hsame := imageOf_mem_inj ht h hr hx
  simp only [Files.evict]
  split_ifs
  · rfl
  · exact hsame

theorem Committed.evict {t : ℕ} (h : Committed cb entryAt next I0 t0 s t) (n : FileName) (l : ℕ)
    (ph : Phase) :
    Committed cb entryAt next I0 t0 { s with epoch := s.epoch.evict n l, phase := ph } t :=
  ⟨h.reached, ⟨h.wf.tiled, h.wf.mapped, h.wf.user, h.wf.fresh⟩, h.backed,
    imageOf_evict h.wf.tiled h.pm n l, h.table, h.unmodified, h.log⟩

theorem InCallback.evict {I : Image} {done : List Op}
    (h : InCallback cb entryAt next I0 t0 s I done) (n : FileName) (l : ℕ) (ph : Phase) :
    InCallback cb entryAt next I0 t0 { s with epoch := s.epoch.evict n l, phase := ph } I done :=
  ⟨h.reached, h.undone.evict n l, h.image, h.room, h.table⟩

theorem consistent_evict {n : FileName} {l : ℕ} (h : Consistent cb entryAt next I0 t0 s)
    (hs : s.act next (.evict n l) = some s') : Consistent cb entryAt next I0 t0 s' := by
  simp only [Sys.act] at hs
  split at hs
  · cases hs
  rename_i hrun
  cases hs
  cases hp : s.phase <;> simp only [Consistent, hp] at h ⊢
  case idle =>
    obtain ⟨hpers, hreach, htab, hmod⟩ := h
    have hwf := hpers.wf
    exact ⟨⟨⟨hwf.tiled, hwf.mapped, hwf.user, hwf.fresh⟩, ⟨hpers.start.log, hpers.start.fresh,
      hpers.start.newly, hpers.start.dirty⟩, hpers.backed, imageOf_evict hwf.tiled hpers.pm n l⟩,
      hreach, htab, hmod⟩
  case callback todo =>
    obtain ⟨I, done, hin, h⟩ := h
    exact ⟨I, done, hin.evict n l _, h⟩
  case tablePersisted =>
    obtain ⟨I, ops, hin, h⟩ := h
    exact ⟨I, ops, hin.evict n l _, h⟩
  case committed => exact h.evict n l _
  case tailUpdated => exact h.evict n l _
  case tableCommitted => exact ⟨h.1.evict n l _, h.2⟩
  case crashed => exact absurd hp hrun

/-- **A crash before the commit record** goes back to the image the callback found. -/
theorem InCallback.recovers {I : Image} {done : List Op}
    (h : InCallback cb entryAt next I0 t0 s I done) : ∃ p, RecoversTo s.persistent I s.tail p :=
  h.undone.recovers rfl rfl h.table h.room

/-- **A crash after the commit record** keeps the image and the position that were committed. -/
theorem Committed.recovers {t : ℕ} (h : Committed cb entryAt next I0 t0 s t) :
    ∃ p, RecoversTo s.persistent s.epoch.image t p := by
  obtain ⟨I, data, hlog, hdata, ht, hroom⟩ := h.log
  exact recovers_commit hdata ht (congrArg logArray hlog) hroom h.table h.pm h.backed

theorem consistent_crash (h : Consistent cb entryAt next I0 t0 s)
    (hs : s.act next .crash = some s') : Consistent cb entryAt next I0 t0 s' := by
  simp only [Sys.act] at hs
  split at hs
  · cases hs
  rename_i hrun
  cases hs
  cases hp : s.phase <;> simp only [Consistent, hp] at h ⊢
  case idle =>
    obtain ⟨hpers, hreach, htab, -⟩ := h
    have hroom : s.epoch.log.length < undoNumEntries := by
      rw [hpers.start.log]
      decide
    obtain ⟨p, hrec⟩ := hpers.undone.recovers (p := s.persistent) rfl rfl
      (by rw [Sys.persistent, htab]; rfl) hroom
    exact ⟨s.epoch.image, s.tail, p, hreach, hpers.wf.tiled, hrec⟩
  case callback todo =>
    obtain ⟨I, done, hin, -⟩ := h
    obtain ⟨p, hrec⟩ := hin.recovers
    exact ⟨I, s.tail, p, hin.reached, hin.undone.tiled, hrec⟩
  case tablePersisted =>
    obtain ⟨I, ops, hin, -⟩ := h
    obtain ⟨p, hrec⟩ := hin.recovers
    exact ⟨I, s.tail, p, hin.reached, hin.undone.tiled, hrec⟩
  case committed =>
    obtain ⟨p, hrec⟩ := h.recovers
    exact ⟨s.epoch.image, _, p, h.reached, h.wf.tiled, hrec⟩
  case tailUpdated =>
    obtain ⟨p, hrec⟩ := h.recovers
    exact ⟨s.epoch.image, _, p, h.reached, h.wf.tiled, hrec⟩
  case tableCommitted =>
    obtain ⟨p, hrec⟩ := h.1.recovers
    exact ⟨s.epoch.image, _, p, h.1.reached, h.1.wf.tiled, hrec⟩
  case crashed => exact absurd hp hrun

theorem consistent_recover (h : Consistent cb entryAt next I0 t0 s)
    (hs : s.act next .recover = some s') : Consistent cb entryAt next I0 t0 s' := by
  simp only [Sys.act] at hs
  split at hs
  swap
  · cases hs
  rename_i hp
  simp only [Consistent, hp] at h
  obtain ⟨I, t, p, hreach, ht, hrec⟩ := h
  rw [hrec.run] at hs
  cases hs
  have himage : (Epoch.boot (Manager.ofTable I.regions) p.files).image = I := hrec.memory
  refine ⟨⟨boot_wf (m := Manager.ofTable I.regions) ht _, boot_fresh _ _, hrec.backed, rfl⟩, ?_,
    hrec.tables, rfl⟩
  show Reached cb entryAt next I0 t0 (Epoch.boot (Manager.ofTable I.regions) p.files).image p.tail
  rw [himage, hrec.tail]
  exact hreach

/-- **Every step keeps the invariant.** -/
theorem consistent_step {a : Act} (h : Consistent cb entryAt next I0 t0 s) (hok : s.Recoverable a)
    (hs : s.Step cb entryAt next a s') : Consistent cb entryAt next I0 t0 s' := by
  obtain ⟨hcb, hs⟩ := hs
  cases a with
  | call ops => exact consistent_call h (hcb ops rfl) hs
  | op => exact consistent_op h hok hs
  | persistTable => exact consistent_persistTable h hs
  | commit => exact consistent_commit h hs
  | updateTail => exact consistent_updateTail h hs
  | commitTable => exact consistent_commitTable h hs
  | clear => exact consistent_clear h hs
  | evict n l => exact consistent_evict h hs
  | crash => exact consistent_crash h hs
  | recover => exact consistent_recover h hs

theorem Consistent.exactlyOnce (h : Consistent cb entryAt next I0 t0 s) (hp : s.phase = .idle) :
    ExactlyOnce cb entryAt next I0 t0 s := by
  simp only [Consistent, hp] at h
  obtain ⟨hpers, ⟨k, hk⟩, htab, -⟩ := h
  exact ⟨k, s.epoch.image, hk, htab, hpers.pm⟩

/-- From a crashed state recovery completes. -/
theorem Consistent.recovers (h : Consistent cb entryAt next I0 t0 s) (hp : s.phase = .crashed) :
    ∃ s', s.Step cb entryAt next .recover s' ∧ ExactlyOnce cb entryAt next I0 t0 s' := by
  have hc := h
  simp only [Consistent, hp] at h
  obtain ⟨I, t, p, -, -, hrec⟩ := h
  have hact : ∃ s', s.act next .recover = some s' ∧ s'.phase = .idle := by
    refine ⟨⟨Epoch.boot (Manager.ofTable I.regions) p.files, p.tables, p.tail, false, .idle⟩, ?_, rfl⟩
    simp only [Sys.act, hp, if_true, hrec.run, Option.map_some]
  obtain ⟨s', hs', hidle⟩ := hact
  exact ⟨s', ⟨nofun, hs'⟩, (consistent_recover hc hs').exactlyOnce hidle⟩

end Step

/-! ## 4. Runs -/

section Run

variable {Msg : Type*} {cb : Msg → (ℕ → Option ℕ) → List Op → Prop} {entryAt : ℕ → Msg}
  {next : ℕ → ℕ}

theorem consistent_boot {table : List Region} {d : Files} (ht : Tiled table) (hb : Backed d table)
    (t0 : ℕ) :
    Consistent cb entryAt next (imageOf table d.pm) t0 (Sys.boot d table t0) :=
  ⟨⟨boot_wf (m := Manager.ofTable table) ht d, boot_fresh _ _, hb, rfl⟩, ⟨0, .start⟩, rfl, rfl⟩

/-- **Exactly-once execution**: in a run whose callbacks perform recoverable operations only, with
    write-backs and crashes between any two steps, the region table, the persistent memory and the
    tail are those of executing the first `k` entries, after every iteration and after every
    recovery; and after every crash recovery completes. -/
theorem executed_exactly_once {table : List Region} {d : Files} {t0 : ℕ} {s : Sys} (ht : Tiled table)
    (hb : Backed d table)
    (h : Runs (Sys.Step cb entryAt next) Sys.Recoverable (Sys.boot d table t0) s) :
    (s.phase = .idle → ExactlyOnce cb entryAt next (imageOf table d.pm) t0 s) ∧
      (s.phase = .crashed → ∃ s', s.Step cb entryAt next .recover s' ∧
        ExactlyOnce cb entryAt next (imageOf table d.pm) t0 s') := by
  have hinv : Consistent cb entryAt next (imageOf table d.pm) t0 s :=
    h.invariant (consistent_boot ht hb t0) fun _ _ _ hi hok hs => consistent_step hi hok hs
  exact ⟨hinv.exactlyOnce, hinv.recovers⟩

end Run

/-- The system run on a list of steps. -/
def Sys.run (next : ℕ → ℕ) (s : Sys) : List Act → Option Sys
  | [] => some s
  | a :: as => (s.act next a).bind fun s' => s'.run next as

/-- Every step of the run meets a condition. -/
def Sys.Meets (next : ℕ → ℕ) (ok : Sys → Act → Prop) (s : Sys) : List Act → Prop
  | [] => True
  | a :: as => ok s a ∧ ∀ s' ∈ s.act next a, s'.Meets next ok as

instance decidableSysMeets (next : ℕ → ℕ) (ok : Sys → Act → Prop) [∀ s a, Decidable (ok s a)]
    (as : List Act) (s : Sys) : Decidable (s.Meets next ok as) :=
  match as with
  | [] => isTrue trivial
  | _ :: as =>
      have : ∀ s' : Sys, Decidable (s'.Meets next ok as) := decidableSysMeets next ok as
      inferInstanceAs (Decidable (_ ∧ ∀ s' ∈ s.act next _, s'.Meets next ok as))

theorem runs_of_run {Msg : Type*} {cb : Msg → (ℕ → Option ℕ) → List Op → Prop} {entryAt : ℕ → Msg}
    {next : ℕ → ℕ} {ok : Sys → Act → Prop} {s s' : Sys} {as : List Act}
    (hcb : ∀ ops, Act.call ops ∈ as → ∀ m mem, cb m mem ops) (hok : s.Meets next ok as)
    (h : s.run next as = some s') : Runs (Sys.Step cb entryAt next) ok s s' := by
  induction as generalizing s with
  | nil =>
      cases h
      exact .start
  | cons a as ih =>
      obtain ⟨s1, h1, h2⟩ := Option.bind_eq_some_iff.mp h
      have hstep : s.Step cb entryAt next a s1 :=
        ⟨fun ops ha => hcb ops (ha ▸ List.mem_cons_self) _ _, h1⟩
      exact (Runs.start.step a hok.1 hstep).trans
        (ih (fun ops ha => hcb ops (List.mem_cons_of_mem _ ha)) (hok.2 s1 h1) h2)

/-- Entries of one cache line each. -/
def nextLine (t : ℕ) : ℕ := t + 64

/-- The committed page at 8192 holds a 5. -/
def fivePage : Files := ⟨fun n => decide (n = (8192, 0)), fun _ _ => 5, fun _ _ => 5⟩

/-- A callback that maps a page and stores to it and to the committed page. -/
def mapAndStore : List Op := [.mmap 4096 4096 1, .store 4096 [9], .store 8192 [7]]

/-- The iteration of `mapAndStore`, and a crash behind the commit record. -/
def crashCommitted : List Act :=
  [.call mapAndStore, .op, .op, .evict (8192, 0) 128, .op, .persistTable, .commit, .crash, .recover]

/-- A callback that performs the same operations on every entry. -/
def always (ops : List Op) (_ : Unit) (_ : ℕ → Option ℕ) (ops' : List Op) : Prop := ops' = ops

theorem fivePage_backed : Backed fivePage onePage.regions := fun r hr => by
  rw [List.mem_singleton.mp hr]
  decide

theorem executed_once_committed :
    ∃ s, Runs (Sys.Step (always mapAndStore) (fun _ => ()) nextLine) Sys.Recoverable
        (Sys.boot fivePage onePage.regions 0) s ∧ s.tail = 64 ∧
      ExactlyOnce (always mapAndStore) (fun _ => ()) nextLine (imageOf onePage.regions fivePage.pm) 0
        s := by
  have hend : ((Sys.boot fivePage onePage.regions 0).run nextLine crashCommitted).map
      (fun s => (s.tail, s.phase)) = some (64, .idle) := by decide
  obtain ⟨s, hs, hfin⟩ := Option.map_eq_some_iff.mp hend
  rw [Prod.mk.injEq] at hfin
  have hrun : Runs (Sys.Step (always mapAndStore) (fun _ => ()) nextLine) Sys.Recoverable
      (Sys.boot fivePage onePage.regions 0) s := by
    refine runs_of_run (fun ops hops _ _ => ?_) (by decide) hs
    simpa [crashCommitted, always] using hops
  exact ⟨s, hrun, hfin.1, (executed_exactly_once onePage_tiled fivePage_backed hrun).1 hfin.2⟩

/-- Stores go to managed memory, and no more is asked. -/
def Sys.Managed (s : Sys) : Act → Prop
  | .op => ∀ o ∈ s.nextOp, StoresManaged s.epoch o.1
  | _ => True

instance (s : Sys) (a : Act) : Decidable (s.Managed a) :=
  match a with
  | .op => inferInstanceAs (Decidable (∀ o ∈ s.nextOp, _))
  | .call _ | .persistTable | .commit | .updateTail | .commitTable | .clear | .evict _ _ | .crash
  | .recover => isTrue trivial

/-- The committed page is unmapped and a new one takes its place; another page comes and goes; then
    a byte of the new page is stored. -/
def replaceAndStore : List Op :=
  [.munmap 8192 4096 2 3, .mmap 8192 4096 1, .mmap 65536 4096 4, .munmap 65536 4096 5 6,
    .store 8192 [7]]

/-- A crash right behind the callback. -/
def crashUncommitted : List Act :=
  [.call replaceAndStore, .op, .op, .op, .op, .op, .crash, .recover]

theorem executed_nextLine {Msg : Type*} {cb : Msg → (ℕ → Option ℕ) → List Op → Prop}
    {entryAt : ℕ → Msg} {I0 I : Image} {t0 t k : ℕ}
    (h : Executed cb entryAt nextLine I0 t0 k I t) : t = t0 + 64 * k := by
  induction h with
  | start => rfl
  | entry _ _ ih =>
      unfold nextLine
      omega

/-- **Without the condition a rollback overwrites committed memory**: `ranges::remove` forgets that
    the page at 8192 is new, its zero is logged, and recovery writes it to the committed file. -/
theorem rollback_overwrites_committed :
    ¬ ∀ (cb : Unit → (ℕ → Option ℕ) → List Op → Prop) (table : List Region) (d : Files) (t0 : ℕ)
      (s : Sys), Tiled table → Backed d table →
      Runs (Sys.Step cb (fun _ => ()) nextLine) Sys.Managed (Sys.boot d table t0) s →
      s.phase = .idle → ExactlyOnce cb (fun _ => ()) nextLine (imageOf table d.pm) t0 s := by
  intro H
  have hend : ((Sys.boot fivePage onePage.regions 0).run nextLine crashUncommitted).map
      (fun s => (s.tail, s.phase, s.epoch.files.pm (8192, 0) 8192)) = some (0, .idle, 0) := by decide
  obtain ⟨s, hs, hfin⟩ := Option.map_eq_some_iff.mp hend
  simp only [Prod.mk.injEq] at hfin
  obtain ⟨htail, hidle, hbyte⟩ := hfin
  have hrun : Runs (Sys.Step (always replaceAndStore) (fun _ => ()) nextLine) Sys.Managed
      (Sys.boot fivePage onePage.regions 0) s := by
    refine runs_of_run (fun ops hops _ _ => ?_) (by decide) hs
    simpa [crashUncommitted, always] using hops
  obtain ⟨k, I, hk, -, hmem⟩ := H _ _ _ _ s onePage_tiled fivePage_backed hrun hidle
  have hzero : k = 0 := by
    have := executed_nextLine hk
    omega
  subst hzero
  have hI : I = imageOf onePage.regions fivePage.pm := by
    generalize s.tail = t at hk
    cases hk
    rfl
  subst hI
  have hmemb : (⟨8192, 4096, 0⟩ : Region) ∈ onePage.regions := List.mem_singleton_self _
  have heq := imageOf_mem_inj onePage_tiled hmem hmemb
    (Region.mem_pts.mpr (show 8192 ≤ 8192 ∧ 8192 < 8192 + 4096 by decide))
  rw [show (⟨8192, 4096, 0⟩ : Region).fileName = (8192, 0) from rfl, hbyte] at heq
  exact absurd heq (by decide)

end Persimmon
