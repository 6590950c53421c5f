/-
  File:      Persimmon/Recovery.lean
  Subject:   RECOVERY AS A SEQUENCE OF PERSISTENT STEPS (src/undo/instrument.cc: `dr_client_main`;
             src/undo/undo_log.h: `undo_log_recover`; src/bg.cc: `bg_run`).

  `undo_log_recover` runs in `dr_client_main`; the tail it returns is stored into `psm_log` by
  `bg_run`, after the undo log has been cleared and after the hand-shake with the foreground.

  * `Persistent` -- what survives a crash; `RecStep`, `recoveryPlan` -- the steps recovery takes on
    it; `recoverAll` -- an uninterrupted recovery; `recoverCuts` -- attempts cut short by crashes;
  * `recoverAll_commit`, `recoverAll_rollback` -- what an uninterrupted recovery does;
  * `recovery_keeps_tail_iff` -- the commit's tail survives the crashes exactly when the first
    attempt that clears the undo log also gets as far as `update_tail`.
-/
import Persimmon.Epoch

namespace Persimmon

/-- **The persistent objects**: region files, region tables, undo log, the tail of `psm_log`. -/
structure Persistent where
  files : Files
  tables : Tables
  log : ℕ → Entry
  tail : ℕ

/-- The `memcpy` of one entry to the mapped region files, and its flush. -/
def Files.memcpyBlk (m : Manager) (e : Entry) (d : Files) : Files where
  made := d.made
  cache n x :=
    if (e.addr ≤ x ∧ x < e.addr + 32) ∧ (m.regionAt x).map Region.fileName = some n then e.byteAt x
    else d.cache n x
  pm n x :=
    if (e.addr ≤ x ∧ x < e.addr + 32) ∧ (m.regionAt x).map Region.fileName = some n then e.byteAt x
    else d.pm n x

/-! ## 1. The steps -/

inductive RecStep where
  | commitTable
  | clearTable
  | recover
  | applyLog (len : ℕ)
  | clearLog (len : ℕ)
  | handShake
  | updateTail (tail : ℕ)
  deriving DecidableEq, Repr

/-- One step; the manager is that of the recovering process. -/
def RecStep.exec : RecStep → Persistent × Manager → Option (Persistent × Manager)
  | .commitTable, (p, m) => some ({ p with tables := (commitNewRegionTable true true p.tables).2 }, m)
  | .clearTable, (p, m) => some ({ p with tables := (clearNewRegionTable true true p.tables).2 }, m)
  | .recover, (p, m) => (m.recover p.files p.tables).map fun m' => (p, m')
  | .applyLog len, (p, m) =>
      (applyBack m.doesManage (Files.memcpyBlk m) p.log len p.files).map fun d =>
        ({ p with files := d }, m)
  | .clearLog len, (p, m) => some ({ p with log := undoLogClear p.log len }, m)
  | .handShake, (p, m) => some (p, m)
  | .updateTail tail, (p, m) => some ({ p with tail := tail }, m)

/-- **The order of the steps**: `undo_log_init`, `undo_log_recover` with or without a commit record,
    the hand-shake, and `bg_run`'s `update_tail` when a tail was returned. -/
def recoveryPlan (log : ℕ → Entry) : Option (List RecStep) :=
  (undoLogInit log).map fun len =>
    match commitFound log len with
    | some tail => [.commitTable, .recover, .clearLog len, .handShake, .updateTail tail]
    | none => [.clearTable, .recover, .applyLog len, .clearLog len, .handShake]

def execSteps : List RecStep → Persistent × Manager → Option (Persistent × Manager)
  | [], s => some s
  | st :: sts, s => (st.exec s).bind (execSteps sts)

/-- **An uninterrupted recovery**, and the manager of the process it leaves. -/
def recoverAll (p : Persistent) : Option (Persistent × Manager) :=
  (recoveryPlan p.log).bind fun plan => execSteps plan (p, Manager.new)

/-- A recovery that crashes after `cut` steps. -/
def recoverCut (p : Persistent) (cut : ℕ) : Option Persistent :=
  (recoveryPlan p.log).bind fun plan => (execSteps (plan.take cut) (p, Manager.new)).map Prod.fst

/-- Recoveries that crash after so many steps each, and a last one that completes. -/
def recoverCuts (p : Persistent) : List ℕ → Option Persistent
  | [] => (recoverAll p).map Prod.fst
  | cut :: cuts => (recoverCut p cut).bind fun p' => recoverCuts p' cuts

/-! ## 2. What a recovery does -/

/-- The log is data entries and a commit record, and nothing behind them. -/
structure EndsInCommit (log : ℕ → Entry) (n tail : ℕ) : Prop where
  before : ∀ i < n, (log i).isNull = false ∧ (log i).Proper
  recordAddr : (log n).addr = 0
  recordTail : (log n).commitTail = tail + 1
  beyond : ∀ i, n < i → (log i).isNull = true
  room : n + 1 < undoNumEntries

/-- The region table once the new one, if there is one, is committed. -/
def committedTable (t : Tables) : List Region := t.newTable.getD t.table

/-- The persistent objects with the region table committed. -/
def Persistent.switched (p : Persistent) : Persistent :=
  { p with tables := ⟨committedTable p.tables, none⟩ }

section Plan

variable {p : Persistent} {n tail : ℕ}

theorem commitNewRegionTable_eq (t : Tables) :
    (commitNewRegionTable true true t).2 = ⟨committedTable t, none⟩ := by
  obtain ⟨t, new⟩ := t
  cases new <;> rfl

theorem clearNewRegionTable_eq (t : Tables) :
    (clearNewRegionTable true true t).2 = ⟨t.table, none⟩ := by
  obtain ⟨t, new⟩ := t
  cases new <;> rfl

theorem EndsInCommit.init (h : EndsInCommit p.log n tail) : undoLogInit p.log = some (n + 1) := by
  refine undoLogInit_eq h.room (h.beyond _ (Nat.lt_succ_self n)) fun i hi => ?_
  rcases Nat.lt_succ_iff_lt_or_eq.mp hi with hlt | rfl
  · exact h.before i hlt
  · refine ⟨Bool.eq_false_iff.mpr fun hn => ?_, Or.inr h.recordAddr⟩
    have := (Entry.isNull_iff.mp hn).2
    rw [h.recordTail] at this
    cases this

theorem EndsInCommit.plan (h : EndsInCommit p.log n tail) :
    recoveryPlan p.log =
      some [.commitTable, .recover, .clearLog (n + 1), .handShake, .updateTail tail] := by
  have hfound : commitFound p.log (n + 1) = some tail := by
    unfold commitFound
    rw [if_pos ⟨Nat.succ_pos n, by rw [Nat.add_sub_cancel, h.recordTail]; exact Nat.succ_pos tail⟩,
      Nat.add_sub_cancel, h.recordTail, Nat.add_sub_cancel]
  rw [recoveryPlan, h.init, Option.map_some, hfound]

/-- The manager a recovery of the table builds. -/
def Manager.ofTable (table : List Region) : Manager :=
  ⟨table, table.foldl (fun rs r => rs.insert r.base r.size) Ranges.empty⟩

theorem recover_ofTable {d : Files} {t : Tables} (h : ∀ r ∈ t.table, d.made r.fileName = true) :
    Manager.new.recover d t = some (Manager.ofTable t.table) := by
  unfold Manager.recover
  rw [if_pos (List.all_eq_true.mpr h)]
  rfl

/-- **Recovery after a commit**: the new table, the memory as it is, an empty log, the commit's
    tail. -/
theorem recoverAll_commit (h : EndsInCommit p.log n tail)
    (hmade : ∀ r ∈ committedTable p.tables, p.files.made r.fileName = true) :
    recoverAll p = some ({ p.switched with log := undoLogClear p.log (n + 1), tail := tail },
      Manager.ofTable (committedTable p.tables)) := by
  have hrec : Manager.new.recover p.files ⟨committedTable p.tables, none⟩ =
      some (Manager.ofTable (committedTable p.tables)) := recover_ofTable hmade
  rw [recoverAll, h.plan, Option.bind_some]
  simp only [execSteps, RecStep.exec, Option.bind_some, commitNewRegionTable_eq, hrec,
    Option.map_some]
  rfl

/-- **Recovery without a commit record**: the old table, the entries written back, an empty log, the
    tail as it was. -/
theorem recoverAll_rollback (hinit : undoLogInit p.log = some n)
    (hmade : ∀ r ∈ p.tables.table, p.files.made r.fileName = true)
    (happ : ∀ i < n, Applicable (Manager.ofTable p.tables.table).doesManage (p.log i)) :
    recoverAll p = some (⟨((List.range n).map p.log).foldr
        (Files.memcpyBlk (Manager.ofTable p.tables.table)) p.files,
      ⟨p.tables.table, none⟩, undoLogClear p.log n, p.tail⟩, Manager.ofTable p.tables.table) := by
  have hno : commitFound p.log n = none := by
    unfold commitFound
    refine if_neg fun h => ?_
    have := (happ (n - 1) (by omega)).1
    omega
  have hrec : Manager.new.recover p.files ⟨p.tables.table, none⟩ =
      some (Manager.ofTable p.tables.table) := recover_ofTable hmade
  rw [recoverAll, recoveryPlan, hinit, Option.map_some, hno, Option.bind_some]
  simp only [execSteps, RecStep.exec, Option.bind_some, clearNewRegionTable_eq, hrec,
    Option.map_some, applyBack_eq happ]

end Plan

/-! ## 3. Crashes in the middle of recovery -/

/-- **The first attempt that clears the undo log also gets as far as `update_tail`**: the clear is
    the third of the five steps. -/
def SafeCuts : List ℕ → Prop
  | [] => True
  | cut :: cuts => if cut < 3 then SafeCuts cuts else 5 ≤ cut

/-- The committed epoch is applied, and the tail is the commit's. -/
structure CommitApplied (p : Persistent) (tail : ℕ) (p' : Persistent) : Prop where
  table : p'.tables.table = committedTable p.tables
  files : p'.files = p.files
  tail : p'.tail = tail

section Cuts

variable {p : Persistent} {n tail : ℕ}

/-- An attempt on a committed log, wherever it is cut. -/
theorem recoverCut_commit (h : EndsInCommit p.log n tail)
    (hmade : ∀ r ∈ committedTable p.tables, p.files.made r.fileName = true) (cut : ℕ) :
    recoverCut p cut = some
      (if cut = 0 then p else if cut < 3 then p.switched
        else if cut < 5 then { p.switched with log := undoLogClear p.log (n + 1) }
        else { p.switched with log := undoLogClear p.log (n + 1), tail := tail }) := by
  have hrec : Manager.new.recover p.files ⟨committedTable p.tables, none⟩ =
      some (Manager.ofTable (committedTable p.tables)) := recover_ofTable hmade
  rw [recoverCut, h.plan, Option.bind_some]
  match cut with
  | 0 => rfl
  | 1 =>
      simp only [List.take_succ_cons, List.take_zero, execSteps, RecStep.exec, Option.bind_some,
        commitNewRegionTable_eq, Option.map_some]
      rfl
  | 2 | 3 | 4 =>
      simp only [List.take_succ_cons, List.take_zero, execSteps, RecStep.exec, Option.bind_some,
        commitNewRegionTable_eq, hrec, Option.map_some]
      rfl
  | cut + 5 =>
      simp only [List.take_succ_cons, List.take_nil, execSteps, RecStep.exec, Option.bind_some,
        commitNewRegionTable_eq, hrec, Option.map_some]
      rw [if_neg (by omega), if_neg (by omega), if_neg (by omega)]
      rfl

/-- With an empty log and no new table recovery changes nothing, wherever it is cut. -/
theorem recoverCut_empty (hnull : ∀ i, (p.log i).isNull = true) (hnew : p.tables.newTable = none)
    (hmade : ∀ r ∈ p.tables.table, p.files.made r.fileName = true) :
    (∀ cut, recoverCut p cut = some p) ∧ ∃ m, recoverAll p = some (p, m) := by
  have htab : (clearNewRegionTable true true p.tables).2 = p.tables := by
    rw [clearNewRegionTable, hnew]
  have hlog : undoLogClear p.log 0 = p.log := funext fun i => if_neg (Nat.not_lt_zero i)
  have hinit : undoLogInit p.log = some 0 :=
    undoLogInit_eq (by decide) (hnull 0) fun j hj => absurd hj (Nat.not_lt_zero j)
  have hplan : recoveryPlan p.log =
      some [.clearTable, .recover, .applyLog 0, .clearLog 0, .handShake] := by
    rw [recoveryPlan, hinit]
    rfl
  refine ⟨fun cut => ?_, Manager.ofTable p.tables.table, ?_⟩
  · rw [recoverCut, hplan, Option.bind_some]
    match cut with
    | 0 => rfl
    | 1 =>
        simp only [List.take_succ_cons, List.take_zero, execSteps, RecStep.exec, Option.bind_some,
          htab, Option.map_some]
    | 2 | 3 | 4 | cut + 5 =>
        simp only [List.take_succ_cons, List.take_zero, List.take_nil, execSteps, RecStep.exec,
          Option.bind_some, htab, recover_ofTable hmade, Option.map_some, applyBack, hlog]
  · rw [recoverAll, hplan, Option.bind_some]
    simp only [execSteps, RecStep.exec, Option.bind_some, htab, recover_ofTable hmade,
      Option.map_some, applyBack, hlog]

theorem recoverCuts_empty (hnull : ∀ i, (p.log i).isNull = true) (hnew : p.tables.newTable = none)
    (hmade : ∀ r ∈ p.tables.table, p.files.made r.fileName = true) (cuts : List ℕ) :
    recoverCuts p cuts = some p := by
  obtain ⟨hcut, m, hall⟩ := recoverCut_empty hnull hnew hmade
  induction cuts with
  | nil =>
      rw [recoverCuts, hall]
      rfl
  | cons cut cuts ih => rw [recoverCuts, hcut, Option.bind_some, ih]

theorem EndsInCommit.cleared (h : EndsInCommit p.log n tail) (i : ℕ) :
    (undoLogClear p.log (n + 1) i).isNull = true := by
  unfold undoLogClear
  split
  · rfl
  · exact h.beyond i (by omega)

/-- **The commit's tail survives crashes during recovery exactly when the first attempt that clears
    the undo log also gets as far as `update_tail`.** -/
theorem recovery_keeps_tail_iff (h : EndsInCommit p.log n tail) (hne : p.tail ≠ tail)
    (hmade : ∀ r ∈ committedTable p.tables, p.files.made r.fileName = true) (cuts : List ℕ) :
    (∃ p', recoverCuts p cuts = some p' ∧ CommitApplied p tail p') ↔ SafeCuts cuts := by
  induction cuts generalizing p with
  | nil =>
      refine ⟨fun _ => trivial, fun _ => ?_⟩
      rw [recoverCuts, recoverAll_commit h hmade]
      exact ⟨_, rfl, rfl, rfl, rfl⟩
  | cons cut cuts ih =>
      rw [recoverCuts, recoverCut_commit h hmade, Option.bind_some, SafeCuts]
      by_cases h0 : cut = 0
      · rw [if_pos h0, if_pos (by omega : cut < 3)]
        exact ih h hne hmade
      by_cases h3 : cut < 3
      · rw [if_neg h0, if_pos h3, if_pos h3, ← ih (p := p.switched) h hne hmade]
        exact ⟨fun ⟨p', hp, ht, hf, htl⟩ => ⟨p', hp, ht, hf, htl⟩,
          fun ⟨p', hp, ht, hf, htl⟩ => ⟨p', hp, ht, hf, htl⟩⟩
      rw [if_neg h0, if_neg h3, if_neg h3]
      by_cases h5 : cut < 5
      · rw [if_pos h5, recoverCuts_empty h.cleared rfl hmade]
        refine ⟨fun ⟨p', hp, ha⟩ => ?_, fun h => absurd h (by omega)⟩
        cases hp
        exact absurd ha.tail hne
      · rw [if_neg h5, recoverCuts_empty h.cleared rfl hmade]
        exact ⟨fun _ => by omega, fun _ => ⟨_, rfl, rfl, rfl, rfl⟩⟩

end Cuts

/-- A log that holds nothing but the commit record of tail 64; `psm_log` still holds tail 0. -/
def commitPending : Persistent where
  files := ⟨fun _ => true, fun _ _ => 0, fun _ _ => 0⟩
  tables := ⟨[⟨4096, 4096, 0⟩], none⟩
  log i := if i = 0 then Entry.commit 64 else Entry.null
  tail := 0

theorem commitPending_endsInCommit : EndsInCommit commitPending.log 0 64 where
  before i hi := absurd hi (Nat.not_lt_zero i)
  recordAddr := rfl
  recordTail := rfl
  beyond i hi := by
    have hne : i ≠ 0 := Nat.ne_of_gt hi
    simp [commitPending, hne]
  room := by decide

/-- Two attempts that crash before the clear, and one that completes. -/
theorem recovery_keeps_tail_pending :
    (∃ p', recoverCuts commitPending [2, 1, 5] = some p' ∧ CommitApplied commitPending 64 p') ↔
      SafeCuts [2, 1, 5] :=
  recovery_keeps_tail_iff commitPending_endsInCommit (by decide) (fun _ _ => rfl) [2, 1, 5]

/-- **A crash between the clear and `update_tail` loses the tail**: the next recovery finds an empty
    log and returns -1. -/
theorem recovery_loses_tail :
    ¬ ∀ (p : Persistent) (n tail : ℕ) (cuts : List ℕ), EndsInCommit p.log n tail → p.tail ≠ tail →
      (∀ r ∈ committedTable p.tables, p.files.made r.fileName = true) →
      ∃ p', recoverCuts p cuts = some p' ∧ CommitApplied p tail p' := by
  intro H
  obtain ⟨p', hp, ha⟩ := H commitPending 0 64 [4] commitPending_endsInCommit (by decide)
    fun _ _ => rfl
  have hcut := recoverCut_commit commitPending_endsInCommit (fun _ _ => rfl) 4
  rw [recoverCuts, hcut, Option.bind_some,
    recoverCuts_empty commitPending_endsInCommit.cleared rfl fun _ _ => rfl] at hp
  cases hp
  exact absurd ha.tail (by decide)

end Persimmon
