/-
  File:      Persimmon/TableSwitch.lean
  Subject:   THE SWITCH TO A NEW REGION TABLE AND THE COMMIT RECORD: `commit_new_region_table` and the
             two callers that clear the undo log behind it (src/undo/mem_region/mem_region.cc;
             src/undo/instrument.cc: `instrument_cleanup`; src/undo/undo_log.h:
             `undo_log_recover`).

  Neither caller looks at what `commit_new_region_table` returns.

  * `Directory`, `Directory.commit` -- the two table files, as system calls see them and as a crash
    leaves them;
  * `instrumentCleanup`, `recoverCommitted` -- the callers, and `Caller` -- either of them;
  * `recoverAll_empty` -- what a later recovery installs: the table in `table.dat`;
  * `commit_outlives_iff` -- the commit record outlives the switch exactly when `renameat` does not
    fail; what a crash leaves is right exactly when the rename is on disk, too.
-/
import Persimmon.Recovery

namespace Persimmon

/-! ## 1. The directory -/

/-- The table files: what system calls see, and what a crash leaves. -/
structure Directory where
  now : Tables
  disk : Tables

/-- The results of `renameat` on a file that exists and of the `fsync` of the directory; and whether
    a rename that has not been synced has reached the disk all the same. -/
structure SwitchCalls where
  renamed : Bool
  synced : Bool
  reached : Bool
  deriving DecidableEq, Repr

/-- The rename reaches the disk. -/
def SwitchCalls.Durable (o : SwitchCalls) : Prop :=
  o.renamed = true ∧ (o.synced = true ∨ o.reached = true)

instance (o : SwitchCalls) : Decidable o.Durable := inferInstanceAs (Decidable (_ ∧ _))

/-- **`commit_new_region_table`** on the directory. -/
def Directory.commit (dir : Directory) (o : SwitchCalls) : Result × Directory :=
  let r := commitNewRegionTable o.renamed o.synced dir.now
  (r.1, ⟨r.2, if dir.now.newTable.isSome ∧ o.Durable then r.2 else dir.disk⟩)

/-! ## 2. The callers -/

/-- The undo log, and what goes with it. -/
structure Switching where
  dir : Directory
  log : ℕ → Entry
  len : ℕ
  modified : Bool

/-- **`instrument_cleanup`**. No result when an assertion of `undo_log_post_commit_cleanup` fails. -/
def instrumentCleanup (o : SwitchCalls) (u : Switching) : Option Switching :=
  let dir := if u.modified then (u.dir.commit o).2 else u.dir
  if 0 < u.len ∧ 0 < (u.log (u.len - 1)).commitTail then
    some ⟨dir, undoLogClear u.log u.len, 0, false⟩
  else none

/-- **The first branch of `undo_log_recover`**, and the manager it recovers: no result when there is
    no commit record, or when a region file is missing. -/
def recoverCommitted (d : Files) (o : SwitchCalls) (u : Switching) : Option (Switching × Manager) :=
  (commitFound u.log u.len).bind fun _ =>
    let dir := (u.dir.commit o).2
    (Manager.new.recover d dir.now).map fun m =>
      (⟨dir, undoLogClear u.log u.len, 0, u.modified⟩, m)

inductive Caller where
  | cleanup
  | recover
  deriving DecidableEq, Repr

/-- What a caller leaves. -/
def Caller.run (c : Caller) (d : Files) (o : SwitchCalls) (u : Switching) : Option Switching :=
  match c with
  | .cleanup => instrumentCleanup o u
  | .recover => (recoverCommitted d o u).map Prod.fst

/-- What a crash leaves behind a caller. -/
def Switching.persistent (u : Switching) (d : Files) (tail : ℕ) : Persistent :=
  ⟨d, u.dir.disk, u.log, tail⟩

/-- **A later recovery installs the table `n`.** -/
def Installs (p : Persistent) (n : List Region) : Prop :=
  ∃ p' m, recoverAll p = some (p', m) ∧ m.regions = n

/-- **The commit record outlives the switch** to the new table, of the tables `t`: the undo log is
    cleared only if `table.dat` holds the new table; and if `renameat` failed on a new table that
    exists, a later recovery still installs it. -/
def Outlives (d : Files) (t : Tables) (o : SwitchCalls) (tail : ℕ) (u : Switching) : Prop :=
  ((∀ i, (u.log i).isNull = true) → u.dir.now.table = committedTable t) ∧
    (t.newTable.isSome = true → o.renamed = false →
      Installs (u.persistent d tail) (committedTable t))

/-! ## 3. What happens -/

section Switch

variable {d : Files} {t : Tables} {o : SwitchCalls} {log : ℕ → Entry} {k tail : ℕ}

/-- The state a caller begins with: a committed epoch that has modified the table. -/
def switching (t : Tables) (log : ℕ → Entry) (k : ℕ) : Switching := ⟨⟨t, t⟩, log, k + 1, true⟩

theorem commit_now (t : Tables) (o : SwitchCalls) :
    (Directory.commit ⟨t, t⟩ o).2.now.table =
      if o.renamed = true then committedTable t else t.table := by
  obtain ⟨table, new⟩ := t
  obtain ⟨renamed, synced, reached⟩ := o
  cases new <;> cases renamed <;> cases synced <;> rfl

theorem commit_disk (t : Tables) (o : SwitchCalls) :
    (Directory.commit ⟨t, t⟩ o).2.disk.table = if o.Durable then committedTable t else t.table := by
  obtain ⟨table, new⟩ := t
  obtain ⟨renamed, synced, reached⟩ := o
  cases new <;> cases renamed <;> cases synced <;> cases reached <;> rfl

theorem commitFound_endsInCommit {p : Persistent} (h : EndsInCommit p.log k tail) :
    commitFound p.log (k + 1) = some tail := by
  unfold commitFound
  rw [Nat.add_sub_cancel, h.recordTail, if_pos ⟨Nat.succ_pos k, Nat.succ_pos tail⟩,
    Nat.add_sub_cancel]

/-- **Both callers clear the undo log**, whatever `commit_new_region_table` has returned. -/
theorem run_switching (h : EndsInCommit log k tail)
    (hmade : ∀ r ∈ t.table, d.made r.fileName = true)
    (hnew : ∀ r ∈ committedTable t, d.made r.fileName = true) (c : Caller) (o : SwitchCalls) :
    ∃ u, c.run d o (switching t log k) = some u ∧ u.dir = (Directory.commit ⟨t, t⟩ o).2 ∧
      u.log = undoLogClear log (k + 1) := by
  have hfound : commitFound log (k + 1) = some tail :=
    commitFound_endsInCommit (p := ⟨d, t, log, tail⟩) h
  cases c with
  | cleanup =>
      have hlast : 0 < k + 1 ∧ 0 < (log (k + 1 - 1)).commitTail := by
        rw [Nat.add_sub_cancel, h.recordTail]
        exact ⟨Nat.succ_pos k, Nat.succ_pos tail⟩
      exact ⟨⟨(Directory.commit ⟨t, t⟩ o).2, undoLogClear log (k + 1), 0, false⟩, if_pos hlast, rfl, rfl⟩
  | recover =>
      have hrec : ∀ r ∈ (Directory.commit ⟨t, t⟩ o).2.now.table, d.made r.fileName = true := by
        rw [commit_now]
        split
        · exact hnew
        · exact hmade
      refine ⟨⟨(Directory.commit ⟨t, t⟩ o).2, undoLogClear log (k + 1), 0, true⟩, ?_, rfl, rfl⟩
      simp only [Caller.run, recoverCommitted, switching, hfound, Option.bind_some,
        recover_ofTable hrec, Option.map_some]

/-- **What a recovery with an empty log installs** is the table in `table.dat`; a new table is
    deleted. -/
theorem recoverAll_empty {p : Persistent} (hnull : ∀ i, (p.log i).isNull = true)
    (hmade : ∀ r ∈ p.tables.table, p.files.made r.fileName = true) {n : List Region} :
    Installs p n ↔ p.tables.table = n := by
  have hinit : undoLogInit p.log = some 0 :=
    undoLogInit_eq (by decide) (hnull 0) fun j hj => absurd hj (Nat.not_lt_zero j)
  have hrec := recoverAll_rollback hinit hmade fun i hi => absurd hi (Nat.not_lt_zero i)
  constructor
  · intro hex
    obtain ⟨p', m, he, rfl⟩ := hex
    rw [hrec] at he
    cases he
    rfl
  · exact fun he => ⟨_, _, hrec, he⟩

/-- **The commit record outlives the switch exactly when `renameat` does not fail** on a new table
    that differs from the old one; and a crash behind the caller leaves the new table installed
    exactly when, moreover, the rename has reached the disk. -/
theorem commit_outlives_iff (h : EndsInCommit log k tail)
    (hmade : ∀ r ∈ t.table, d.made r.fileName = true)
    (hnew : ∀ r ∈ committedTable t, d.made r.fileName = true) (c : Caller) (o : SwitchCalls) :
    ∃ u, c.run d o (switching t log k) = some u ∧
      (Outlives d t o tail u ↔ o.renamed = true ∨ committedTable t = t.table) ∧
      (Installs (u.persistent d tail) (committedTable t) ↔
        o.Durable ∨ committedTable t = t.table) := by
  obtain ⟨u, hrun, hdir, hlog⟩ := run_switching (d := d) h hmade hnew c o
  have hnull : ∀ i, (u.log i).isNull = true := fun i => by
    rw [hlog]
    exact EndsInCommit.cleared (p := ⟨d, t, log, tail⟩) h i
  have hdisk : ∀ r ∈ u.dir.disk.table, d.made r.fileName = true := by
    rw [hdir, commit_disk]
    split
    · exact hnew
    · exact hmade
  have hinst : Installs (u.persistent d tail) (committedTable t) ↔
      o.Durable ∨ committedTable t = t.table := by
    rw [recoverAll_empty (p := u.persistent d tail) hnull hdisk]
    show u.dir.disk.table = _ ↔ _
    rw [hdir, commit_disk]
    split
    · rename_i hd
      exact ⟨fun _ => Or.inl hd, fun _ => rfl⟩
    · rename_i hd
      exact ⟨fun he => Or.inr he.symm, fun he => (he.resolve_left hd).symm⟩
  have hnow : u.dir.now.table = committedTable t ↔
      o.renamed = true ∨ committedTable t = t.table := by
    rw [hdir, commit_now]
    split
    · rename_i hr
      exact ⟨fun _ => Or.inl hr, fun _ => rfl⟩
    · rename_i hr
      exact ⟨fun he => Or.inr he.symm, fun he => (he.resolve_left hr).symm⟩
  refine ⟨u, hrun, ⟨fun ho => hnow.mp (ho.1 hnull), fun hc => ⟨fun _ => hnow.mpr hc, ?_⟩⟩, hinst⟩
  intro _ hr
  rcases hc with hc | hc
  · exact absurd (hr.symm.trans hc) nofun
  · exact hinst.mpr (Or.inr hc)

end Switch

/-- One region is in the old table, two are in the new one. -/
def grownTables : Tables := ⟨[⟨4096, 4096, 0⟩], some [⟨4096, 4096, 0⟩, ⟨8192, 4096, 1⟩]⟩

/-- Both calls succeed in `instrument_cleanup`. -/
theorem commit_outlives_grown :
    ∃ u, Caller.cleanup.run commitPending.files ⟨true, true, false⟩
        (switching grownTables commitPending.log 0) = some u ∧
      Outlives commitPending.files grownTables ⟨true, true, false⟩ 64 u := by
  obtain ⟨u, hrun, hiff, -⟩ := commit_outlives_iff (d := commitPending.files) (t := grownTables)
    commitPending_endsInCommit (fun _ _ => rfl) (fun _ _ => rfl) .cleanup ⟨true, true, false⟩
  exact ⟨u, hrun, hiff.mpr (Or.inl rfl)⟩

/-- **A rename that fails loses the new table**, with its commit record. -/
theorem commit_lost :
    ¬ ∀ (d : Files) (t : Tables) (log : ℕ → Entry) (k tail : ℕ) (c : Caller) (o : SwitchCalls),
      EndsInCommit log k tail → (∀ r ∈ t.table, d.made r.fileName = true) →
      (∀ r ∈ committedTable t, d.made r.fileName = true) →
      ∃ u, c.run d o (switching t log k) = some u ∧ Outlives d t o tail u := by
  intro H
  obtain ⟨u, hrun, hout, -⟩ := H commitPending.files grownTables commitPending.log 0 64 .cleanup
    ⟨false, false, false⟩ commitPending_endsInCommit (fun _ _ => rfl) fun _ _ => rfl
  obtain ⟨u', hrun', hdir, hlog⟩ := run_switching (d := commitPending.files) (t := grownTables)
    commitPending_endsInCommit (fun _ _ => rfl) (fun _ _ => rfl) .cleanup ⟨false, false, false⟩
  rw [hrun] at hrun'
  cases hrun'
  have hnow := hout fun i => by
    rw [hlog]
    exact commitPending_endsInCommit.cleared i
  rw [hdir, commit_now] at hnow
  exact absurd hnow (by decide)

end Persimmon
