/-
  File:      Persimmon/FreshStart.lean
  Subject:   A FRESH START on a directory that has an undo log: `undo_log_init` with
             `recovered = false` (src/undo/undo_log.h).

  `open` and `ftruncate` keep what an existing file holds, and `undo_log_clear` zeroes as many
  entries as `undo_log.len` says. In a new process that is none.

  * `mapUndoLog`, `undoLogInitFile` -- `map_undo_log` and both branches of `undo_log_init`;
  * `RecordedBy` -- an entry a run has written; `recorded_of_null` -- in a log that began null, a
    crash leaves no others;
  * `FreshStart`, `freshStart_iff` -- a fresh start begins with an empty log exactly when the file
    was empty already.
-/
import Persimmon.LogBound

namespace Persimmon

open PersistentMemory Transition

/-! ## 1. The functions -/

/-- The mapped log and `undo_log.len`. -/
structure UndoLog where
  log : ℕ → Entry
  len : ℕ

/-- **`undo_log_clear`** -/
def UndoLog.clear (u : UndoLog) : UndoLog := ⟨undoLogClear u.log u.len, 0⟩

/-- **`map_undo_log`**: the entries of the file, if there is one; `ftruncate` adds zeros. -/
def mapUndoLog (file : Option (ℕ → Entry)) : ℕ → Entry := file.getD fun _ => Entry.null

/-- **`undo_log_init`** in a new process, where `undo_log.len` is 0. No result when the scan runs off
    the log or an assertion fails. -/
def undoLogInitFile (file : Option (ℕ → Entry)) (recovered : Bool) : Option UndoLog :=
  let u : UndoLog := ⟨mapUndoLog file, 0⟩
  if recovered then (undoLogInit u.log).map fun n => ⟨u.log, n⟩ else some u.clear

/-! ## 2. Entries of a run -/

/-- **The run has written the entry**: what makes it a data entry or a commit record was stored at
    index `j`. -/
def RecordedBy (es : List Event) (j : ℕ) (e : Entry) : Prop :=
  (e.addr ≠ 0 → .store (.addr j) e.addr ∈ es) ∧
    (e.commitTail ≠ 0 → .store (.commitTail j) e.commitTail ∈ es)

/-- Whole lines are written with zeros only. -/
def ZeroFills (es : List Event) : Prop :=
  ∀ l f, .fill () l f ∈ es → f = fun _ => 0

theorem ZeroFills.append {es es' : List Event} (h : ZeroFills es) (h' : ZeroFills es') :
    ZeroFills (es ++ es') := fun l f hf =>
  (List.mem_append.mp hf).elim (h l f) (h' l f)

theorem ZeroFills.subset {es es' : List Event} (h : ZeroFills es) (hs : es' ⊆ es) : ZeroFills es' :=
  fun l f hf => h l f (hs hf)

/-- An event other than the write of a whole line. -/
theorem zeroFills_of_noFill {es : List Event} (h : ∀ l f, .fill () l f ∉ es) : ZeroFills es :=
  fun l f hf => absurd hf (h l f)

theorem zeroFills_recordFrom (n : ℕ) (es : List Entry) : ZeroFills (recordFrom n es) := by
  induction es generalizing n with
  | nil => exact zeroFills_of_noFill fun _ _ => List.not_mem_nil
  | cons e es ih => exact (zeroFills_of_noFill (by simp [entryEvents])).append (ih (n + 1))

theorem zeroFills_op (e : Epoch) (o : Op) : ZeroFills (o.events e) := by
  cases o with
  | store addr bytes =>
      refine ZeroFills.append ?_ (zeroFills_of_noFill (by simp [storeEvents]))
      unfold recordEvents
      split
      · exact zeroFills_of_noFill fun _ _ => List.not_mem_nil
      · exact (zeroFills_recordFrom _ _).append (zeroFills_of_noFill (by simp))
  | mmap ret size fileId => exact zeroFills_of_noFill fun _ _ => List.not_mem_nil
  | munmap addr size rightId leftId => exact zeroFills_of_noFill fun _ _ => List.not_mem_nil

theorem zeroFills_commit (fresh : Ranges) (log : List Entry) (tail : ℕ) :
    ZeroFills (commitEvents fresh log tail) :=
  zeroFills_of_noFill (by simp [commitEvents, flushEvents, commitRecordEvents])

theorem zeroFills_clear (n : ℕ) : ZeroFills (clearEvents n) := by
  intro l f hf
  rcases List.mem_append.mp hf with hf | hf
  · obtain ⟨i, -, he⟩ := List.mem_map.mp hf
    exact (Ev.fill.inj he).2.2.symm
  · cases List.mem_singleton.mp hf

/-- **A run of stores and commits fills lines with zeros only.** -/
theorem zeroFills_run {e : Epoch} {r : LogRun}
    (h : Runs LogRun.Step Always (LogRun.start e) r) : ZeroFills r.events := by
  refine h.invariant (I := fun r => ZeroFills r.events) (zeroFills_of_noFill fun _ _ => List.not_mem_nil)
    fun r a r' hz _ hs => ?_
  cases hs with
  | op o hp ho => exact hz.append (zeroFills_op _ o)
  | commit tail hp =>
      unfold LogRun.commit
      split
      · exact hz.append (zeroFills_commit _ _ tail)
      · exact hz.append ((zeroFills_commit _ _ tail).subset (List.dropLast_subset _))
  | cleanup hp => exact hz.append (zeroFills_clear _)

/-- A value other than zero in a cell that began zero was stored. -/
theorem store_of_ne_zero {es : List Event} {v : Cell → ℕ} {c : Cell} (hz : ZeroFills es)
    (h0 : v c = 0) (hne : viewAfter lineOf es v c ≠ 0) : .store c (viewAfter lineOf es v c) ∈ es := by
  have horigin : viewAfter lineOf es v c = v c ∨ .store c (viewAfter lineOf es v c) ∈ es ∨
      ∃ t f, .fill t (lineOf c) f ∈ es ∧ viewAfter lineOf es v c = f c := viewAfter_origin es v c
  rcases horigin with h | h | ⟨_, f, hmem, h⟩
  · exact absurd (h.trans h0) hne
  · exact h
  · rw [hz _ f hmem] at h
    exact absurd h hne

/-- **In a log that began null, a crash leaves entries of the run only**, up to where recovery
    scans. -/
theorem recorded_of_null {es p : List Event} {v : Cell → ℕ} {s : Machine} {j : ℕ}
    (hz : ZeroFills es) (hnull : (logImage v j).isNull = true) (hp : p <+: es)
    (hs : Exec lineOf (Memory.start v) p s) : RecordedBy es j (logImage s.pm j) := by
  obtain ⟨h1, h2⟩ := Entry.isNull_iff.mp hnull
  obtain ⟨q, hq, he⟩ := logImage_pm (fun i => Synced.start v (Line.log i)) hs j
  have hqz : ZeroFills q := hz.subset (hq.trans hp).subset
  rw [he]
  exact ⟨fun hne => (hq.trans hp).subset (store_of_ne_zero hqz h1 hne),
    fun hne => (hq.trans hp).subset (store_of_ne_zero hqz h2 hne)⟩

/-! ## 3. The fresh start -/

/-- **A fresh start**: every entry is null, and whatever is stored and committed from then on,
    wherever a crash comes, the entries recovery scans were written by that run. -/
structure FreshStart (file : Option (ℕ → Entry)) : Prop where
  null : ∃ u, undoLogInitFile file false = some u ∧ ∀ i < undoNumEntries, (u.log i).isNull = true
  scanned : ∀ u v, undoLogInitFile file false = some u → logImage v = u.log →
    ∀ e r p s u', e.log = [] → Runs LogRun.Step Always (LogRun.start e) r → p <+: r.events →
      Exec lineOf (Memory.start v) p s → undoLogInitFile (some (logImage s.pm)) true = some u' →
      ∀ j < u'.len, RecordedBy r.events j (u'.log j)

/-- **What is left after `undo_log_init`**: all that the file held. -/
theorem undoLogInitFile_fresh (file : Option (ℕ → Entry)) :
    undoLogInitFile file false = some ⟨mapUndoLog file, 0⟩ := by
  have hclear : undoLogClear (mapUndoLog file) 0 = mapUndoLog file :=
    funext fun i => if_neg (Nat.not_lt_zero i)
  show some (UndoLog.mk (undoLogClear (mapUndoLog file) 0) 0) = _
  rw [hclear]

/-- A log of one data entry, of an earlier run. -/
theorem not_freshStart_stale : ¬ FreshStart (some (logArray [Entry.save (fun _ => 7) 4096])) := by
  intro h
  obtain ⟨u, hu, hnull⟩ := h.null
  rw [undoLogInitFile_fresh] at hu
  obtain rfl := Option.some.inj hu
  exact absurd (hnull 0 (by decide)) (by decide)

/-- **A fresh start begins with an empty undo log** exactly when the file was empty, or was not
    there. -/
theorem freshStart_iff {file : Option (ℕ → Entry)} :
    FreshStart file ↔ ∀ i < undoNumEntries, (mapUndoLog file i).isNull = true := by
  have hinit := undoLogInitFile_fresh file
  constructor
  · intro h
    obtain ⟨u, hu, hnull⟩ := h.null
    obtain rfl := Option.some.inj (hinit.symm.trans hu)
    exact hnull
  · intro h
    refine ⟨⟨_, hinit, h⟩, fun u v hu hv e r p s u' he hrun hp hs hu' j hj => ?_⟩
    obtain rfl := Option.some.inj (hinit.symm.trans hu)
    obtain ⟨n, hn, rfl⟩ := Option.map_eq_some_iff.mp hu'
    have hlt : j < undoNumEntries := Nat.lt_trans hj (undoLogInit_spec hn).1
    have hnull : (logImage v j).isNull = true := by
      rw [hv]
      exact h j hlt
    exact recorded_of_null (zeroFills_run hrun) hnull hp hs

end Persimmon
