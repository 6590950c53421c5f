/-
  File:      Persimmon/TableFile.lean
  Subject:   THE REGION TABLE ON FILE, written and read back
             (src/undo/mem_region/mem_region.cc: `persist_new_region_table`,
             `commit_new_region_table`, `recover`).

  A table file is its list of records. `write` writes over the record at its offset, or appends one;
  `read` gives the records in turn until the end of the file.

  * `writeRecords`, `readRecords` -- the loops; `persistNewRegionTable_eq`, `recover_eq` -- they do
    what `MemRegion.lean` says of the two functions;
  * `recover_roundTrip` -- what a new manager has after a table was written over an old file;
  * `table_roundTrip_iff` -- it is the table that was written, exactly when the old file is not
    longer: nothing truncates it.
-/
import Persimmon.MemRegion

namespace Persimmon

/-! ## 1. The loops -/

/-- `my_write` of one record, the `i`-th of the file. -/
def writeRecord (file : List Region) (i : ℕ) (r : Region) : List Region :=
  if i < file.length then file.set i r else file ++ [r]

/-- The loop of `persist_new_region_table`, from the file offset `i` on. -/
def writeRecords (file : List Region) : ℕ → List Region → List Region
  | _, [] => file
  | i, r :: rs => writeRecords (writeRecord file i r) (i + 1) rs

/-- The loop of `recover`, over what is left of the file. No result when a region file cannot be
    opened. -/
def readRecords (d : Files) : Manager → List Region → Option Manager
  | m, [] => some m
  | m, r :: file =>
      if d.made r.fileName then
        readRecords d ⟨m.regions ++ [r], m.rs.insert r.base r.size⟩ file
      else none

/-- **The records written replace as many old ones**, and the rest of the file stays. -/
theorem writeRecords_eq {file rs : List Region} {i : ℕ} (hi : i ≤ file.length) :
    writeRecords file i rs = file.take i ++ rs ++ file.drop (i + rs.length) := by
  induction rs generalizing file i with
  | nil =>
      rw [writeRecords, List.append_nil, List.length_nil, Nat.add_zero, List.take_append_drop]
  | cons r rs ih =>
      have hrec : writeRecord file i r = file.take i ++ [r] ++ file.drop (i + 1) := by
        unfold writeRecord
        split
        · rename_i h
          rw [List.set_eq_take_append_cons_drop, if_pos h, List.append_assoc]
          rfl
        · rename_i h
          rw [List.take_of_length_le (by omega), List.drop_eq_nil_of_le (by omega),
            List.append_nil]
      have hlen : (file.take i ++ [r]).length = i + 1 := by
        rw [List.length_append, List.length_take, List.length_singleton]
        omega
      have hdrop : (file.take i ++ [r] ++ file.drop (i + 1)).drop (i + 1 + rs.length) =
          file.drop (i + (rs.length + 1)) := by
        rw [List.drop_append, List.drop_eq_nil_of_le (by omega), List.nil_append, hlen,
          List.drop_drop]
        congr 1
        omega
      rw [writeRecords, hrec, ih (by rw [List.length_append]; omega), List.take_left' hlen, hdrop,
        List.length_cons, List.append_assoc (file.take i) [r]]
      rfl

theorem persistNewRegionTable_eq (m : Manager) (t : Tables) :
    persistNewRegionTable m t =
      { t with newTable := some (writeRecords (t.newTable.getD []) 0 m.regions) } := by
  rw [writeRecords_eq (Nat.zero_le _), List.take_zero, List.nil_append, Nat.zero_add]
  rfl

theorem readRecords_eq (d : Files) (m : Manager) (file : List Region) :
    readRecords d m file =
      if file.all fun r => d.made r.fileName then
        some ⟨m.regions ++ file, file.foldl (fun rs r => rs.insert r.base r.size) m.rs⟩
      else none := by
  induction file generalizing m with
  | nil => simp [readRecords]
  | cons r file ih =>
      rw [readRecords, List.all_cons, List.foldl_cons, List.append_cons m.regions r file]
      by_cases h : d.made r.fileName = true
      · rw [if_pos h, ih, h, Bool.true_and]
      · rw [if_neg h, Bool.eq_false_iff.mpr h, Bool.false_and, if_neg Bool.false_ne_true]

theorem recover_eq (m : Manager) (d : Files) (t : Tables) :
    m.recover d t = readRecords d m t.table := (readRecords_eq d m t.table).symm

/-! ## 2. The round trip -/

/-- A new manager after `persist_new_region_table` and `commit_new_region_table`, every system call
    succeeding: the regions written, and the old records behind them. -/
theorem recover_roundTrip {m m' : Manager} {d : Files} {t : Tables}
    (h : Manager.new.recover d (commitNewRegionTable true true (persistNewRegionTable m t)).2 =
      some m') :
    m'.regions = m.regions ++ (t.newTable.getD []).drop m.regions.length := by
  simp only [persistNewRegionTable, commitNewRegionTable, Bool.true_eq_false, if_false,
    Manager.recover, Manager.new, List.nil_append] at h
  split at h
  · rw [← Option.some.inj h]
  · cases h

/-- A new manager has the regions and the points of `m`. -/
def RoundTrips (m : Manager) (d : Files) (t : Tables) : Prop :=
  ∃ m', Manager.new.recover d (commitNewRegionTable true true (persistNewRegionTable m t)).2 =
      some m' ∧
    m'.regions = m.regions ∧ ∀ x < 2 ^ 64, m'.doesManage x = true ↔ x ∈ regionPts m.regions

/-- One region is left of two: a rename failed while there were two, and `new_table.dat` stayed. -/
theorem not_roundTrips_shrunk :
    ¬ RoundTrips ⟨[⟨65536, 4096, 1⟩], ⟨[⟨65536, 4096⟩]⟩⟩
      ⟨fun _ => true, fun _ _ => 0, fun _ _ => 0⟩
      ⟨[], some [⟨65536, 4096, 1⟩, ⟨131072, 4096, 2⟩]⟩ := by
  intro hex
  obtain ⟨m', h, hr, -⟩ := hex
  rw [recover_roundTrip h] at hr
  exact absurd hr (by decide)

/-- **The region table round trip.** For any regions below the end of the address space whose files
    exist, and whatever the directory held: a new manager has the same regions in the same order,
    and manages their points, exactly when `new_table.dat` was not longer before. -/
theorem table_roundTrip_iff {m : Manager} {d : Files} {t : Tables}
    (hmade : ∀ r ∈ m.regions, d.made r.fileName = true) (hstop : ∀ r ∈ m.regions, r.stop < 2 ^ 64) :
    RoundTrips m d t ↔ (t.newTable.getD []).length ≤ m.regions.length := by
  constructor
  · intro hex
    obtain ⟨m', h, hr, -⟩ := hex
    rw [recover_roundTrip h, List.append_right_eq_self] at hr
    exact List.drop_eq_nil_iff.mp hr
  · intro hlen
    have htable : (commitNewRegionTable true true (persistNewRegionTable m t)).2 =
        ⟨m.regions, none⟩ := by
      simp only [persistNewRegionTable, commitNewRegionTable, List.drop_eq_nil_of_le hlen,
        List.append_nil]
      rfl
    have hrec : Manager.new.recover d ⟨m.regions, none⟩ =
        some ⟨m.regions, m.regions.foldl (fun rs r => rs.insert r.base r.size) Ranges.empty⟩ := by
      rw [Manager.recover, if_pos (List.all_eq_true.mpr hmade)]
      rfl
    unfold RoundTrips
    rw [htable]
    exact ⟨_, hrec, rfl, fun x hx => recover_doesManage hstop hrec hx⟩

theorem table_roundTrip_iff_grown :
    RoundTrips ⟨[⟨65536, 4096, 1⟩, ⟨131072, 4096, 2⟩], Ranges.empty⟩
        ⟨fun _ => true, fun _ _ => 0, fun _ _ => 0⟩ ⟨[], some [⟨65536, 4096, 1⟩]⟩ ↔
      ((some [(⟨65536, 4096, 1⟩ : Region)]).getD []).length ≤
        [(⟨65536, 4096, 1⟩ : Region), ⟨131072, 4096, 2⟩].length :=
  table_roundTrip_iff (fun _ _ => rfl) (by
    intro r hr
    rcases List.mem_cons.mp hr with rfl | hr
    · decide
    · rw [List.mem_singleton.mp hr]
      decide)

end Persimmon
