/-
  File:      Persimmon/UndoLog.lean
  Subject:   The undo log (src/undo/undo_log.h): its entries, what a store records, what a commit
             flushes, and what recovery does with what it finds.

  The log is an array of `UNDO_NUM_ENTRIES` entries (`ℕ → Entry`) and a length. The default build
  is modelled: `OPTIMIZE_DEDUPLICATE` is 0, so every block of a store is logged every time.

  * `undoLogRecord`, `undoLogCommitFlushes`, `undoLogInit`, `undoLogRecover`, `undoLogClear` --
    the functions of the header;
  * `mem_blocks` -- which blocks a store logs; `mem_commitFlushes` -- which lines a commit flushes;
  * `undoJournal` -- the log as an undo journal (`Lib/UndoReplay.lean`); `applyBack_eq` -- the loop
    of `undo_log_recover` is a replay of it, or stops at an assertion.
-/
import Mathlib.Data.Fin.Basic
import Mathlib.Data.List.Range
import Persimmon.Lib.UndoReplay
import Persimmon.Ranges

namespace Persimmon

open UndoReplay

/-- `undo_log_entry`: the saved block, its address, and `commit_tail` (0, or the tail plus one). -/
structure Entry where
  blk : Fin 32 → ℕ
  addr : ℕ
  commitTail : ℕ

namespace Entry

def isNull (e : Entry) : Bool := decide (e.addr = 0) && decide (e.commitTail = 0)

def null : Entry := ⟨fun _ => 0, 0, 0⟩

/-- The byte the entry holds for address `x`. -/
def byteAt (e : Entry) (x : ℕ) : ℕ := e.blk ⟨(x - e.addr) % 32, Nat.mod_lt _ (by decide)⟩

/-- The entry `undo_log_record` writes for the block at `p`. -/
def save (mem : ℕ → ℕ) (p : ℕ) : Entry := ⟨fun j => mem (p + j), p, 0⟩

/-- The entry `undo_log_commit` writes. It leaves `blk` as it is, and nothing reads it. -/
def commit (tail : ℕ) : Entry := ⟨fun _ => 0, 0, tail + 1⟩

@[simp] theorem null_isNull : null.isNull = true := rfl

theorem isNull_iff {e : Entry} : e.isNull = true ↔ e.addr = 0 ∧ e.commitTail = 0 := by
  simp only [isNull, Bool.and_eq_true, decide_eq_true_eq]

@[simp] theorem save_addr (mem : ℕ → ℕ) (p : ℕ) : (save mem p).addr = p := rfl

@[simp] theorem save_commitTail (mem : ℕ → ℕ) (p : ℕ) : (save mem p).commitTail = 0 := rfl

/-- A saved block holds the memory it was saved from. -/
theorem save_byteAt {mem : ℕ → ℕ} {p x : ℕ} (h1 : p ≤ x) (h2 : x < p + 32) :
    (save mem p).byteAt x = mem x := by
  have hx : p + (x - p) % 32 = x := by omega
  simp only [byteAt, save, hx]

end Entry

/-! ## 1. Recording a store -/

def inStore (addr : ℕ) (bytes : List ℕ) (x : ℕ) : Bool :=
  decide (addr ≤ x) && decide (x < addr + bytes.length)

/-- A memory after a store. -/
def storeBytes (addr : ℕ) (bytes : List ℕ) (mem : ℕ → ℕ) : ℕ → ℕ :=
  fun x => if inStore addr bytes x then bytes.getD (x - addr) 0 else mem x

theorem inStore_iff {addr x : ℕ} {bytes : List ℕ} :
    inStore addr bytes x = true ↔ addr ≤ x ∧ x < addr + bytes.length := by
  simp [inStore]

/-- The loop of `undo_log_record`: block starts from `pn` up to `stop`. The fuel is the number of
    blocks a store can touch; it never runs out (`mem_blocks`). -/
def blocksFrom (stop : ℕ) : ℕ → ℕ → List ℕ
  | 0, _ => []
  | fuel + 1, pn => if pn < stop then pn :: blocksFrom stop fuel (pn + 32) else []

/-- The blocks of a store to `[addr, addr + size)`. -/
def blocks (addr size : ℕ) : List ℕ := blocksFrom (addr + size) (size / 32 + 2) (blkStart addr)

/-- `COMMIT_THRESHOLD` -/
def commitThreshold : ℕ := 16384 / 2

/-- **`undo_log_record`**: the log after it, and whether it is time to commit. -/
def undoLogRecord (fresh : Ranges) (mem : ℕ → ℕ) (log : List Entry) (addr size : ℕ) :
    List Entry × Bool :=
  if fresh.find addr size then (log, false)
  else
    let log' := log ++ (blocks addr size).map (Entry.save mem)
    (log', decide (commitThreshold < log'.length))

/-- A loop `p += w` up to `stop` passes the numbers from `p` on that are congruent to it. -/
theorem mem_stepsFrom {f : ℕ → ℕ → List ℕ} {w stop fuel p q : ℕ} (hw : 0 < w)
    (hzero : ∀ p, f 0 p = [])
    (hsucc : ∀ fuel p, f (fuel + 1) p = if p < stop then p :: f fuel (p + w) else [])
    (hf : stop ≤ p + w * fuel) : q ∈ f fuel p ↔ p ≤ q ∧ q < stop ∧ q % w = p % w := by
  induction fuel generalizing p with
  | zero =>
      rw [hzero]
      simp only [List.not_mem_nil, false_iff]
      omega
  | succ fuel ih =>
      rw [Nat.mul_succ] at hf
      rw [hsucc]
      split
      · rename_i h
        rw [List.mem_cons, ih (by omega), Nat.add_mod_right]
        constructor
        · intro hcase
          rcases hcase with rfl | ⟨h1, h2, h3⟩
          · exact ⟨le_refl _, h, rfl⟩
          · exact ⟨by omega, h2, h3⟩
        · intro hboth
          obtain ⟨h1, h2, h3⟩ := hboth
          rcases Nat.eq_or_lt_of_le h1 with heq | hlt
          · exact Or.inl heq.symm
          · -- congruent and further up, so a whole step further
            have hdvd : w ∣ q - p := Nat.dvd_of_mod_eq_zero (Nat.sub_mod_eq_zero_of_mod_eq h3)
            have hstep := Nat.le_of_dvd (Nat.sub_pos_of_lt hlt) hdvd
            exact Or.inr ⟨by omega, h2, h3⟩
      · rename_i h
        simp only [List.not_mem_nil, false_iff]
        omega

theorem mem_blocksFrom {stop fuel pn q : ℕ} (hf : stop ≤ pn + 32 * fuel) :
    q ∈ blocksFrom stop fuel pn ↔ pn ≤ q ∧ q < stop ∧ q % 32 = pn % 32 :=
  mem_stepsFrom (by decide) (fun _ => rfl) (fun _ _ => rfl) hf

/-- **The blocks of a store are the 32-byte blocks it touches.** -/
theorem mem_blocks {addr size q : ℕ} :
    q ∈ blocks addr size ↔ blkStart addr ≤ q ∧ q < addr + size ∧ q % 32 = 0 := by
  have hlt := lt_blkStart_add addr
  unfold blocks
  rw [mem_blocksFrom (by omega), blkStart_mod]

/-- The block of every stored byte is among them. -/
theorem blkStart_mem_blocks {addr size x : ℕ} (h1 : addr ≤ x) (h2 : x < addr + size) :
    blkStart x ∈ blocks addr size := by
  rw [mem_blocks]
  unfold blkStart
  omega

/-- Every logged block holds a byte of the store. -/
theorem exists_of_mem_blocks {addr size q : ℕ} (hs : 0 < size) (h : q ∈ blocks addr size) :
    ∃ x, addr ≤ x ∧ x < addr + size ∧ q = blkStart x := by
  rw [mem_blocks] at h
  have hlt := lt_blkStart_add addr
  refine ⟨max addr q, le_max_left _ _, by omega, ?_⟩
  rw [eq_blkStart_iff h.2.2]
  have hle := blkStart_le addr
  have hmod := blkStart_mod addr
  omega

/-! ## 2. Committing -/

/-- The loop of `undo_log_commit` over one fresh range, from the second line on. One unit of fuel
    for each byte that is left, so it never runs out. -/
def freshLinesFrom (stop : ℕ) : ℕ → ℕ → List ℕ
  | 0, _ => []
  | fuel + 1, p => if p < stop then p :: freshLinesFrom stop fuel (p + 64) else []

/-- The addresses `undo_log_commit` flushes for a fresh range. -/
def freshFlushes (r : Range) : List ℕ :=
  r.start :: freshLinesFrom (r.start + r.size) r.size (r.start - r.start % 64 + 64)

/-- **The addresses `undo_log_commit` flushes** before it writes the commit record. -/
def undoLogCommitFlushes (log : List Entry) (fresh : Ranges) : List ℕ :=
  log.map Entry.addr ++ fresh.v.flatMap freshFlushes

theorem mem_freshLinesFrom {stop fuel p q : ℕ} (hf : stop ≤ p + 64 * fuel) :
    q ∈ freshLinesFrom stop fuel p ↔ p ≤ q ∧ q < stop ∧ q % 64 = p % 64 :=
  mem_stepsFrom (by decide) (fun _ => rfl) (fun _ _ => rfl) hf

/-- The flushed addresses of a fresh range: its first byte, and every later line start in it. -/
theorem mem_freshFlushes {r : Range} {q : ℕ} :
    q ∈ freshFlushes r ↔ q = r.start ∨ (r.start < q ∧ q < r.start + r.size ∧ q % 64 = 0) := by
  unfold freshFlushes
  rw [List.mem_cons, mem_freshLinesFrom (by omega)]
  omega

/-- **Every byte of a fresh range lies on a flushed line.** -/
theorem exists_freshFlush {r : Range} {x : ℕ} (h : x ∈ r.pts) :
    ∃ q ∈ freshFlushes r, cacheLine q = cacheLine x := by
  obtain ⟨h1, h2⟩ := h
  unfold cacheLine
  by_cases hx : x / 64 = r.start / 64
  · exact ⟨r.start, mem_freshFlushes.mpr (Or.inl rfl), hx.symm⟩
  · exact ⟨x - x % 64, mem_freshFlushes.mpr (Or.inr (by omega)), by omega⟩

theorem mem_commitFlushes {log : List Entry} {fresh : Ranges} {q : ℕ} :
    q ∈ undoLogCommitFlushes log fresh ↔
      (∃ e ∈ log, e.addr = q) ∨ ∃ r ∈ fresh.v, q ∈ freshFlushes r := by
  simp [undoLogCommitFlushes, List.mem_flatMap]

/-! ## 3. Recovery -/

/-- The scan of `undo_log_init(recovered = true)`: the index of the first null entry. `none` when
    it runs off the mapped log or its assertion on commit records fails. -/
def scanFrom (log : ℕ → Entry) : ℕ → ℕ → Option ℕ
  | 0, _ => none
  | fuel + 1, i =>
      if (log i).isNull then some i
      else if 0 < (log i).commitTail ∧ (log i).addr ≠ 0 then none
      else scanFrom log fuel (i + 1)

/-- **`undo_log_init(recovered = true)`**: the length it gives the log. -/
def undoLogInit (log : ℕ → Entry) : Option ℕ := scanFrom log undoNumEntries 0

/-- **`undo_log_clear`** on the array: the first `len` entries become null. -/
def undoLogClear (log : ℕ → Entry) (len : ℕ) : ℕ → Entry :=
  fun i => if i < len then Entry.null else log i

/-- The tail of the commit record, when the last entry is one. -/
def commitFound (log : ℕ → Entry) (len : ℕ) : Option ℕ :=
  if 0 < len ∧ 0 < (log (len - 1)).commitTail then some ((log (len - 1)).commitTail - 1) else none

section Recover

variable {σ : Type*}

/-- The loop of `undo_log_recover`, from entry `len - 1` down to entry 0, with its assertions.
    `wr` is the `memcpy` of one entry. -/
def applyBack (manages : ℕ → Bool) (wr : Entry → σ → σ) (log : ℕ → Entry) : ℕ → σ → Option σ
  | 0, m => some m
  | i + 1, m =>
      if (log i).commitTail = 0 ∧ (log i).addr ≠ 0 ∧ manages (log i).addr = true then
        applyBack manages wr log i (wr (log i) m)
      else none

/-- **`undo_log_recover`**: the memory after it and what it returns (`none` for -1); no result
    when an assertion fails. Its work on the region table is in `Recovery.lean`. -/
def undoLogRecover (manages : ℕ → Bool) (wr : Entry → σ → σ) (log : ℕ → Entry) (len : ℕ) (m : σ) :
    Option (σ × Option ℕ) :=
  match commitFound log len with
  | some tail => some (m, some tail)
  | none => (applyBack manages wr log len m).map fun m' => (m', none)

/-- What the assertions of the loop ask of an entry. -/
def Applicable (manages : ℕ → Bool) (e : Entry) : Prop :=
  e.commitTail = 0 ∧ e.addr ≠ 0 ∧ manages e.addr = true

/-- **The loop writes the entries back, the last one first**, when every entry is applicable. -/
theorem applyBack_eq {manages : ℕ → Bool} {wr : Entry → σ → σ} {log : ℕ → Entry} {n : ℕ}
    (h : ∀ i < n, Applicable manages (log i)) (m : σ) :
    applyBack manages wr log n m = some (((List.range n).map log).foldr wr m) := by
  induction n generalizing m with
  | zero => rfl
  | succ n ih =>
      have hn : (log n).commitTail = 0 ∧ (log n).addr ≠ 0 ∧ manages (log n).addr = true :=
        h n (Nat.lt_succ_self n)
      rw [applyBack, if_pos hn, ih (fun i hi => h i (Nat.lt_succ_of_lt hi)), List.range_succ,
        List.map_append, List.foldr_append]
      rfl

/-- The loop stops at an entry that is not. -/
theorem applyBack_none {manages : ℕ → Bool} {wr : Entry → σ → σ} {log : ℕ → Entry} {n i : ℕ}
    (hi : i < n) (h : ¬ Applicable manages (log i)) (m : σ) :
    applyBack manages wr log n m = none := by
  induction n generalizing m with
  | zero => exact absurd hi (Nat.not_lt_zero i)
  | succ n ih =>
      unfold applyBack
      split
      · rename_i hn
        rcases Nat.lt_succ_iff_lt_or_eq.mp hi with hi | rfl
        · exact ih hi _
        · exact absurd hn h
      · rfl

theorem applyBack_isSome {manages : ℕ → Bool} {wr : Entry → σ → σ} {log : ℕ → Entry} {n : ℕ}
    {m m' : σ} (h : applyBack manages wr log n m = some m') :
    ∀ i < n, Applicable manages (log i) := by
  intro i hi
  by_contra hc
  rw [applyBack_none hi hc] at h
  cases h

end Recover

/-! ### The array -/

/-- The undo log as it lies in the file: null entries behind the last one. -/
def logArray (log : List Entry) : ℕ → Entry := fun i => log.getD i Entry.null

theorem logArray_getElem {log : List Entry} {i : ℕ} (hi : i < log.length) :
    logArray log i = log[i] := by simp [logArray, hi]

theorem logArray_beyond {log : List Entry} {i : ℕ} (hi : log.length ≤ i) :
    logArray log i = Entry.null := by simp [logArray, hi]

theorem logArray_map_range (log : List Entry) : (List.range log.length).map (logArray log) = log := by
  refine List.ext_getElem (by simp) fun i hi _ => ?_
  rw [List.getElem_map, List.getElem_range]
  exact logArray_getElem (by simpa using hi)

/-! ### The scan -/

theorem scanFrom_spec {log : ℕ → Entry} {fuel i n : ℕ} (h : scanFrom log fuel i = some n) :
    i ≤ n ∧ n < i + fuel ∧ (log n).isNull = true ∧ ∀ j, i ≤ j → j < n → (log j).isNull = false := by
  induction fuel generalizing i with
  | zero => cases h
  | succ fuel ih =>
      unfold scanFrom at h
      split at h
      · rename_i hnull
        cases h
        exact ⟨le_refl _, by omega, hnull, fun j h1 h2 => absurd h2 (by omega)⟩
      · rename_i hnull
        split at h
        · cases h
        · obtain ⟨h1, h2, h3, h4⟩ := ih h
          refine ⟨by omega, by omega, h3, fun j hj1 hj2 => ?_⟩
          rcases Nat.eq_or_lt_of_le hj1 with rfl | hj
          · exact Bool.eq_false_iff.mpr hnull
          · exact h4 j hj hj2

/-- The entry is null, a data entry or a commit record, never both. -/
def Entry.Proper (e : Entry) : Prop := e.commitTail = 0 ∨ e.addr = 0

theorem scanFrom_eq {log : ℕ → Entry} {fuel i n : ℕ} (hin : i ≤ n) (hn : n < i + fuel)
    (hnull : (log n).isNull = true)
    (h : ∀ j, i ≤ j → j < n → (log j).isNull = false ∧ (log j).Proper) :
    scanFrom log fuel i = some n := by
  induction fuel generalizing i with
  | zero => omega
  | succ fuel ih =>
      unfold scanFrom
      rcases Nat.eq_or_lt_of_le hin with rfl | hlt
      · rw [if_pos hnull]
      · obtain ⟨h1, h2⟩ := h i (le_refl i) hlt
        have h3 : ¬ (0 < (log i).commitTail ∧ (log i).addr ≠ 0) := by
          intro hboth
          obtain ⟨ha, hb⟩ := hboth
          rcases h2 with h2 | h2
          · omega
          · exact hb h2
        rw [if_neg (by simp [h1]), if_neg h3]
        exact ih hlt (by omega) fun j hj1 hj2 => h j (by omega) hj2

/-- **The length recovery gives the log is the index of its first null entry.** -/
theorem undoLogInit_eq {log : ℕ → Entry} {n : ℕ} (hn : n < undoNumEntries)
    (hnull : (log n).isNull = true) (h : ∀ j < n, (log j).isNull = false ∧ (log j).Proper) :
    undoLogInit log = some n :=
  scanFrom_eq (Nat.zero_le n) (by omega) hnull fun j _ hj => h j hj

theorem undoLogInit_spec {log : ℕ → Entry} {n : ℕ} (h : undoLogInit log = some n) :
    n < undoNumEntries ∧ (log n).isNull = true ∧ ∀ j < n, (log j).isNull = false := by
  obtain ⟨-, h2, h3, h4⟩ := scanFrom_spec h
  exact ⟨by omega, h3, fun j hj => h4 j (Nat.zero_le j) hj⟩

/-! ## 4. The log as an undo journal -/

/-- **The log as an undo journal**: an entry saves the block at its address. -/
def undoJournal : Journal Entry ℕ ℕ ℕ where
  key := Entry.addr
  block := blkStart
  saved := Entry.byteAt

/-- The `memcpy` of one entry, on a flat memory. -/
def memcpyBlk (e : Entry) (m : ℕ → ℕ) : ℕ → ℕ :=
  fun x => if e.addr ≤ x ∧ x < e.addr + 32 then e.byteAt x else m x

theorem memcpyBlk_eq_undo {e : Entry} (h : e.addr % 32 = 0) (m : ℕ → ℕ) :
    memcpyBlk e m = undoJournal.undo e m := by
  funext x
  simp only [memcpyBlk, Journal.undo, undoJournal, eq_blkStart_iff h]

theorem foldr_memcpyBlk {es : List Entry} (h : ∀ e ∈ es, e.addr % 32 = 0) (m : ℕ → ℕ) :
    es.foldr memcpyBlk m = undoJournal.replay es m := by
  induction es with
  | nil => rfl
  | cons e es ih =>
      rw [List.foldr_cons, ih (fun e' he' => h e' (List.mem_cons_of_mem _ he')),
        memcpyBlk_eq_undo (h e List.mem_cons_self), Journal.replay_cons]

theorem logged_save {mem : ℕ → ℕ} {ps : List ℕ} {x : ℕ} :
    undoJournal.Logged (ps.map (Entry.save mem)) x ↔ blkStart x ∈ ps := by
  simp [Journal.Logged, undoJournal]

/-- **A recorded store leaves every replay as it was**: it saves what the memory holds. -/
theorem replay_save {log : List Entry} {mem : ℕ → ℕ} {ps : List ℕ} (hp : ∀ p ∈ ps, p % 32 = 0)
    (x : ℕ) :
    undoJournal.replay (log ++ ps.map (Entry.save mem)) mem x = undoJournal.replay log mem x := by
  refine Journal.replay_record_all fun e he hk => ?_
  obtain ⟨p, hps, rfl⟩ := List.mem_map.mp he
  have hx : p ≤ x ∧ x < p + 32 := (eq_blkStart_iff (hp p hps)).mp hk
  exact Entry.save_byteAt hx.1 hx.2

/-- What `undo_log_record` adds to the log. -/
theorem mem_undoLogRecord {fresh : Ranges} {mem : ℕ → ℕ} {log : List Entry} {addr size : ℕ}
    {e : Entry} :
    e ∈ (undoLogRecord fresh mem log addr size).1 ↔
      e ∈ log ∨ (fresh.find addr size = false ∧ ∃ p ∈ blocks addr size, Entry.save mem p = e) := by
  unfold undoLogRecord
  split
  · rename_i h
    simp [h]
  · rename_i h
    simp [Bool.eq_false_iff.mpr h]

/-- **Recorded or fresh**: after `undo_log_record` the block of every byte of the store is in the
    log, unless one fresh range covers the store. -/
theorem logged_undoLogRecord {fresh : Ranges} {mem : ℕ → ℕ} {log : List Entry} {addr size x : ℕ}
    (hf : fresh.find addr size = false) (h1 : addr ≤ x) (h2 : x < addr + size) :
    undoJournal.Logged (undoLogRecord fresh mem log addr size).1 x :=
  ⟨Entry.save mem (blkStart x),
    mem_undoLogRecord.mpr (Or.inr ⟨hf, _, blkStart_mem_blocks h1 h2, rfl⟩), rfl⟩

theorem logged_undoLogRecord_mono {fresh : Ranges} {mem : ℕ → ℕ} {log : List Entry}
    {addr size x : ℕ} (h : undoJournal.Logged log x) :
    undoJournal.Logged (undoLogRecord fresh mem log addr size).1 x :=
  h.mono fun _ he => mem_undoLogRecord.mpr (Or.inl he)

theorem blocks_mod {addr size q : ℕ} (h : q ∈ blocks addr size) : q % 32 = 0 := (mem_blocks.mp h).2.2

end Persimmon
