/-
  File:      Persimmon/Commit.lean
  Subject:   `undo_log_commit`: WHAT A COMMIT FLUSHES, and when it writes its record
             (src/undo/undo_log.h).

  `commitEvents` of `LogTrace.lean` is the list the other files reason with. Here the loop over a
  fresh range is run with the pointer arithmetic of the code, and the list is what comes out.

  * `undoLogCommit` -- the function; `undoLogCommit_eq` -- it is `commitEvents`, for ranges that end
    a cache line below the end of the address space;
  * `mem_commitLines` -- the lines flushed are those of the logged blocks and of the fresh ranges;
  * `commit_flushes_exactly` -- these lines before the first drain, the record behind it.
-/
import Persimmon.LogBound

namespace Persimmon

open PersistentMemory

/-! ## 1. The function -/

/-- The loop of `undo_log_commit` over a fresh range that ends at `stop`: the addresses it flushes.
    No result when the fuel runs out. -/
def freshLoop (stop : ℕ) : ℕ → ℕ → Option (List ℕ)
  | 0, p => if p < stop then none else some []
  | fuel + 1, p =>
      if p < stop then (freshLoop stop fuel (add64 p 64)).map (p :: ·) else some []

/-- What `undo_log_commit` does for one fresh range. -/
def commitFresh (r : Range) : Option (List ℕ) :=
  (freshLoop (add64 r.start r.size) r.size (add64 (r.start - r.start % 64) 64)).map (r.start :: ·)

/-- `foreach` -/
def commitFreshAll : List Range → Option (List ℕ)
  | [] => some []
  | r :: rs => (commitFresh r).bind fun qs => (commitFreshAll rs).map (qs ++ ·)

/-- `pmem_flush` of each address in turn. -/
def flushAll (qs : List ℕ) : List Event := qs.map fun q => .flush () (.mem (cacheLine q))

/-- The commit record, at index `n`. The last drain is not reached when the assertion on the length
    fails. -/
def writeCommitRecord (n tail : ℕ) : List Event :=
  [.store (.addr n) 0, .store (.commitTail n) (tail + 1), .flush () (.log n)] ++
    if n + 1 < undoNumEntries then [.drain ()] else []

/-- **`undo_log_commit`**: what it does to the memory. No result when a loop does not end. -/
def undoLogCommit (fresh : Ranges) (log : List Entry) (tail : ℕ) : Option (List Event) :=
  (commitFreshAll fresh.v).map fun qs =>
    flushAll (log.map Entry.addr) ++ flushAll qs ++ [.drain ()] ++
      writeCommitRecord log.length tail

/-! ## 2. The loops end -/

theorem freshLoop_eq {stop fuel p : ℕ} (hstop : stop ≤ 2 ^ 64 - 64) (hf : stop ≤ p + 64 * fuel) :
    freshLoop stop fuel p = some (freshLinesFrom stop fuel p) := by
  induction fuel generalizing p with
  | zero => rw [freshLoop, if_neg (by omega), freshLinesFrom]
  | succ fuel ih =>
      rw [freshLoop, freshLinesFrom]
      split
      · rename_i h
        rw [add64_of_lt (by omega), ih (by omega), Option.map_some]
      · rfl

/-- A range the loop comes to the end of: it has bytes, and ends a line below the end of the
    address space. -/
def Ends (r : Range) : Prop := 0 < r.size ∧ r.start + r.size ≤ 2 ^ 64 - 64

theorem commitFresh_eq {r : Range} (h : Ends r) : commitFresh r = some (freshFlushes r) := by
  obtain ⟨hpos, hstop⟩ := h
  unfold commitFresh
  rw [add64_of_lt (by omega), add64_of_lt (by omega), freshLoop_eq hstop (by omega)]
  rfl

theorem commitFreshAll_eq {rs : List Range} (h : ∀ r ∈ rs, Ends r) :
    commitFreshAll rs = some (rs.flatMap freshFlushes) := by
  induction rs with
  | nil => rfl
  | cons r rs ih =>
      rw [List.forall_mem_cons] at h
      rw [commitFreshAll, commitFresh_eq h.1, Option.bind_some, ih h.2]
      rfl

theorem undoLogCommit_some {fresh : Ranges} (log : List Entry) (tail : ℕ)
    (h : ∀ r ∈ fresh.v, Ends r) :
    undoLogCommit fresh log tail =
      some (flushEvents fresh log ++ writeCommitRecord log.length tail) := by
  rw [undoLogCommit, commitFreshAll_eq h, Option.map_some, flushEvents, undoLogCommitFlushes,
    List.map_append]
  rfl

/-- **The commit, as the other files have it.** -/
theorem undoLogCommit_eq {fresh : Ranges} (log : List Entry) (tail : ℕ)
    (h : ∀ r ∈ fresh.v, Ends r) :
    undoLogCommit fresh log tail = some (
      if log.length + 1 < undoNumEntries then commitEvents fresh log tail
      else (commitEvents fresh log tail).dropLast) := by
  rw [undoLogCommit_some log tail h, writeCommitRecord, commitEvents, commitRecordEvents,
    List.dropLast_append_of_ne_nil (List.cons_ne_nil _ _)]
  split <;> rfl

/-! ## 3. The lines -/

/-- A line with a byte of a logged block, or of a fresh range. -/
def NeedsFlush (fresh : Ranges) (log : List Entry) (line : ℕ) : Prop :=
  (∃ e ∈ log, ∃ x, e.addr ≤ x ∧ x < e.addr + 32 ∧ cacheLine x = line) ∨
    ∃ r ∈ fresh.v, ∃ x ∈ r.pts, cacheLine x = line

theorem cacheLine_of_mem_block {p x : ℕ} (hp : p % 32 = 0) (h1 : p ≤ x) (h2 : x < p + 32) :
    cacheLine x = cacheLine p := by
  unfold cacheLine
  omega

/-- **The flushed lines are those that need it.** -/
theorem mem_commitLines {fresh : Ranges} {log : List Entry} (hlog : ∀ e ∈ log, e.addr % 32 = 0)
    (hfresh : ∀ r ∈ fresh.v, Ends r) (line : ℕ) :
    (∃ q ∈ undoLogCommitFlushes log fresh, cacheLine q = line) ↔ NeedsFlush fresh log line := by
  constructor
  · intro hex
    obtain ⟨q, hq, rfl⟩ := hex
    rcases mem_commitFlushes.mp hq with ⟨e, he, rfl⟩ | ⟨r, hr, hq⟩
    · exact Or.inl ⟨e, he, e.addr, le_refl _, by omega, rfl⟩
    · refine Or.inr ⟨r, hr, q, ?_, rfl⟩
      have hpos := (hfresh r hr).1
      rcases mem_freshFlushes.mp hq with rfl | ⟨h1, h2, -⟩
      · exact ⟨le_refl _, Nat.lt_add_of_pos_right hpos⟩
      · exact ⟨Nat.le_of_lt h1, h2⟩
  · intro hcase
    rcases hcase with ⟨e, he, x, h1, h2, rfl⟩ | ⟨r, hr, x, hx, rfl⟩
    · exact ⟨e.addr, mem_commitFlushes.mpr (Or.inl ⟨e, he, rfl⟩),
        (cacheLine_of_mem_block (hlog e he) h1 h2).symm⟩
    · obtain ⟨q, hq, hline⟩ := exists_freshFlush hx
      exact ⟨q, mem_commitFlushes.mpr (Or.inr ⟨r, hr, hq⟩), hline⟩

/-! ## 4. The commit record -/

theorem touches_writeCommitRecord {n tail i : ℕ} {ev : Event} (h : ev ∈ writeCommitRecord n tail)
    (ht : ev.Touches lineOf (.log i)) : i = n := by
  refine @touches_commitRecord n tail i ev ?_ ht
  unfold writeCommitRecord at h
  split at h
  · exact h
  · rw [List.append_nil] at h
    exact List.mem_append_left [Ev.drain ()] h

/-- What the record leaves at its index. -/
theorem logImage_writeCommitRecord (n tail : ℕ) (v : Cell → ℕ) :
    (logImage (viewAfter lineOf (writeCommitRecord n tail) v) n).addr = 0 ∧
      (logImage (viewAfter lineOf (writeCommitRecord n tail) v) n).commitTail = tail + 1 := by
  unfold writeCommitRecord
  split <;> simp [logImage, viewAfter, Ev.view]

/-- **`undo_log_commit` flushes exactly what it must.** Its loops end; before the first drain it does
    nothing but flush, the lines with a byte of a logged block or of a fresh range and no
    others; behind the drain it writes the record, and leaves every other entry. -/
theorem commit_flushes_exactly {fresh : Ranges} {log : List Entry} {tail : ℕ}
    (hlog : ∀ e ∈ log, e.addr % 32 = 0)
    (hfresh : ∀ r ∈ fresh.v, 0 < r.size ∧ r.start + r.size ≤ 2 ^ 64 - 64) :
    ∃ flushes record, undoLogCommit fresh log tail = some (flushes ++ [.drain ()] ++ record) ∧
      (∀ ev ∈ flushes, ∃ line, ev = .flush () (.mem line)) ∧
      (∀ line, .flush () (.mem line) ∈ flushes ↔ NeedsFlush fresh log line) ∧
      ∀ v, logImage (viewAfter lineOf (flushes ++ [.drain ()]) v) = logImage v ∧
        (logImage (viewAfter lineOf (flushes ++ [.drain ()] ++ record) v) log.length).addr = 0 ∧
        (logImage (viewAfter lineOf (flushes ++ [.drain ()] ++ record) v) log.length).commitTail =
          tail + 1 ∧
        ∀ i, i ≠ log.length →
          logImage (viewAfter lineOf (flushes ++ [.drain ()] ++ record) v) i = logImage v i := by
  refine ⟨flushAll (undoLogCommitFlushes log fresh), writeCommitRecord log.length tail,
    undoLogCommit_some log tail hfresh, fun ev hev => ?_, fun line => ?_, fun v => ?_⟩
  · obtain ⟨q, -, rfl⟩ := List.mem_map.mp hev
    exact ⟨_, rfl⟩
  · rw [← mem_commitLines hlog hfresh, flushAll, List.mem_map]
    simp only [Ev.flush.injEq, Line.mem.injEq, true_and]
  · have hview : logImage (viewAfter lineOf (flushEvents fresh log) v) = logImage v :=
      funext fun i => logImage_of_not_touches fun ev hev => touches_flushEvents hev
    have hsplit : viewAfter lineOf (flushAll (undoLogCommitFlushes log fresh) ++ [.drain ()] ++
        writeCommitRecord log.length tail) v =
          viewAfter lineOf (writeCommitRecord log.length tail)
            (viewAfter lineOf (flushEvents fresh log) v) := viewAfter_append _ _ _
    obtain ⟨h1, h2⟩ := logImage_writeCommitRecord log.length tail
      (viewAfter lineOf (flushEvents fresh log) v)
    rw [hsplit]
    refine ⟨hview, h1, h2, fun i hi => ?_⟩
    rw [logImage_of_not_touches fun ev hev ht => hi (touches_writeCommitRecord hev ht)]
    exact congrFun hview i

theorem commit_flushes_exactly_unaligned :
    ∃ flushes record, undoLogCommit ⟨[⟨100, 93⟩]⟩ [Entry.save (fun _ => 0) 96] 7 =
        some (flushes ++ [.drain ()] ++ record) ∧
      (∀ ev ∈ flushes, ∃ line, ev = .flush () (.mem line)) ∧
      (∀ line, .flush () (.mem line) ∈ flushes ↔
        NeedsFlush ⟨[⟨100, 93⟩]⟩ [Entry.save (fun _ => 0) 96] line) ∧
      ∀ v, logImage (viewAfter lineOf (flushes ++ [.drain ()]) v) = logImage v ∧
        (logImage (viewAfter lineOf (flushes ++ [.drain ()] ++ record) v) 1).addr = 0 ∧
        (logImage (viewAfter lineOf (flushes ++ [.drain ()] ++ record) v) 1).commitTail = 7 + 1 ∧
        ∀ i, i ≠ 1 →
          logImage (viewAfter lineOf (flushes ++ [.drain ()] ++ record) v) i = logImage v i :=
  @commit_flushes_exactly _ [Entry.save (fun _ => 0) 96] _
    (fun e he => by rw [List.mem_singleton.mp he]; decide)
    (fun r hr => by rw [List.mem_singleton.mp hr]; decide)

end Persimmon
