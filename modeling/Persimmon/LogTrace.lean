/-
  File:      Persimmon/LogTrace.lean
  Subject:   THE EVENTS the undo log's functions send to the memory (src/undo/undo_log.h).

  The undo log and the managed memory are persistent and cached. A cell is a byte of memory, a byte
  of an entry's block, its address or its `commit_tail`; an entry is one cache line. Each function is
  here the list of its stores, flushes and drains in program order, as `Lib/PersistentMemory.lean`
  takes them; what may be persistent at a crash follows from there.

  * `Cell`, `Line`, `lineOf`, `memImage`, `logImage` -- the layout, and what a view holds of it;
  * `entryEvents`, `recordFrom`, `recordEvents`, `storeEvents`, `flushEvents`,
    `commitRecordEvents`, `clearEvents` -- the functions;
  * `logImage_recordFrom`, `isNull_or_eq_of_prefix` -- what a record leaves, finished or not;
  * `recoverImage`, `recoverImage_commit`, `recoverImage_rollback` -- recovery of what a crash left.
-/
import Mathlib.Data.List.FinRange
import Persimmon.Lib.PersistentMemory
import Persimmon.UndoLog

namespace Persimmon

open PersistentMemory UndoReplay

/-! ## 1. The layout -/

inductive Cell where
  | mem (a : ℕ)
  | blk (i : ℕ) (j : Fin 32)
  | addr (i : ℕ)
  | commitTail (i : ℕ)
  deriving DecidableEq, Repr

inductive Line where
  | mem (n : ℕ)
  | log (i : ℕ)
  deriving DecidableEq, Repr

/-- An entry is aligned to, and as large as, a cache line. -/
def lineOf : Cell → Line
  | .mem a => .mem (cacheLine a)
  | .blk i _ => .log i
  | .addr i => .log i
  | .commitTail i => .log i

/-- The background is the only thread that writes here. -/
abbrev Event := Ev Cell Line Unit ℕ

abbrev Machine := Memory Cell Line Unit ℕ

def memImage (v : Cell → ℕ) : ℕ → ℕ := fun a => v (.mem a)

def logImage (v : Cell → ℕ) : ℕ → Entry := fun i =>
  ⟨fun j => v (.blk i j), v (.addr i), v (.commitTail i)⟩

/-! ## 2. The events -/

/-- One pass of the loop of `undo_log_record`: the `memcpy`, `addr`, `commit_tail`, and the flush of
    the entry's line. -/
def entryEvents (i : ℕ) (e : Entry) : List Event :=
  (List.finRange 32).map (fun j => .store (.blk i j) (e.blk j)) ++
    [.store (.addr i) e.addr, .store (.commitTail i) e.commitTail, .flush () (.log i)]

/-- The passes of the loop, for entries written from index `i` on. -/
def recordFrom : ℕ → List Entry → List Event
  | _, [] => []
  | i, e :: es => entryEvents i e ++ recordFrom (i + 1) es

/-- **`undo_log_record`** with the fresh set `fresh`, when the log has `n` entries: one drain for all
    the entries, none when the store is fresh. -/
def recordEvents (fresh : Ranges) (mem : ℕ → ℕ) (n addr size : ℕ) : List Event :=
  if fresh.find addr size then []
  else recordFrom n ((blocks addr size).map (Entry.save mem)) ++ [.drain ()]

/-- The application's own store. -/
def storeEvents (addr : ℕ) (bytes : List ℕ) : List Event :=
  (List.range bytes.length).map fun i => .store (.mem (addr + i)) (bytes.getD i 0)

/-- The first half of `undo_log_commit`: the lines of logged blocks and fresh ranges, and a drain. -/
def flushEvents (fresh : Ranges) (log : List Entry) : List Event :=
  (undoLogCommitFlushes log fresh).map (fun q => .flush () (.mem (cacheLine q))) ++ [.drain ()]

/-- The second half: the commit record, its flush and a drain. -/
def commitRecordEvents (n tail : ℕ) : List Event :=
  [.store (.addr n) 0, .store (.commitTail n) (tail + 1), .flush () (.log n), .drain ()]

/-- **`undo_log_commit`** -/
def commitEvents (fresh : Ranges) (log : List Entry) (tail : ℕ) : List Event :=
  flushEvents fresh log ++ commitRecordEvents log.length tail

/-- **`undo_log_clear`**: non-temporal stores of zero to the lines of the log, and a drain. -/
def clearEvents (n : ℕ) : List Event :=
  (List.range n).map (fun i => .fill () (.log i) fun _ => 0) ++ [.drain ()]

/-- **Recovery on what a crash left**: `undo_log_init(recovered = true)`, `undo_log_recover` and the
    `undo_log_clear` that ends it. The log and the memory it leaves, and what it returns. -/
def recoverImage (manages : ℕ → Bool) (v : Cell → ℕ) :
    Option ((ℕ → Entry) × (ℕ → ℕ) × Option ℕ) :=
  (undoLogInit (logImage v)).bind fun n =>
    (undoLogRecover manages memcpyBlk (logImage v) n (memImage v)).map fun r =>
      (undoLogClear (logImage v) n, r.1, r.2)

/-! ## 3. Which lines they touch -/

theorem touches_entryEvents {i : ℕ} {e : Entry} {ev : Event} {l : Line}
    (he : ev ∈ entryEvents i e) (ht : ev.Touches lineOf l) : l = .log i := by
  rw [entryEvents, List.mem_append] at he
  rcases he with he | he
  · obtain ⟨j, -, rfl⟩ := List.mem_map.mp he
    exact ht.symm
  · simp only [List.mem_cons, List.not_mem_nil, or_false] at he
    rcases he with rfl | rfl | rfl
    · exact ht.symm
    · exact ht.symm
    · exact absurd ht id

theorem touches_recordFrom {k : ℕ} {es : List Entry} {ev : Event} {l : Line}
    (he : ev ∈ recordFrom k es) (ht : ev.Touches lineOf l) :
    ∃ i, k ≤ i ∧ i < k + es.length ∧ l = .log i := by
  induction es generalizing k with
  | nil => exact absurd he List.not_mem_nil
  | cons e es ih =>
      rw [recordFrom, List.mem_append] at he
      rcases he with he | he
      · exact ⟨k, le_refl k, by simp, touches_entryEvents he ht⟩
      · obtain ⟨i, h1, h2, h3⟩ := ih he
        exact ⟨i, by omega, by rw [List.length_cons]; omega, h3⟩

/-- Every entry of a record is flushed, and its line is left alone afterwards. -/
theorem recordFrom_split {k : ℕ} {es : List Entry} {i : ℕ} (h1 : k ≤ i) (h2 : i < k + es.length) :
    ∃ p q, recordFrom k es = p ++ .flush () (.log i) :: q ∧
      ∀ ev ∈ q, ¬ ev.Touches lineOf (.log i) := by
  induction es generalizing k with
  | nil =>
      rw [List.length_nil] at h2
      omega
  | cons e es ih =>
      rcases Nat.eq_or_lt_of_le h1 with rfl | hlt
      · refine ⟨(List.finRange 32).map (fun j => .store (.blk k j) (e.blk j)) ++
          [.store (.addr k) e.addr, .store (.commitTail k) e.commitTail], recordFrom (k + 1) es,
          by simp [recordFrom, entryEvents], fun ev he ht => ?_⟩
        obtain ⟨j, hj, -, hl⟩ := touches_recordFrom he ht
        have := Line.log.inj hl
        omega
      · obtain ⟨p, q, hpq, hq⟩ := ih hlt (by rw [List.length_cons] at h2; omega)
        exact ⟨entryEvents k e ++ p, q, by rw [recordFrom, hpq, List.append_assoc], hq⟩

theorem noDrain_recordFrom {k : ℕ} {es : List Entry} {ev : Event} (h : ev ∈ recordFrom k es) :
    ev ≠ .drain () := by
  induction es generalizing k with
  | nil => exact absurd h List.not_mem_nil
  | cons e es ih =>
      rw [recordFrom, List.mem_append] at h
      rcases h with h | h
      · rw [entryEvents, List.mem_append] at h
        rcases h with h | h
        · obtain ⟨j, -, rfl⟩ := List.mem_map.mp h
          exact nofun
        · simp only [List.mem_cons, List.not_mem_nil, or_false] at h
          rcases h with rfl | rfl | rfl <;> exact nofun
      · exact ih h

theorem touches_storeEvents {addr : ℕ} {bytes : List ℕ} {ev : Event} {l : Line}
    (he : ev ∈ storeEvents addr bytes) (ht : ev.Touches lineOf l) : ∃ n, l = .mem n := by
  obtain ⟨i, -, rfl⟩ := List.mem_map.mp he
  exact ⟨_, ht.symm⟩

/-! ## 4. What a view holds after them -/

section View

variable {v : Cell → ℕ}

theorem logImage_of_not_touches {es : List Event} {i : ℕ}
    (h : ∀ ev ∈ es, ¬ ev.Touches lineOf (.log i)) :
    logImage (viewAfter lineOf es v) i = logImage v i := by
  simp only [logImage, Entry.mk.injEq]
  refine ⟨funext fun j => ?_, ?_, ?_⟩
  · exact viewAfter_other (a := .blk i j) h v
  · exact viewAfter_other (a := .addr i) h v
  · exact viewAfter_other (a := .commitTail i) h v

theorem memImage_of_not_touches {es : List Event} {x : ℕ}
    (h : ∀ ev ∈ es, ¬ ev.Touches lineOf (.mem (cacheLine x))) :
    memImage (viewAfter lineOf es v) x = memImage v x :=
  show viewAfter lineOf es v (.mem x) = v (.mem x) from viewAfter_other h v

/-- After the `memcpy` of an entry its block is in place, and nothing else of the entry. -/
theorem logImage_memcpy (i : ℕ) (b : Fin 32 → ℕ) :
    logImage (viewAfter lineOf ((List.finRange 32).map fun j => (.store (.blk i j) (b j) : Event)) v)
      i = ⟨b, v (.addr i), v (.commitTail i)⟩ := by
  have hblk : ∀ j, viewAfter lineOf
      ((List.finRange 32).map fun j => (.store (.blk i j) (b j) : Event)) v (.blk i j) = b j := by
    intro j
    rw [viewAfter_stores (f := fun j => Cell.blk i j) (fun a c h => (Cell.blk.inj h).2) b]
    simp
  have hother : ∀ c : Cell, (∀ j, c ≠ .blk i j) → viewAfter lineOf
      ((List.finRange 32).map fun j => (.store (.blk i j) (b j) : Event)) v c = v c :=
    fun c hc => viewAfter_stores_of_ne hc b _ v
  simp only [logImage, hblk, hother (.addr i) (fun j h => by cases h),
    hother (.commitTail i) (fun j h => by cases h)]

theorem logImage_entryEvents (i : ℕ) (e : Entry) :
    logImage (viewAfter lineOf (entryEvents i e) v) i = e := by
  rw [entryEvents, viewAfter_append]
  have h := logImage_memcpy (v := v) i e.blk
  simp only [logImage, Entry.mk.injEq] at h
  simp [logImage, Ev.view, h.1]

/-- **After a record every entry is in place.** -/
theorem logImage_recordFrom {k : ℕ} {es : List Entry} {i : ℕ} (hi : i < es.length) :
    logImage (viewAfter lineOf (recordFrom k es) v) (k + i) = es[i] := by
  induction es generalizing k v i with
  | nil => exact absurd hi (Nat.not_lt_zero i)
  | cons e es ih =>
      rw [recordFrom, viewAfter_append]
      cases i with
      | zero =>
          rw [logImage_of_not_touches fun ev he ht => ?_]
          · exact logImage_entryEvents k e
          · obtain ⟨j, h1, -, h3⟩ := touches_recordFrom he ht
            have := Line.log.inj h3
            omega
      | succ i =>
          have := ih (k := k + 1) (v := viewAfter lineOf (entryEvents k e) v)
            (Nat.lt_of_succ_lt_succ hi)
          rw [Nat.succ_add_eq_add_succ] at this
          exact this

/-- **A crash in the middle of an entry**: the entry is still null, or complete. The address is
    stored after the block, on the same line. -/
theorem isNull_or_eq_of_entry {i : ℕ} {e : Entry} (hct : e.commitTail = 0)
    (hv : (logImage v i).isNull = true) {p : List Event} (hp : p <+: entryEvents i e) :
    (logImage (viewAfter lineOf p v) i).isNull = true ∨ logImage (viewAfter lineOf p v) i = e := by
  have hv' : v (.addr i) = 0 ∧ v (.commitTail i) = 0 := Entry.isNull_iff.mp hv
  rcases prefix_append_iff.mp hp with hp | ⟨q, rfl, hq⟩
  · -- only bytes of the block: the address is untouched
    left
    obtain ⟨js, -, rfl⟩ := List.prefix_map_iff.mp hp
    have hother : ∀ c : Cell, (∀ j, c ≠ .blk i j) → viewAfter lineOf
        (js.map fun j => (.store (.blk i j) (e.blk j) : Event)) v c = v c :=
      fun c hc => viewAfter_stores_of_ne hc e.blk js v
    simp [Entry.isNull, logImage, hother (.addr i) (fun j h => by cases h),
      hother (.commitTail i) (fun j h => by cases h), hv']
  · rw [viewAfter_append]
    have h := logImage_memcpy (v := v) i e.blk
    simp only [logImage, Entry.mk.injEq] at h
    have hblk : e = ⟨e.blk, e.addr, 0⟩ := by rw [← hct]
    rcases List.prefix_cons_iff.mp hq with rfl | ⟨q₁, rfl, hq₁⟩
    · left
      simp [Entry.isNull, logImage, h, hv']
    · right
      rcases List.prefix_cons_iff.mp hq₁ with rfl | ⟨q₂, rfl, hq₂⟩
      · rw [hblk]
        simp [logImage, Ev.view, h, hv']
      · rcases List.prefix_cons_iff.mp hq₂ with rfl | ⟨q₃, rfl, hq₃⟩
        · simp [logImage, Ev.view, h]
        · obtain rfl := List.prefix_nil.mp hq₃
          simp [logImage, Ev.view, h]

/-- **A crash in the middle of a record**: every entry from `k` on is still null, or complete. -/
theorem isNull_or_eq_of_prefix {k : ℕ} {es : List Entry} (hct : ∀ e ∈ es, e.commitTail = 0)
    (hv : ∀ i, k ≤ i → (logImage v i).isNull = true) {p : List Event} (hp : p <+: recordFrom k es)
    {i : ℕ} (hi : k ≤ i) :
    (logImage (viewAfter lineOf p v) i).isNull = true ∨
      es[i - k]? = some (logImage (viewAfter lineOf p v) i) := by
  induction es generalizing k v p with
  | nil =>
      obtain rfl := List.prefix_nil.mp hp
      exact Or.inl (hv i hi)
  | cons e es ih =>
      rcases prefix_append_iff.mp hp with hp | ⟨q, rfl, hq⟩
      · rcases Nat.eq_or_lt_of_le hi with rfl | hlt
        · refine (isNull_or_eq_of_entry (hct e (by simp)) (hv k hi) hp).imp id fun h => ?_
          rw [h]
          simp
        · left
          rw [logImage_of_not_touches fun ev he ht => ?_]
          · exact hv i hi
          · have := Line.log.inj (touches_entryEvents (hp.subset he) ht)
            omega
      · rw [viewAfter_append]
        rcases Nat.eq_or_lt_of_le hi with rfl | hlt
        · right
          rw [logImage_of_not_touches fun ev he ht => ?_]
          · rw [logImage_entryEvents]
            simp
          · obtain ⟨j, h1, -, h3⟩ := touches_recordFrom (hq.subset he) ht
            have := Line.log.inj h3
            omega
        · have hv' : ∀ j, k + 1 ≤ j →
              (logImage (viewAfter lineOf (entryEvents k e) v) j).isNull = true := by
            intro j hj
            rw [logImage_of_not_touches fun ev he ht => ?_]
            · exact hv j (by omega)
            · have := Line.log.inj (touches_entryEvents he ht)
              omega
          have h := ih (fun e' he' => hct e' (List.mem_cons_of_mem _ he')) hv' hq hlt
          have hsub : i - k = (i - (k + 1)) + 1 := by omega
          rwa [hsub, List.getElem?_cons_succ]

/-- The application's store, as the memory sees it. -/
theorem memImage_storeEvents (addr : ℕ) (bytes : List ℕ) :
    memImage (viewAfter lineOf (storeEvents addr bytes) v) = storeBytes addr bytes (memImage v) := by
  funext x
  unfold storeBytes
  by_cases hx : addr ≤ x
  · have hinj : Function.Injective fun i => Cell.mem (addr + i) := fun a c h => by
      have := Cell.mem.inj h
      omega
    have h : viewAfter lineOf (storeEvents addr bytes) v (.mem (addr + (x - addr))) = _ :=
      viewAfter_stores hinj (fun i => bytes.getD i 0) (List.range bytes.length) v (x - addr)
    have hadd : addr + (x - addr) = x := by omega
    have hiff : x - addr ∈ List.range bytes.length ↔ inStore addr bytes x = true := by
      rw [List.mem_range, inStore_iff]
      omega
    simp only [hadd, hiff] at h
    exact h
  · have hno : inStore addr bytes x = false := by
      simp [inStore, hx]
    simp only [hno, Bool.false_eq_true, if_false]
    exact viewAfter_stores_of_ne (fun i h => hx (by have := Cell.mem.inj h; omega)) _ _ v

end View

/-! ## 5. Recovery of an image -/

section Recover

variable {v : Cell → ℕ} {n : ℕ} {manages : ℕ → Bool}

/-- Recovery with a commit record at the end of the log: the memory stays. -/
theorem recoverImage_commit {t : ℕ} (hinit : undoLogInit (logImage v) = some (n + 1))
    (ht : (logImage v n).commitTail = t + 1) :
    recoverImage manages v = some (undoLogClear (logImage v) (n + 1), memImage v, some t) := by
  have hfound : commitFound (logImage v) (n + 1) = some t := by
    unfold commitFound
    rw [if_pos ⟨Nat.succ_pos n, by rw [Nat.add_sub_cancel, ht]; exact Nat.succ_pos t⟩,
      Nat.add_sub_cancel, ht, Nat.add_sub_cancel]
  rw [recoverImage, hinit, Option.bind_some, undoLogRecover, hfound]
  rfl

/-- Recovery with data entries only, all of them applicable: the log is replayed. -/
theorem recoverImage_rollback {log : List Entry} (hinit : undoLogInit (logImage v) = some n)
    (hlog : (List.range n).map (logImage v) = log) (hal : ∀ e ∈ log, e.addr % 32 = 0)
    (happ : ∀ e ∈ log, Applicable manages e) :
    recoverImage manages v =
      some (undoLogClear (logImage v) n, undoJournal.replay log (memImage v), none) := by
  subst hlog
  have happ' : ∀ i < n, Applicable manages (logImage v i) := fun i hi =>
    happ _ (List.mem_map_of_mem (List.mem_range.mpr hi))
  have hno : commitFound (logImage v) n = none := by
    unfold commitFound
    refine if_neg fun h => ?_
    have := (happ' (n - 1) (by omega)).1
    omega
  rw [recoverImage, hinit, Option.bind_some, undoLogRecover, hno]
  simp only
  rw [applyBack_eq happ', foldr_memcpyBlk hal]
  rfl

/-- Recovery stops at an entry that is not applicable. -/
theorem recoverImage_none (hinit : undoLogInit (logImage v) = some n)
    (hno : ∀ i < n, (logImage v i).commitTail = 0) {i : ℕ} (hi : i < n)
    (h : ¬ Applicable manages (logImage v i)) : recoverImage manages v = none := by
  have hfound : commitFound (logImage v) n = none := by
    unfold commitFound
    refine if_neg fun h => ?_
    have := hno (n - 1) (by omega)
    omega
  rw [recoverImage, hinit, Option.bind_some, undoLogRecover, hfound]
  simp only
  rw [applyBack_none hi h]
  rfl

end Recover

end Persimmon
