/-
  File:      Persimmon/Dedup.lean
  Subject:   THE DEDUPLICATED UNDO LOG: `undo_log_record` with `OPTIMIZE_DEDUPLICATE` on, against
             the plain one (src/undo/undo_log.h).

  Both builds see the same blocks. The plain one logs each of them; this one asks the index of the
  logged blocks (`LoggedAddrs.lean`) first, and logs a block again only when the index is full.

  * `undoLogRecordDedup` -- the function, with the arithmetic of its loop; `recordLoop_eq`,
    `recordLoop_never` -- the loop visits `blocks`, or it never ends;
  * `Agrees` -- the relation between the two logs: the same first entry for every block;
    `Agrees.record`, `Agrees.blocks` -- it is kept by a block, by a store;
  * `replay_storesLog` -- the plain log undoes the stores;
  * `dedup_interchangeable` -- so does the deduplicated one, also when the index overflows.
-/
import Mathlib.Data.Finset.Card
import Persimmon.LoggedAddrs
import Persimmon.Rollback

namespace Persimmon

open OpenAddressing UndoReplay

/-! ## 1. The function -/

/-- The undo log and its index. -/
structure DedupLog where
  log : List Entry
  table : AddrTable

/-- What `undo_log_clear` leaves. -/
def DedupLog.cleared : DedupLog := ⟨[], AddrTable.cleared⟩

/-- The body of the loop of `undo_log_record`, for the block at `p`. -/
def recordBlk (mem : ℕ → ℕ) (s : DedupLog) (p : ℕ) : DedupLog :=
  let r := undoLogInsertLoggedAddr p s.table
  if r.2 then ⟨s.log ++ [Entry.save mem p], r.1⟩ else ⟨s.log, r.1⟩

/-- **The loop of `undo_log_record`**, `pn += UNDO_BLK_SIZE_B` wrapping. No result when the fuel runs
    out. -/
def recordLoop (mem : ℕ → ℕ) (stop : ℕ) : ℕ → ℕ → DedupLog → Option DedupLog
  | 0, pn, s => if pn < stop then none else some s
  | fuel + 1, pn, s =>
      if pn < stop then recordLoop mem stop fuel (add64 pn 32) (recordBlk mem s pn) else some s

/-- **`undo_log_record`**, with `OPTIMIZE_DEDUPLICATE`: what it leaves, and whether it is time to
    commit. No result when its loop does not end (`recordLoop_never`). -/
def undoLogRecordDedup (fresh : Ranges) (mem : ℕ → ℕ) (s : DedupLog) (addr size : ℕ) :
    Option (DedupLog × Bool) :=
  if fresh.find addr size then some (s, false)
  else
    (recordLoop mem (add64 addr size) (size / 32 + 2) (blkStart addr) s).map fun s' =>
      (s', decide (commitThreshold < s'.log.length))

/-! ## 2. The loop -/

theorem recordLoop_eq {mem : ℕ → ℕ} {stop fuel pn : ℕ} (s : DedupLog) (hpn : pn % 32 = 0)
    (hstop : stop ≤ 2 ^ 64 - 32) (hf : stop ≤ pn + 32 * fuel) :
    recordLoop mem stop fuel pn s = some ((blocksFrom stop fuel pn).foldl (recordBlk mem) s) := by
  induction fuel generalizing pn s with
  | zero => rw [recordLoop, if_neg (by omega), blocksFrom, List.foldl_nil]
  | succ fuel ih =>
      rw [recordLoop, blocksFrom]
      split
      · rename_i h
        rw [add64_of_lt (by omega), ih _ (by omega) (by omega), List.foldl_cons]
      · rfl

/-- **A loop up to an address of the last block wraps, and never ends.** -/
theorem recordLoop_never {mem : ℕ → ℕ} {stop pn : ℕ} (fuel : ℕ) (s : DedupLog) (hpn : pn % 32 = 0)
    (hlt : pn < 2 ^ 64) (hstop : 2 ^ 64 - 32 < stop) : recordLoop mem stop fuel pn s = none := by
  induction fuel generalizing pn s with
  | zero => rw [recordLoop, if_pos (by omega)]
  | succ fuel ih =>
      rw [recordLoop, if_pos (by omega)]
      unfold add64
      exact ih _ (by omega) (Nat.mod_lt _ (by decide))

/-- A store below the last block of the address space: the loop logs its blocks. -/
theorem undoLogRecordDedup_eq {fresh : Ranges} {mem : ℕ → ℕ} {s : DedupLog} {addr size : ℕ}
    (hf : fresh.find addr size = false) (hstop : addr + size ≤ 2 ^ 64 - 32) :
    undoLogRecordDedup fresh mem s addr size =
      some ((blocks addr size).foldl (recordBlk mem) s,
        decide (commitThreshold < ((blocks addr size).foldl (recordBlk mem) s).log.length)) := by
  have hlt := lt_blkStart_add addr
  unfold undoLogRecordDedup
  rw [hf, if_neg Bool.false_ne_true, add64_of_lt (by omega),
    recordLoop_eq s (blkStart_mod addr) hstop (by omega)]
  rfl

/-- **What a call that ends has done**: nothing, for a fresh store; else it has recorded blocks below
    the last one of the address space. -/
theorem undoLogRecordDedup_cases {fresh : Ranges} {mem : ℕ → ℕ} {s s' : DedupLog}
    {addr size : ℕ} {ret : Bool} (haddr : addr < 2 ^ 64)
    (h : undoLogRecordDedup fresh mem s addr size = some (s', ret)) :
    s' = s ∧ ret = false ∨
      (∃ ps : List ℕ, (∀ p ∈ ps, p % 32 = 0 ∧ p + 64 ≤ 2 ^ 64) ∧ s' = ps.foldl (recordBlk mem) s) ∧
        ret = decide (commitThreshold < s'.log.length) := by
  have hblk := blkStart_mod addr
  have hlast := lt_blkStart_add addr
  have hwrap : add64 addr size ≤ addr + size := Nat.mod_le _ _
  unfold undoLogRecordDedup at h
  split at h
  · cases h
    exact Or.inl ⟨rfl, rfl⟩
  · by_cases hstop : add64 addr size ≤ 2 ^ 64 - 32
    · have hfuel : add64 addr size ≤ blkStart addr + 32 * (size / 32 + 2) := by omega
      rw [recordLoop_eq s hblk hstop hfuel] at h
      cases h
      refine Or.inr ⟨⟨_, fun p hp => ?_, rfl⟩, rfl⟩
      obtain ⟨h1, h2, h3⟩ := (mem_blocksFrom hfuel).mp hp
      omega
    · have hlt : blkStart addr < 2 ^ 64 := Nat.lt_of_le_of_lt (blkStart_le addr) haddr
      rw [recordLoop_never _ s hblk hlt (Nat.lt_of_not_le hstop)] at h
      cases h

/-! ## 3. One block -/

section

variable {mem : ℕ → ℕ} {s : DedupLog} {p : ℕ}

/-- A block in the index is skipped. -/
theorem recordBlk_stored (h : Exact 0 probes s.table) (hp : p ≠ 0) (hs : Stored s.table p) :
    recordBlk mem s p = s := by
  unfold recordBlk
  rw [insertLoggedAddr_stored h hp hs]
  rfl

theorem recordBlk_exact (h : Exact 0 probes s.table) (hp : p ≠ 0) :
    Exact 0 probes (recordBlk mem s p).table := by
  have hkeep := insertLoggedAddr_keeps h hp
  unfold recordBlk
  dsimp only
  split <;> exact hkeep

/-- A block that is not is logged, and stored unless the index is full. -/
theorem recordBlk_absent (habs : ¬ Stored s.table p) (hlt : p < 2 ^ 64) :
    (∃ i, s.table i = 0 ∧
      recordBlk mem s p = ⟨s.log ++ [Entry.save mem p], Function.update s.table i p⟩) ∨
    ((∀ i, s.table i ≠ 0) ∧ recordBlk mem s p = ⟨s.log ++ [Entry.save mem p], s.table⟩) := by
  unfold recordBlk
  rcases insertLoggedAddr_absent habs hlt with ⟨i, hi, he⟩ | ⟨hfull, he⟩
  · exact Or.inl ⟨i, hi, by rw [he]; rfl⟩
  · exact Or.inr ⟨hfull, by rw [he]; rfl⟩

end

/-! ## 4. The two logs -/

/-- The first entry of the block at `p`. -/
def firstEntry (p : ℕ) (log : List Entry) : Option Entry := log.find? fun e => decide (e.addr = p)

theorem firstEntry_append (p : ℕ) (log log' : List Entry) :
    firstEntry p (log ++ log') = (firstEntry p log).or (firstEntry p log') := List.find?_append

theorem firstEntry_save_ne {mem : ℕ → ℕ} {p q : ℕ} (h : q ≠ p) :
    firstEntry p [Entry.save mem q] = none := by
  simp [firstEntry, h]

/-- The addresses a log saves. -/
def savedAddrs (log : List Entry) : List ℕ := log.map Entry.addr

theorem savedAddrs_append (log : List Entry) (mem : ℕ → ℕ) (p : ℕ) :
    savedAddrs (log ++ [Entry.save mem p]) = savedAddrs log ++ [p] := List.map_append

theorem mem_savedAddrs_append {log : List Entry} {mem : ℕ → ℕ} {p q : ℕ} :
    q ∈ savedAddrs (log ++ [Entry.save mem p]) ↔ q ∈ savedAddrs log ∨ q = p := by
  rw [savedAddrs_append, List.mem_append, List.mem_singleton]

theorem firstEntry_isSome {p : ℕ} {log : List Entry} :
    (firstEntry p log).isSome ↔ p ∈ savedAddrs log := by
  simp [firstEntry, savedAddrs, List.find?_isSome]

/-- The index has a slot for every block of the log. -/
def HasRoom (L : List Entry) : Prop := (savedAddrs L).toFinset.card ≤ loggedAddrHashSize

/-- **The plain log `L` and the deduplicated log `s` of one run.** -/
structure Agrees (L : List Entry) (s : DedupLog) : Prop where
  exact : Exact 0 probes s.table
  nonnull : ∀ p ∈ savedAddrs L, p ≠ 0
  sub : s.log.Sublist L
  first : ∀ p, firstEntry p s.log = firstEntry p L
  /-- What is in the index is in the log. -/
  logged : ∀ p, p ≠ 0 → Stored s.table p → p ∈ savedAddrs s.log
  /-- As long as the index has room for all blocks, each is in both, and once. -/
  once : HasRoom L → (savedAddrs s.log).Nodup ∧ ∀ p ∈ savedAddrs s.log, Stored s.table p

theorem agrees_cleared : Agrees [] DedupLog.cleared where
  exact := exact_vacant
  nonnull _ hp := absurd hp List.not_mem_nil
  sub := List.Sublist.refl []
  first _ := rfl
  logged _ hp hs := by
    obtain ⟨_, h⟩ := hs
    exact absurd h.symm hp
  once _ := ⟨List.nodup_nil, fun _ h => absurd h List.not_mem_nil⟩

namespace Agrees

variable {L : List Entry} {s : DedupLog} {mem : ℕ → ℕ} {p : ℕ}

theorem mem_iff (h : Agrees L s) (p : ℕ) : p ∈ savedAddrs s.log ↔ p ∈ savedAddrs L := by
  rw [← firstEntry_isSome, h.first, firstEntry_isSome]

theorem nonnull_append (h : Agrees L s) (hp : p ≠ 0) :
    ∀ q ∈ savedAddrs (L ++ [Entry.save mem p]), q ≠ 0 := by
  intro q hq
  rcases mem_savedAddrs_append.mp hq with hq | rfl
  · exact h.nonnull q hq
  · exact hp

theorem room_of_append (h : HasRoom (L ++ [Entry.save mem p])) : HasRoom L := by
  refine (Finset.card_le_card fun q hq => ?_).trans h
  rw [List.mem_toFinset] at hq ⊢
  exact mem_savedAddrs_append.mpr (Or.inl hq)

/-- **With a full index, there is no room for a block that is not in the log.** -/
theorem full_no_room (h : Agrees L s) (hp : p ≠ 0) (hfull : ∀ i, s.table i ≠ 0)
    (hnew : p ∉ savedAddrs L) : ¬ HasRoom (L ++ [Entry.save mem p]) := by
  intro hroom
  have hcard : (Finset.univ.image s.table).card = loggedAddrHashSize := by
    rw [Finset.card_image_of_injective _ fun i j hij => h.exact.once i j (hfull i) hij,
      Finset.card_univ, Fintype.card_fin]
  have hsub : insert p (Finset.univ.image s.table) ⊆
      (savedAddrs (L ++ [Entry.save mem p])).toFinset := by
    intro q hq
    rw [List.mem_toFinset, mem_savedAddrs_append]
    rcases Finset.mem_insert.mp hq with hq | hq
    · exact Or.inr hq
    · obtain ⟨i, -, rfl⟩ := Finset.mem_image.mp hq
      exact Or.inl ((h.mem_iff _).mp (h.logged _ (hfull i) ⟨i, rfl⟩))
  have hout : p ∉ Finset.univ.image s.table := by
    intro hin
    obtain ⟨i, -, rfl⟩ := Finset.mem_image.mp hin
    exact hnew ((h.mem_iff _).mp (h.logged _ hp ⟨i, rfl⟩))
  have hle := (Finset.card_le_card hsub).trans hroom
  rw [Finset.card_insert_of_notMem hout, hcard] at hle
  exact Nat.not_succ_le_self _ hle

/-- A block the index has: only the plain log grows. -/
theorem record_stored (h : Agrees L s) (hp : p ≠ 0) (hs : Stored s.table p) :
    Agrees (L ++ [Entry.save mem p]) s where
  exact := h.exact
  nonnull := h.nonnull_append hp
  sub := h.sub.trans (List.sublist_append_left _ _)
  first q := by
    rw [firstEntry_append, h.first]
    by_cases hq : p = q
    · have hsome : (firstEntry q L).isSome := by
        rw [firstEntry_isSome, ← h.mem_iff, ← hq]
        exact h.logged p hp hs
      rw [Option.or_of_isSome hsome]
    · rw [firstEntry_save_ne hq, Option.or_none]
  logged := h.logged
  once hroom := h.once (room_of_append hroom)

/-- A block the index takes: both logs grow. -/
theorem record_space (h : Agrees L s) (hp : p ≠ 0) (hs : ¬ Stored s.table p)
    {i : Fin loggedAddrHashSize} (hi : s.table i = 0)
    (hexact : Exact 0 probes (Function.update s.table i p)) :
    Agrees (L ++ [Entry.save mem p]) ⟨s.log ++ [Entry.save mem p], Function.update s.table i p⟩ where
  exact := hexact
  nonnull := h.nonnull_append hp
  sub := h.sub.append (List.Sublist.refl _)
  first q := by rw [firstEntry_append, firstEntry_append, h.first]
  logged q hq hst := by
    rw [mem_savedAddrs_append]
    rcases (stored_update hi hq).mp hst with rfl | hst
    · exact Or.inr rfl
    · exact Or.inl (h.logged q hq hst)
  once hroom := by
    obtain ⟨hnd, hst⟩ := h.once (room_of_append hroom)
    refine ⟨?_, fun q hq => ?_⟩
    · rw [savedAddrs_append]
      refine List.nodup_append.mpr ⟨hnd, List.nodup_singleton p, fun q hq q' hq' heq => ?_⟩
      rw [← List.mem_singleton.mp hq', ← heq] at hs
      exact hs (hst q hq)
    · have hq0 : q ≠ 0 := by
        rcases mem_savedAddrs_append.mp hq with hq | rfl
        · exact h.nonnull q ((h.mem_iff q).mp hq)
        · exact hp
      refine (stored_update hi hq0).mpr ?_
      rcases mem_savedAddrs_append.mp hq with hq | hq
      · exact Or.inr (hst q hq)
      · exact Or.inl hq

/-- A block the index has no slot for: both logs grow, and there are more blocks than slots. -/
theorem record_full (h : Agrees L s) (hp : p ≠ 0) (hs : ¬ Stored s.table p)
    (hfull : ∀ i, s.table i ≠ 0) :
    Agrees (L ++ [Entry.save mem p]) ⟨s.log ++ [Entry.save mem p], s.table⟩ where
  exact := h.exact
  nonnull := h.nonnull_append hp
  sub := h.sub.append (List.Sublist.refl _)
  first q := by rw [firstEntry_append, firstEntry_append, h.first]
  logged q hq hst := mem_savedAddrs_append.mpr (Or.inl (h.logged q hq hst))
  once hroom := by
    by_cases hnew : p ∈ savedAddrs L
    · exact absurd ((h.once (room_of_append hroom)).2 p ((h.mem_iff p).mpr hnew)) hs
    · exact absurd hroom (h.full_no_room hp hfull hnew)

/-- **A block keeps the relation.** -/
theorem record (h : Agrees L s) (hp : BlockAddr p) :
    Agrees (L ++ [Entry.save mem p]) (recordBlk mem s p) := by
  by_cases hs : Stored s.table p
  · rw [recordBlk_stored h.exact hp.ne_zero hs]
    exact h.record_stored hp.ne_zero hs
  · have hkeep : Exact 0 probes (recordBlk mem s p).table := recordBlk_exact h.exact hp.ne_zero
    rcases @recordBlk_absent mem s p hs hp.lt with ⟨i, hi, he⟩ | ⟨hfull, he⟩
    · rw [he] at hkeep ⊢
      exact h.record_space hp.ne_zero hs hi hkeep
    · rw [he]
      exact h.record_full hp.ne_zero hs hfull

/-- **A store keeps it.** -/
theorem blocks {ps : List ℕ} (h : Agrees L s) (hps : ∀ p ∈ ps, BlockAddr p) :
    Agrees (L ++ ps.map (Entry.save mem)) (ps.foldl (recordBlk mem) s) := by
  induction ps generalizing L s with
  | nil => rwa [List.map_nil, List.append_nil]
  | cons p ps ih =>
      rw [List.forall_mem_cons] at hps
      have hfirst : Agrees (L ++ [Entry.save mem p]) (recordBlk mem s p) := h.record hps.1
      have hstep := ih hfirst hps.2
      rwa [List.append_assoc] at hstep

end Agrees

/-! ## 5. A run of stores -/

/-- The log and the index the stores leave, `undo_log_record` being called before each. -/
def dedupLog : DedupLog → (ℕ → ℕ) → List Store → Option DedupLog
  | s, _, [] => some s
  | s, mem, st :: sts =>
      (undoLogRecordDedup Ranges.empty mem s st.addr st.bytes.length).bind fun r =>
        dedupLog r.1 (storeBytes st.addr st.bytes mem) sts

/-- A store to blocks other than the null block and the last one of the address space. -/
def UserStore (st : Store) : Prop := 32 ≤ st.addr ∧ st.addr + st.bytes.length ≤ 2 ^ 64 - 32

theorem undoLogRecordDedup_newBlocks {mem : ℕ → ℕ} {s : DedupLog} {st : Store} (h : UserStore st) :
    ∃ ret, undoLogRecordDedup Ranges.empty mem s st.addr st.bytes.length =
      some ((newBlocks st).foldl (recordBlk mem) s, ret) := by
  by_cases hb : st.bytes = []
  · refine ⟨false, ?_⟩
    rw [undoLogRecordDedup, find_empty]
    simp [newBlocks, hb]
  · have hf : Ranges.empty.find st.addr st.bytes.length = false := by
      rw [find_empty]
      simp [hb]
    exact ⟨_, by rw [newBlocks, if_neg hb, undoLogRecordDedup_eq hf h.2]⟩

theorem newBlocks_blockAddr {st : Store} (h : UserStore st) {p : ℕ} (hp : p ∈ newBlocks st) :
    BlockAddr p := by
  unfold newBlocks at hp
  split at hp
  · exact absurd hp List.not_mem_nil
  · obtain ⟨h1, h2, h3⟩ := mem_blocks.mp hp
    obtain ⟨h4, h5⟩ := h
    unfold blkStart at h1
    exact ⟨by omega, h3, by omega⟩

/-- **The two logs of a run.** -/
theorem agrees_run {sts : List Store} {L : List Entry} {s : DedupLog} {mem : ℕ → ℕ}
    (h : Agrees L s) (hst : ∀ st ∈ sts, UserStore st) :
    ∃ D, dedupLog s mem sts = some D ∧ Agrees (storesLog L mem sts) D := by
  induction sts generalizing L s mem with
  | nil => exact ⟨s, rfl, h⟩
  | cons st sts ih =>
      rw [List.forall_mem_cons] at hst
      obtain ⟨ret, he⟩ := @undoLogRecordDedup_newBlocks mem s st hst.1
      have hblocks : Agrees (L ++ (newBlocks st).map (Entry.save mem))
          ((newBlocks st).foldl (recordBlk mem) s) :=
        h.blocks fun p hp => newBlocks_blockAddr hst.1 hp
      obtain ⟨D, h1, h2⟩ := @ih _ _ (storeBytes st.addr st.bytes mem) hblocks hst.2
      refine ⟨D, ?_, ?_⟩
      · rw [dedupLog, he, Option.bind_some, h1]
      · rwa [storesLog, recorded_eq]

/-! ## 6. Undoing the stores -/

/-- A store changes blocks the log has, so its record and the store leave every replay. -/
theorem replay_storeRecorded (log : List Entry) (mem : ℕ → ℕ) (st : Store) (x : ℕ) :
    undoJournal.replay (recorded log mem st) (storeBytes st.addr st.bytes mem) x =
      undoJournal.replay log mem x := by
  have hsave : undoJournal.replay (recorded log mem st) mem x = undoJournal.replay log mem x := by
    rw [recorded_eq]
    exact replay_save (fun _ hp => newBlocks_mod hp) x
  rw [← hsave]
  refine Journal.replay_congr ?_
  by_cases hx : inStore st.addr st.bytes x = true
  · left
    rw [recorded_eq, Journal.logged_append, logged_save]
    right
    rw [inStore_iff] at hx
    unfold newBlocks
    rw [if_neg (by intro hb; rw [hb, List.length_nil] at hx; omega)]
    exact blkStart_mem_blocks hx.1 hx.2
  · right
    rw [storeBytes, if_neg hx]

/-- **The plain log undoes the stores.** -/
theorem replay_storesLog (log : List Entry) (mem : ℕ → ℕ) (sts : List Store) (x : ℕ) :
    undoJournal.replay (storesLog log mem sts) (storesMem mem sts) x =
      undoJournal.replay log mem x := by
  induction sts generalizing log mem with
  | nil => rfl
  | cons st sts ih =>
      rw [storesLog, storesMem, List.foldl_cons, ← replay_storeRecorded log mem st x]
      exact ih _ _

theorem storesLog_entry {mem : ℕ → ℕ} {sts : List Store} (hst : ∀ st ∈ sts, UserStore st)
    {e : Entry} (he : e ∈ storesLog [] mem sts) : BlockAddr e.addr ∧ e.commitTail = 0 := by
  rcases mem_storesLog he with he | ⟨st, hs, q, hq, h1, h2⟩
  · exact absurd he List.not_mem_nil
  · exact ⟨by rw [h1]; exact newBlocks_blockAddr (hst st hs) hq, h2⟩

/-- The loop of `undo_log_recover`, over a log of applicable entries. -/
theorem applyBack_logArray {manages : ℕ → Bool} {es : List Entry} (m : ℕ → ℕ)
    (h : ∀ e ∈ es, Applicable manages e) :
    applyBack manages memcpyBlk (logArray es) es.length m = some (es.foldr memcpyBlk m) := by
  rw [applyBack_eq, logArray_map_range]
  intro i hi
  rw [logArray_getElem hi]
  exact h _ (List.getElem_mem hi)

/-- **Deduplicated and plain undo logs are interchangeable.** -/
theorem dedup_interchangeable {mem : ℕ → ℕ} {sts : List Store} (hst : ∀ st ∈ sts, UserStore st) :
    ∃ D, dedupLog DedupLog.cleared mem sts = some D ∧
      let L := storesLog [] mem sts
      D.log.Sublist L ∧ (∀ p, firstEntry p D.log = firstEntry p L) ∧
      ((savedAddrs L).toFinset.card ≤ loggedAddrHashSize →
        ∀ p ∈ savedAddrs L, (savedAddrs D.log).count p = 1) ∧
      ∀ manages : ℕ → Bool, (∀ e ∈ L, manages e.addr = true) →
        applyBack manages memcpyBlk (logArray D.log) D.log.length (storesMem mem sts) = some mem ∧
        applyBack manages memcpyBlk (logArray L) L.length (storesMem mem sts) = some mem := by
  obtain ⟨D, hD, h⟩ := @agrees_run sts [] DedupLog.cleared mem agrees_cleared hst
  refine ⟨D, hD, h.sub, h.first, fun hroom p hp => ?_, fun manages hmanages => ?_⟩
  · exact List.count_eq_one_of_mem (h.once hroom).1 ((h.mem_iff p).mpr hp)
  · have happ : ∀ e ∈ storesLog [] mem sts, Applicable manages e := by
      intro e he
      obtain ⟨h1, h2⟩ := storesLog_entry hst he
      exact ⟨h2, h1.ne_zero, hmanages e he⟩
    have hL : ∀ x, undoJournal.replay (storesLog [] mem sts) (storesMem mem sts) x = mem x :=
      fun x => replay_storesLog [] mem sts x
    rw [applyBack_logArray _ happ, applyBack_logArray _ fun e he => happ e (h.sub.subset he),
      foldr_memcpyBlk fun e he => (storesLog_entry hst he).1.mod,
      foldr_memcpyBlk fun e he => (storesLog_entry hst (h.sub.subset he)).1.mod]
    refine ⟨congrArg some (funext fun x => ?_), congrArg some (funext hL)⟩
    have hfirst : undoJournal.first D.log x = undoJournal.first (storesLog [] mem sts) x :=
      h.first (blkStart x)
    rw [Journal.replay_eq_of_first hfirst, hL]

theorem dedup_interchangeable_repeat :
    ∃ D, dedupLog DedupLog.cleared (fun x => x) [⟨60, [1, 2, 3, 4, 5, 6, 7, 8]⟩, ⟨64, [9]⟩] = some D ∧
      let L := storesLog [] (fun x => x) [⟨60, [1, 2, 3, 4, 5, 6, 7, 8]⟩, ⟨64, [9]⟩]
      D.log.Sublist L ∧ (∀ p, firstEntry p D.log = firstEntry p L) ∧
      ((savedAddrs L).toFinset.card ≤ loggedAddrHashSize →
        ∀ p ∈ savedAddrs L, (savedAddrs D.log).count p = 1) ∧
      ∀ manages : ℕ → Bool, (∀ e ∈ L, manages e.addr = true) →
        applyBack manages memcpyBlk (logArray D.log) D.log.length
          (storesMem (fun x => x) [⟨60, [1, 2, 3, 4, 5, 6, 7, 8]⟩, ⟨64, [9]⟩]) = some (fun x => x) ∧
        applyBack manages memcpyBlk (logArray L) L.length
          (storesMem (fun x => x) [⟨60, [1, 2, 3, 4, 5, 6, 7, 8]⟩, ⟨64, [9]⟩]) = some (fun x => x) :=
  dedup_interchangeable (by
    intro st hst
    rcases List.mem_cons.mp hst with rfl | hst
    · exact ⟨by decide, by decide⟩
    · rw [List.mem_singleton.mp hst]
      exact ⟨by decide, by decide⟩)

end Persimmon
