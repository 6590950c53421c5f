/-
  File:      Persimmon/DedupRollback.lean
  Subject:   ROLLBACK WITH A DEDUPLICATED LOG, in the builds with `OPTIMIZE_DEDUPLICATE`, and with
             `OPTIMIZE_SKIP_RECORD` on top of it (src/undo/undo_log.h, src/undo/instrument.cc:
             `insert_instrumentation`).

  A store whose block is in the index adds nothing to the log; one that the inlined code finds in the
  home slot does not even call `undo_log_record`, so that there is no drain either. The events are
  therefore not those of the plain build (`Rollback.lean`).

  * `DedupBuild` -- a build, and how the machine holds its index;
  * `DedupBuild.storesEvents` -- the run of a list of stores, and the log and the index it leaves;
  * `undoLogInitDedup` -- the scan after a crash, which fills an index again; `recoverImageDedup_eq`
    -- recovery does not depend on it;
  * `Deduped` -- what holds between two stores; `Inlines` -- what the inlined code asks of a store;
    `Deduped.access`, `crashAt_dedup`;
  * `dedup_rollback` -- the run never stops, and recovery from a crash at any point of it restores
    the memory.
-/
import Persimmon.FastPath
import Persimmon.Rollback

namespace Persimmon

open PersistentMemory OpenAddressing UndoReplay X86

/-! ## 1. The builds -/

/-- A build with `OPTIMIZE_DEDUPLICATE`. -/
structure DedupBuild where
  /-- `OPTIMIZE_SKIP_RECORD` -/
  skipRecord : Bool
  /-- The address of `logged_addrs_hash`. -/
  hash : Word
  /-- The memory when it holds an index there. -/
  memory : AddrTable → Word → Option Word
  holds : ∀ t, HoldsTable (memory t) hash t
  /-- What the registers and the flags hold besides. -/
  regs : State Reg

/-- The label a store comes to: without `OPTIMIZE_SKIP_RECORD` nothing is inlined. No result when the
    assertion of `undo_insert_fast_path` fails, or the inlined code faults. -/
def DedupBuild.label (b : DedupBuild) (t : AddrTable) (addr size : ℕ) : Option Label :=
  if b.skipRecord then
    (undoInsertFastPath b.hash size).bind fun code =>
      reached (run (b.memory t) code (b.regs.set .dst (BitVec.ofNat 64 addr)))
  else some .slowPath

/-- The events of `undo_log_record`, and what it leaves: the entries it has added are written one
    after another, and drained together. -/
def dedupRecordEvents (fresh : Ranges) (mem : ℕ → ℕ) (s : DedupLog) (addr size : ℕ) :
    Option (List Event × DedupLog) :=
  (undoLogRecordDedup fresh mem s addr size).map fun r =>
    (if fresh.find addr size then []
      else recordFrom s.log.length (r.1.log.drop s.log.length) ++ [.drain ()], r.1)

/-- What is done before a store. -/
def DedupBuild.recordEvents (b : DedupBuild) (fresh : Ranges) (mem : ℕ → ℕ) (s : DedupLog)
    (addr size : ℕ) : Option (List Event × DedupLog) :=
  (b.label s.table addr size).bind fun
    | .skip => some ([], s)
    | .slowPath => dedupRecordEvents fresh mem s addr size

/-- The instrumented stores, one after another. -/
def DedupBuild.storesEvents (b : DedupBuild) :
    DedupLog → (ℕ → ℕ) → List Store → Option (List Event × DedupLog)
  | s, _, [] => some ([], s)
  | s, mem, st :: sts =>
      (b.recordEvents Ranges.empty mem s st.addr st.bytes.length).bind fun r =>
        (b.storesEvents r.2 (storeBytes st.addr st.bytes mem) sts).map fun q =>
          (r.1 ++ storeEvents st.addr st.bytes ++ q.1, q.2)

/-! ## 2. Recovery -/

/-- The scan of `undo_log_init`: every entry's address goes into the index, also the null address of
    a commit record. -/
def scanFromDedup (log : ℕ → Entry) : ℕ → ℕ → AddrTable → Option (ℕ × AddrTable)
  | 0, _, _ => none
  | fuel + 1, i, t =>
      if (log i).isNull then some (i, t)
      else if 0 < (log i).commitTail ∧ (log i).addr ≠ 0 then none
      else scanFromDedup log fuel (i + 1) (undoLogInsertLoggedAddr (log i).addr t).1

/-- **`undo_log_init(recovered = true)`**: the length and the index. -/
def undoLogInitDedup (log : ℕ → Entry) : Option (ℕ × AddrTable) :=
  scanFromDedup log undoNumEntries 0 AddrTable.cleared

/-- **Recovery on what a crash left.** `undo_log_clear` ends it, on the index as well. -/
def recoverImageDedup (manages : ℕ → Bool) (v : Cell → ℕ) :
    Option ((ℕ → Entry) × AddrTable × (ℕ → ℕ) × Option ℕ) :=
  (undoLogInitDedup (logImage v)).bind fun (n, _) =>
    (undoLogRecover manages memcpyBlk (logImage v) n (memImage v)).map fun r =>
      (undoLogClear (logImage v) n, AddrTable.cleared, r.1, r.2)

theorem scanFromDedup_map (log : ℕ → Entry) (fuel i : ℕ) (t : AddrTable) :
    (scanFromDedup log fuel i t).map Prod.fst = scanFrom log fuel i := by
  induction fuel generalizing i t with
  | zero => rfl
  | succ fuel ih =>
      rw [scanFromDedup, scanFrom]
      split
      · rfl
      · split
        · rfl
        · exact ih _ _

/-- **Recovery does not depend on the index** it has built. -/
theorem recoverImageDedup_eq (manages : ℕ → Bool) (v : Cell → ℕ) :
    recoverImageDedup manages v =
      (recoverImage manages v).map fun r => (r.1, AddrTable.cleared, r.2.1, r.2.2) := by
  have hscan : (undoLogInitDedup (logImage v)).map Prod.fst = undoLogInit (logImage v) :=
    scanFromDedup_map _ _ _ _
  rw [recoverImageDedup, recoverImage, ← hscan]
  cases undoLogInitDedup (logImage v) with
  | none => rfl
  | some r =>
      simp only [Option.bind_some, Option.map_some, Option.map_map]
      rfl

/-! ## 3. What a record adds -/

section Record

variable {mem : ℕ → ℕ} {s : DedupLog}

/-- The blocks that go into the log are some of those of the store, in order. -/
theorem foldl_recordBlk (mem : ℕ → ℕ) (ps : List ℕ) (s : DedupLog) :
    ∃ qs : List ℕ, qs.Sublist ps ∧
      (ps.foldl (recordBlk mem) s).log = s.log ++ qs.map (Entry.save mem) := by
  induction ps generalizing s with
  | nil => exact ⟨[], List.Sublist.refl [], (List.append_nil _).symm⟩
  | cons p ps ih =>
      obtain ⟨qs, hsub, hlog⟩ := ih (recordBlk mem s p)
      rw [List.foldl_cons, hlog]
      by_cases hnew : (undoLogInsertLoggedAddr p s.table).2 = true
      · refine ⟨p :: qs, hsub.cons_cons p, ?_⟩
        simp [recordBlk, hnew]
      · refine ⟨qs, hsub.cons p, ?_⟩
        simp [recordBlk, hnew]

/-- The entries a record adds, and its events. -/
theorem dedupRecordEvents_eq {st : Store} (hst : UserStore st) (hne : st.bytes ≠ []) :
    ∃ qs : List ℕ, qs.Sublist (newBlocks st) ∧
      ((newBlocks st).foldl (recordBlk mem) s).log = s.log ++ qs.map (Entry.save mem) ∧
      dedupRecordEvents Ranges.empty mem s st.addr st.bytes.length =
        some (recordFrom s.log.length (qs.map (Entry.save mem)) ++ [.drain ()],
          (newBlocks st).foldl (recordBlk mem) s) := by
  obtain ⟨qs, hsub, hlog⟩ := foldl_recordBlk mem (newBlocks st) s
  obtain ⟨ret, he⟩ := @undoLogRecordDedup_newBlocks mem s st hst
  refine ⟨qs, hsub, hlog, ?_⟩
  have hfind : Ranges.empty.find st.addr st.bytes.length = false := by
    rw [find_empty]
    simp [hne]
  rw [dedupRecordEvents, he, Option.map_some, hfind, if_neg Bool.false_ne_true, hlog,
    List.drop_left]

end Record

/-! ## 4. What holds between two stores -/

/-- **A run that has come to the end of a store**: the log it has built is that of the plain build,
    less entries of blocks it has. -/
structure Deduped (v0 : Cell → ℕ) (es : List Event) (plain : List Entry) (s : DedupLog) : Prop where
  traced : Traced v0 es s.log
  agrees : Agrees plain s
  indexed : Indexed s

/-- The stored bytes lie in blocks of the log. -/
theorem appEvent_stored {log : List Entry} {st : Store} (h : ∀ p ∈ newBlocks st, p ∈ savedAddrs log)
    {ev : Event} (hev : ev ∈ storeEvents st.addr st.bytes) : AppEvent log ev := by
  obtain ⟨i, hi, rfl⟩ := List.mem_map.mp hev
  rw [List.mem_range] at hi
  refine ⟨fun j ht => Line.noConfusion ht, fun x hx c => ?_⟩
  refine Function.update_of_ne (fun he => hx ?_) _ _
  have hne : st.bytes ≠ [] := fun hnil => by simp [hnil] at hi
  have hin : blkStart x ∈ newBlocks st := by
    rw [newBlocks, if_neg hne, Cell.mem.inj he]
    exact blkStart_mem_blocks (by omega) (by omega)
  obtain ⟨e, he, haddr⟩ := List.mem_map.mp (h _ hin)
  exact ⟨e, he, haddr⟩

theorem newBlocks_room {st : Store} (hst : UserStore st) {p : ℕ} (hp : p ∈ newBlocks st) :
    p % 32 = 0 ∧ p + 64 ≤ 2 ^ 64 := by
  unfold newBlocks at hp
  split at hp
  · exact absurd hp List.not_mem_nil
  · obtain ⟨-, h2, h3⟩ := mem_blocks.mp hp
    have hlast := hst.2
    exact ⟨h3, by omega⟩

/-- **The inlined code serves a store**: in a build that has it, the assertion of
    `undo_insert_fast_path` passes for the size, and the index lies where the code reads it. -/
def DedupBuild.Inlines (b : DedupBuild) (size : ℕ) : Prop :=
  b.skipRecord = true → (undoInsertFastPath b.hash size).isSome = true ∧ b.hash.toNat < 2 ^ 31

section Deduped

variable {b : DedupBuild} {v0 : Cell → ℕ} {es : List Event} {plain : List Entry} {s : DedupLog}
  {st : Store}

/-- **The label a store comes to**; where it skips the call, the store lies in one block, and this is
    logged. -/
theorem Deduped.label (h : Deduped v0 es plain s) (hst : UserStore st) (hne : st.bytes ≠ [])
    (hinl : b.Inlines st.bytes.length) :
    b.label s.table st.addr st.bytes.length = some .slowPath ∨
      b.label s.table st.addr st.bytes.length = some .skip ∧
        newBlocks st = [blkStart st.addr] ∧ Stored s.table (blkStart st.addr) := by
  obtain ⟨hlow, hhigh⟩ := hst
  have hpos : 0 < st.bytes.length := List.length_pos_of_ne_nil hne
  unfold DedupBuild.label
  by_cases hskip : b.skipRecord = true
  swap
  · exact Or.inl (if_neg hskip)
  obtain ⟨hsome, hbase⟩ := hinl hskip
  obtain ⟨code, hcode⟩ := Option.isSome_iff_exists.mp hsome
  have hdst : ((b.regs.set .dst (BitVec.ofNat 64 st.addr)).reg .dst).toNat = st.addr := by
    rw [State.set_reg, Function.update_self, BitVec.toNat_ofNat]
    exact Nat.mod_eq_of_lt (by omega)
  rw [if_pos hskip, hcode, Option.bind_some]
  by_cases hle : st.bytes.length ≤ 32
  · obtain ⟨hiff, helse⟩ := @reached_skip_iff (b.memory s.table) b.hash s.table
      (b.regs.set .dst (BitVec.ofNat 64 st.addr)) _ _ hcode hle (by omega) hbase (b.holds s.table)
      h.indexed.table_lt
    by_cases hreach : reached (run (b.memory s.table) code
        (b.regs.set .dst (BitVec.ofNat 64 st.addr))) = some .skip
    · rw [hdst] at hiff
      obtain ⟨hblock, hhome⟩ := hiff.mp hreach
      obtain ⟨heq, -, -⟩ := h.indexed.home hlow hhome
      exact Or.inr ⟨hreach, by rw [newBlocks, if_neg hne, blocks_single hpos hblock], ⟨_, heq⟩⟩
    · exact Or.inl (helse hreach)
  · -- nothing is emitted for a wide store
    rw [undoInsertFastPath, if_pos (by omega)] at hcode
    obtain rfl := Option.some.inj hcode
    exact Or.inl rfl

/-- What a store finds done: either nothing, its block being logged, or a whole record. -/
theorem Deduped.cases (h : Deduped v0 es plain s) (hst : UserStore st) (hne : st.bytes ≠ [])
    (hinl : b.Inlines st.bytes.length) (mem : ℕ → ℕ) :
    (b.recordEvents Ranges.empty mem s st.addr st.bytes.length = some ([], s) ∧
        newBlocks st = [blkStart st.addr] ∧ Stored s.table (blkStart st.addr)) ∨
      b.recordEvents Ranges.empty mem s st.addr st.bytes.length =
        dedupRecordEvents Ranges.empty mem s st.addr st.bytes.length := by
  unfold DedupBuild.recordEvents
  rcases h.label hst hne hinl with hl | ⟨hl, hone⟩
  · rw [hl]
    exact Or.inr rfl
  · rw [hl]
    exact Or.inl ⟨rfl, hone⟩

/-- **One store**: what is done before it has events, every point of which is a crash point, and
    leaves a log with the blocks of the store. -/
theorem Deduped.access (h : Deduped v0 es plain s) (hst : UserStore st) (hne : st.bytes ≠ [])
    (hinl : b.Inlines st.bytes.length) {mem : ℕ → ℕ}
    (hmem : mem = memImage (viewAfter lineOf es v0)) :
    ∃ new s', b.recordEvents Ranges.empty mem s st.addr st.bytes.length = some (new, s') ∧
      s.log <+: s'.log ∧ Deduped v0 (es ++ new) (recorded plain mem st) s' ∧
      (∀ x, memImage (viewAfter lineOf (es ++ new) v0) x = mem x) ∧
      ∀ p, p <+: new → ∀ full, s'.log <+: full → Nonempty (CrashAt v0 (es ++ p) full) := by
  subst hmem
  have hblocks : ∀ p ∈ newBlocks st, BlockAddr p := fun p hp => newBlocks_blockAddr hst hp
  rcases h.cases hst hne hinl (memImage (viewAfter lineOf es v0)) with ⟨he, hone, hstored⟩ | he
  · refine ⟨[], s, he, List.prefix_rfl, ⟨?_, ?_, h.indexed⟩, fun x => ?_, fun p hp full hf => ?_⟩
    · rw [List.append_nil]
      exact h.traced
    · rw [recorded_eq, hone]
      refine h.agrees.record_stored (hblocks _ ?_).ne_zero hstored
      rw [hone]
      exact List.mem_singleton_self _
    · rw [List.append_nil]
    · obtain rfl := List.prefix_nil.mp hp
      rw [List.append_nil]
      exact ⟨h.traced.crashAt hf⟩
  · obtain ⟨qs, hsub, hlog, hev⟩ :=
      @dedupRecordEvents_eq (memImage (viewAfter lineOf es v0)) s st hst hne
    have hqs : ∀ p ∈ qs, p % 32 = 0 := fun p hp => newBlocks_mod (hsub.subset hp)
    have htr := h.traced.record hqs
    refine ⟨_, _, he.trans hev, ⟨_, hlog.symm⟩, ⟨?_, ?_, ?_⟩, fun x => ?_, fun p hp full hf => ?_⟩
    · rw [hlog]
      exact htr
    · rw [recorded_eq]
      exact h.agrees.blocks hblocks
    · exact h.indexed.foldl fun p hp => newBlocks_room hst hp
    · rw [viewAfter_append]
      exact memImage_recordFrom _ _ List.prefix_rfl _ x
    · rw [hlog] at hf
      rcases prefix_append_iff.mp hp with hp | ⟨q, rfl, hq⟩
      · exact ⟨⟨es, p, s.log, qs, rfl, h.traced, hp, hqs, hf⟩⟩
      · rcases List.prefix_cons_iff.mp hq with rfl | ⟨r, rfl, hr⟩
        · rw [List.append_nil]
          exact ⟨⟨es, _, s.log, qs, rfl, h.traced, List.prefix_rfl, hqs, hf⟩⟩
        · obtain rfl := List.prefix_nil.mp hr
          exact ⟨htr.crashAt hf⟩

/-- The store itself. -/
theorem Deduped.store {mem : ℕ → ℕ} (h : Deduped v0 es (recorded plain mem st) s) {p : List Event}
    (hp : p <+: storeEvents st.addr st.bytes) : Deduped v0 (es ++ p) (recorded plain mem st) s where
  traced := h.traced.app fun _ hev => appEvent_stored (fun q hq => (h.agrees.mem_iff q).mpr (by
    rw [recorded_eq, savedAddrs, List.map_append, List.mem_append, List.map_map]
    exact Or.inr (List.mem_map.mpr ⟨q, hq, rfl⟩))) (hp.subset hev)
  agrees := h.agrees
  indexed := h.indexed

end Deduped

/-! ## 5. The run -/

/-- The log only grows. -/
theorem DedupBuild.prefix_storesEvents {b : DedupBuild} {sts : List Store} {s D : DedupLog}
    {mem : ℕ → ℕ} {run : List Event} (h : b.storesEvents s mem sts = some (run, D))
    (hst : ∀ st ∈ sts, UserStore st ∧ st.bytes ≠ []) : s.log <+: D.log := by
  induction sts generalizing s mem run with
  | nil =>
      cases h
      exact List.prefix_rfl
  | cons st sts ih =>
      rw [List.forall_mem_cons] at hst
      obtain ⟨r, hr, h⟩ := Option.bind_eq_some_iff.mp h
      obtain ⟨q, hq, heq⟩ := Option.map_eq_some_iff.mp h
      cases heq
      refine List.IsPrefix.trans ?_ (ih hq hst.2)
      obtain ⟨l, -, hl⟩ := Option.bind_eq_some_iff.mp hr
      cases l with
      | skip =>
          obtain rfl := Option.some.inj hl
          exact List.prefix_rfl
      | slowPath =>
          obtain ⟨qs, -, hlog, hev⟩ := @dedupRecordEvents_eq mem s st hst.1.1 hst.1.2
          rw [hev] at hl
          obtain rfl := Option.some.inj hl
          exact ⟨_, hlog.symm⟩

/-- **The run never stops, and every point of it is a crash point.** -/
theorem crashAt_dedup {b : DedupBuild} {sts : List Store} {v0 : Cell → ℕ} {es : List Event}
    {plain : List Entry} {s : DedupLog} {mem : ℕ → ℕ} (h : Deduped v0 es plain s)
    (hst : ∀ st ∈ sts, UserStore st ∧ st.bytes ≠ [])
    (hinl : ∀ st ∈ sts, b.Inlines st.bytes.length)
    (hmem : mem = memImage (viewAfter lineOf es v0)) :
    ∃ run D, b.storesEvents s mem sts = some (run, D) ∧
      Deduped v0 (es ++ run) (storesLog plain mem sts) D ∧
      ∀ p, p <+: run → Nonempty (CrashAt v0 (es ++ p) D.log) := by
  induction sts generalizing es plain s mem with
  | nil =>
      refine ⟨[], s, rfl, ?_, fun p hp => ?_⟩
      · rw [List.append_nil]
        exact h
      · obtain rfl := List.prefix_nil.mp hp
        rw [List.append_nil]
        exact ⟨h.traced.crashAt List.prefix_rfl⟩
  | cons st sts ih =>
      rw [List.forall_mem_cons] at hst
      obtain ⟨new, s', hrec, -, hded, hsame, hcrash⟩ :=
        h.access hst.1.1 hst.1.2 (hinl st List.mem_cons_self) hmem
      have hmem' : storeBytes st.addr st.bytes mem =
          memImage (viewAfter lineOf (es ++ new ++ storeEvents st.addr st.bytes) v0) := by
        rw [viewAfter_append, memImage_storeEvents]
        exact congrArg _ (funext fun x => (hsame x).symm)
      obtain ⟨rest, D, hrun, hend, hpoints⟩ := ih (hded.store List.prefix_rfl) hst.2
        (fun st' hst' => hinl st' (List.mem_cons_of_mem _ hst')) hmem'
      have hD : s'.log <+: D.log := DedupBuild.prefix_storesEvents hrun hst.2
      refine ⟨new ++ storeEvents st.addr st.bytes ++ rest, D, ?_, ?_, fun p hp => ?_⟩
      · rw [DedupBuild.storesEvents, hrec, Option.bind_some, hrun]
        rfl
      · simpa only [storesLog, List.append_assoc] using hend
      · rcases prefix_append_iff.mp hp with hp | ⟨r, rfl, hr⟩
        · rcases prefix_append_iff.mp hp with hp | ⟨q, rfl, hq⟩
          · exact hcrash p hp _ hD
          · rw [← List.append_assoc]
            exact ⟨(hded.store hq).traced.crashAt hD⟩
        · rw [← List.append_assoc, ← List.append_assoc]
          exact hpoints r hr

theorem deduped_start {v0 : Cell → ℕ} (hnull : ∀ i, (logImage v0 i).isNull = true) :
    Deduped v0 [] [] DedupLog.cleared where
  traced := Traced.nil hnull
  agrees := agrees_cleared
  indexed := sound_cleared.indexed

/-- **Rollback with a deduplicated log**: in every build whose inlined code serves the stores, for
    every run of stores to the regions of the table, the run never stops, and recovery from a crash
    at any point before its commit record leaves every byte as it was and returns -1. -/
theorem dedup_rollback (b : DedupBuild) {d : Files} {t : Tables} {mrm : Manager}
    (ht : Tiled t.table) (hrec : Manager.new.recover d t = some mrm) {v0 : Cell → ℕ}
    (hnull : ∀ i, (logImage v0 i).isNull = true) {sts : List Store}
    (hin : ∀ st ∈ sts, st.bytes ≠ [] ∧ ∀ i < st.bytes.length, st.addr + i ∈ regionPts t.table)
    (hinl : ∀ st ∈ sts, b.Inlines st.bytes.length) :
    ∃ run D, b.storesEvents DedupLog.cleared (memImage v0) sts = some (run, D) ∧
      (D.log.length < undoNumEntries → ∀ part,
        part <+: run ++ flushEvents Ranges.empty D.log → ∀ s : Machine,
          Exec lineOf (Memory.start v0) part s →
            ∃ log m, recoverImageDedup mrm.doesManage s.pm = some (log, AddrTable.cleared, m, none) ∧
              ∀ x, m x = memImage v0 x) := by
  have hmem : ∀ x ∈ regionPts t.table, 4096 ≤ x ∧ x < 2 ^ 47 := by
    rintro x ⟨r, hr, hx⟩
    have hpos := (ht.pos r hr).1
    have hal := ht.aligned r hr
    have hu := ht.user r hr
    rw [Region.mem_pts] at hx
    omega
  have hst : ∀ st ∈ sts, UserStore st ∧ st.bytes ≠ [] := by
    intro st hst
    obtain ⟨hne, hbytes⟩ := hin st hst
    have hpos : 0 < st.bytes.length := List.length_pos_of_ne_nil hne
    have hfirst := hmem _ (hbytes 0 hpos)
    have hlast := hmem _ (hbytes (st.bytes.length - 1) (by omega))
    exact ⟨⟨by omega, by omega⟩, hne⟩
  obtain ⟨run, D, hrun, hend, hpoints⟩ := crashAt_dedup (deduped_start hnull) hst hinl rfl
  refine ⟨run, D, hrun, fun hlen part hpart s hs => ?_⟩
  obtain ⟨c⟩ : Nonempty (CrashAt v0 part D.log) := by
    rcases prefix_append_iff.mp hpart with hp | ⟨r, rfl, hr⟩
    · exact hpoints part hp
    · exact ⟨(hend.traced.app fun ev hev => appEvent_flushEvents (hr.subset hev)).crashAt
        List.prefix_rfl⟩
  have hfull : ∀ e ∈ D.log, e.addr ≠ 0 ∧ mrm.doesManage e.addr = true := by
    intro e he
    obtain ⟨st, hs, q, hq, hqe, -⟩ :=
      (mem_storesLog (hend.agrees.sub.subset he)).resolve_left List.not_mem_nil
    obtain ⟨hne, hreg⟩ := newBlocks_managed ht (hin st hs).2 hq
    rw [hqe]
    refine ⟨hne, ?_⟩
    obtain ⟨r, hr, hx⟩ := hreg
    have hlt : q < 2 ^ 64 := by
      have := hmem q ⟨r, hr, hx⟩
      omega
    exact (recover_doesManage (fun q hq => ht.stop_lt hq) hrec hlt).mpr ⟨r, hr, hx⟩
  obtain ⟨log, m, h1, h2⟩ := CrashAt.rollback c (Synced.start v0) hs hfull hlen
  exact ⟨log, m, by rw [recoverImageDedup_eq, h1]; rfl, h2⟩

/-- The build with both options, its index at 2^28. -/
def skippingBuild : DedupBuild :=
  ⟨true, 0x10000000, tableImage 0x10000000, holdsTable_image 0x10000000, ⟨fun _ => 0, false, false⟩⟩

/-- Two stores to one block; the second is not recorded. -/
theorem dedup_rollback_skipped :
    ∃ run D, skippingBuild.storesEvents DedupLog.cleared (fun _ => 0)
        [⟨4104, [1, 2, 3, 4]⟩, ⟨4104, [5, 6]⟩] = some (run, D) ∧
      (D.log.length < undoNumEntries → ∀ part,
        part <+: run ++ flushEvents Ranges.empty D.log → ∀ s : Machine,
          Exec lineOf (Memory.start fun _ => 0) part s →
            ∃ log m, recoverImageDedup (Ranges.empty.insert 4096 4096).findPoint s.pm =
                some (log, AddrTable.cleared, m, none) ∧ ∀ x, m x = 0) := by
  have hrec : Manager.new.recover ⟨fun _ => true, fun _ _ => 0, fun _ _ => 0⟩ zeroPage =
      some ⟨zeroPage.table, Ranges.empty.insert 4096 4096⟩ := rfl
  have hnull : ∀ i, (logImage (fun _ => 0) i).isNull = true := fun _ => rfl
  refine dedup_rollback skippingBuild zeroPage_tiled hrec hnull (fun st hst => ?_)
    fun st hst _ => ?_
  · simp only [List.mem_cons, List.not_mem_nil, or_false] at hst
    rcases hst with rfl | rfl <;> exact ⟨by decide, by decide⟩
  · simp only [List.mem_cons, List.not_mem_nil, or_false] at hst
    rcases hst with rfl | rfl <;> decide

end Persimmon
