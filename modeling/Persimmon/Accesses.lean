/-
  File:      Persimmon/Accesses.lean
  Subject:   CALLS OF `undo_log_record` AND STORES, in any order (src/undo/undo_log.h).

  An instrumented instruction may call `undo_log_record` several times before it stores, and some
  instructions store without a call. What a rollback needs is less than a call for every store: each
  byte is in a range recorded before, or on a line without managed memory.

  * `Access`, `accessEvents`, `accessLog`, `accessMem` -- the run, its log, its memory;
  * `Aside`, `Guarded` -- lines without managed memory; what is asked of the run;
  * `Mirrors` -- the run without its stores aside: it has built the log, and holds the managed lines;
  * `crashAt_accesses`, `mirrors_accesses` -- its crash points, and its end;
  * `shouldCommit_iff` -- when `undo_log_record` has asked for a commit;
  * `accesses_recover` -- recovery from any point of the run and its commit: the managed memory is that
    of before or that of behind.
-/
import Persimmon.Lives

namespace Persimmon

open PersistentMemory UndoReplay

/-! ## 1. The run -/

/-- A call of `undo_log_record`, or a store. -/
inductive Access where
  | record (addr size : ℕ)
  | store (st : Store)

/-- What it sends to the memory. -/
def Access.events (log : List Entry) (mem : ℕ → ℕ) : Access → List Event
  | .record addr size => recordEvents Ranges.empty mem log.length addr size
  | .store st => storeEvents st.addr st.bytes

/-- The log behind it. -/
def Access.log (log : List Entry) (mem : ℕ → ℕ) : Access → List Entry
  | .record addr size => (undoLogRecord Ranges.empty mem log addr size).1
  | .store _ => log

/-- The memory behind it. -/
def Access.mem (mem : ℕ → ℕ) : Access → ℕ → ℕ
  | .record _ _ => mem
  | .store st => storeBytes st.addr st.bytes mem

def accessEvents : List Entry → (ℕ → ℕ) → List Access → List Event
  | _, _, [] => []
  | log, mem, c :: cs => c.events log mem ++ accessEvents (c.log log mem) (c.mem mem) cs

def accessLog : List Entry → (ℕ → ℕ) → List Access → List Entry
  | log, _, [] => log
  | log, mem, c :: cs => accessLog (c.log log mem) (c.mem mem) cs

def accessMem (mem : ℕ → ℕ) (cs : List Access) : ℕ → ℕ := cs.foldl (fun m c => c.mem m) mem

/-- **The lines of memory without a managed byte.** -/
def Aside (table : List Region) : Set Line :=
  {l | ∃ n, l = .mem n ∧ ∀ y ∈ regionPts table, cacheLine y ≠ n}

/-- **Every range that is recorded is managed, and every byte that is stored is aside or lies in a
    range recorded before.** -/
def Guarded (table : List Region) : List (ℕ × ℕ) → List Access → Prop
  | _, [] => True
  | seen, .record addr size :: cs =>
      0 < size ∧ (∀ i < size, addr + i ∈ regionPts table) ∧ Guarded table ((addr, size) :: seen) cs
  | seen, .store st :: cs =>
      (∀ i < st.bytes.length, Line.mem (cacheLine (st.addr + i)) ∈ Aside table ∨
        ∃ r ∈ seen, r.1 ≤ st.addr + i ∧ st.addr + i < r.1 + r.2) ∧ Guarded table seen cs

/-- The run without its stores aside. -/
noncomputable def kept (table : List Region) (es : List Event) : List Event :=
  open Classical in es.filter fun ev => ¬ ev.StoresInto lineOf (Aside table)

section Kept

variable {table : List Region} {es fs : List Event}

theorem kept_append : kept table (es ++ fs) = kept table es ++ kept table fs :=
  List.filter_append _ _

theorem mem_kept {ev : Event} :
    ev ∈ kept table es ↔ ev ∈ es ∧ ¬ ev.StoresInto lineOf (Aside table) := by
  classical
  rw [kept, List.mem_filter, decide_eq_true_eq]

theorem kept_eq_self (h : ∀ ev ∈ es, ¬ ev.StoresInto lineOf (Aside table)) : kept table es = es := by
  classical
  exact List.filter_eq_self.mpr fun ev hev => decide_eq_true (h ev hev)

theorem kept_mono (h : es <+: fs) : kept table es <+: kept table fs := h.filter _

/-- A managed byte is not aside. -/
theorem not_aside {x : ℕ} (h : x ∈ regionPts table) : Line.mem (cacheLine x) ∉ Aside table :=
  fun ⟨_, hn, hy⟩ => hy x h (Line.mem.inj hn)

/-- Nor is a line of the log. -/
theorem log_not_aside (i : ℕ) : Line.log i ∉ Aside table := fun ⟨_, hn, _⟩ => Line.noConfusion hn

/-- What stores into the log, flushes or drains is kept. -/
theorem kept_of_touches (h : ∀ ev ∈ es, ∀ l, ev.Touches lineOf l → ∃ i, l = .log i) :
    kept table es = es := by
  refine kept_eq_self fun ev hev hin => ?_
  cases ev with
  | store a b =>
      obtain ⟨i, hi⟩ := h _ hev (lineOf a) rfl
      rw [show Ev.StoresInto lineOf (Aside table) (.store a b : Event) = (lineOf a ∈ Aside table) from
        rfl, hi] at hin
      exact log_not_aside i hin
  | fill t l v => exact hin
  | flush t l => exact hin
  | drain t => exact hin

end Kept

/-! ## 2. The run without its stores aside -/

/-- **The kept events have built the log, and hold what the run holds of the managed lines**; the
    ranges seen are in the log. -/
structure Mirrors (table : List Region) (v0 : Cell → ℕ) (es : List Event) (log : List Entry)
    (mem : ℕ → ℕ) (seen : List (ℕ × ℕ)) : Prop where
  traced : Traced v0 es log
  mem : ∀ x, Line.mem (cacheLine x) ∉ Aside table → memImage (viewAfter lineOf es v0) x = mem x
  seen : ∀ r ∈ seen, ∀ x, r.1 ≤ x → x < r.1 + r.2 → undoJournal.Logged log x
  touched : ∀ ev ∈ es, ∀ n, ev.Touches lineOf (.mem n) → ∃ e ∈ log, cacheLine e.addr = n
  managed : ∀ e ∈ log, ∃ x ∈ regionPts table, e.addr = blkStart x

section Mirrors

variable {table : List Region} {v0 : Cell → ℕ} {es : List Event} {log : List Entry} {mem : ℕ → ℕ}
  {seen : List (ℕ × ℕ)} {addr size : ℕ}

theorem undoLogRecord_empty (hs : 0 < size) :
    (undoLogRecord Ranges.empty mem log addr size).1 =
      log ++ (blocks addr size).map (Entry.save mem) := by
  rw [undoLogRecord, find_empty]
  simp [Nat.ne_of_gt hs]

theorem recordEvents_empty {n : ℕ} (hs : 0 < size) :
    recordEvents Ranges.empty mem n addr size =
      recordFrom n ((blocks addr size).map (Entry.save mem)) ++ [.drain ()] := by
  rw [recordEvents, find_empty]
  simp [Nat.ne_of_gt hs]

/-- The blocks recorded hold what the kept events hold. -/
theorem Mirrors.saves (h : Mirrors table v0 es log mem seen) (hs : 0 < size)
    (hin : ∀ i < size, addr + i ∈ regionPts table) :
    (blocks addr size).map (Entry.save mem) = saves es v0 (blocks addr size) := by
  refine List.map_congr_left fun p hp => ?_
  obtain ⟨x, h1, h2, rfl⟩ := exists_of_mem_blocks hs hp
  have hx : x ∈ regionPts table := by
    have := hin (x - addr) (by omega)
    rwa [Nat.add_sub_cancel' h1] at this
  have hblk : ∀ j : Fin 32, mem (blkStart x + j) = memImage (viewAfter lineOf es v0) (blkStart x + j) :=
    fun j => by
      have hline : cacheLine (blkStart x + j) = cacheLine x := by
        unfold cacheLine blkStart
        omega
      exact (h.mem _ (hline ▸ not_aside hx)).symm
  unfold Entry.save
  rw [funext hblk]

/-- What a record sends to the memory is kept, and goes to the log. -/
theorem kept_record {n : ℕ} {new : List Entry} :
    kept table (recordFrom n new ++ [.drain ()]) = recordFrom n new ++ [.drain ()] := by
  refine kept_of_touches fun ev hev l ht => ?_
  rcases List.mem_append.mp hev with hev | hev
  · obtain ⟨i, -, -, hl⟩ := touches_recordFrom hev ht
    exact ⟨i, hl⟩
  · rw [List.mem_singleton.mp hev] at ht
    exact absurd ht id

/-- **A call of `undo_log_record`.** -/
theorem Mirrors.record (h : Mirrors table v0 es log mem seen) (hs : 0 < size)
    (hin : ∀ i < size, addr + i ∈ regionPts table) :
    Mirrors table v0 (es ++ kept table ((Access.record addr size).events log mem))
      ((Access.record addr size).log log mem) mem ((addr, size) :: seen) := by
  have hev : kept table ((Access.record addr size).events log mem) =
      recordFrom log.length (Persimmon.saves es v0 (blocks addr size)) ++ [.drain ()] := by
    rw [Access.events, recordEvents_empty hs, kept_record, h.saves hs hin]
  have hlog : (Access.record addr size).log log mem =
      log ++ Persimmon.saves es v0 (blocks addr size) := by
    rw [Access.log, undoLogRecord_empty hs, h.saves hs hin]
  rw [hev, hlog]
  refine ⟨h.traced.record fun p hp => blocks_mod hp, fun x hx => ?_, fun r hr x h1 h2 => ?_,
    fun ev hev n ht => ?_, fun e he => ?_⟩
  · rw [viewAfter_append, memImage_recordFrom _ _ List.prefix_rfl]
    exact h.mem x hx
  · rw [Journal.logged_append]
    rcases List.mem_cons.mp hr with rfl | hr
    · exact Or.inr (logged_save.mpr (blkStart_mem_blocks h1 h2))
    · exact Or.inl (h.seen r hr x h1 h2)
  · rcases List.mem_append.mp hev with hev | hev
    · obtain ⟨e, he, hline⟩ := h.touched ev hev n ht
      exact ⟨e, List.mem_append_left _ he, hline⟩
    · rcases List.mem_append.mp hev with hev | hev
      · obtain ⟨i, -, -, hl⟩ := touches_recordFrom hev ht
        cases hl
      · rw [List.mem_singleton.mp hev] at ht
        exact absurd ht id
  · rcases List.mem_append.mp he with he | he
    · exact h.managed e he
    · obtain ⟨p, hp, rfl⟩ := List.mem_map.mp he
      obtain ⟨x, h1, h2, rfl⟩ := exists_of_mem_blocks hs hp
      have hx := hin (x - addr) (by omega)
      rw [Nat.add_sub_cancel' h1] at hx
      exact ⟨x, hx, rfl⟩

/-- The stores that are kept go to bytes the log has. -/
theorem appEvent_kept {st : Store} {ev : Event} (h : Mirrors table v0 es log mem seen)
    (hg : ∀ i < st.bytes.length, Line.mem (cacheLine (st.addr + i)) ∈ Aside table ∨
      ∃ r ∈ seen, r.1 ≤ st.addr + i ∧ st.addr + i < r.1 + r.2)
    (hev : ev ∈ kept table (storeEvents st.addr st.bytes)) :
    ∃ x b, ev = .store (.mem x) b ∧ undoJournal.Logged log x := by
  obtain ⟨hin, hkept⟩ := mem_kept.mp hev
  obtain ⟨i, hi, rfl⟩ := List.mem_map.mp hin
  rw [List.mem_range] at hi
  obtain ⟨r, hr, h1, h2⟩ := (hg i hi).resolve_left fun ha => hkept ha
  exact ⟨_, _, rfl, h.seen r hr _ h1 h2⟩

theorem appEvent_of_logged {x b : ℕ} (h : undoJournal.Logged log x) :
    AppEvent log (.store (.mem x) b) := by
  refine ⟨fun i ht => Line.noConfusion ht, fun y hy c => Function.update_of_ne (fun he => hy ?_) _ _⟩
  rw [Cell.mem.inj he]
  exact h

/-- Away from the lines aside the kept stores are all the stores. -/
theorem memImage_kept_store {st : Store} {v : Cell → ℕ} {x : ℕ}
    (hx : Line.mem (cacheLine x) ∉ Aside table) :
    memImage (viewAfter lineOf (kept table (storeEvents st.addr st.bytes)) v) x =
      storeBytes st.addr st.bytes (memImage v) x := by
  classical
  rw [← memImage_storeEvents]
  exact viewAfter_project v hx

/-- **A store.** -/
theorem Mirrors.store {st : Store} (h : Mirrors table v0 es log mem seen)
    (hg : ∀ i < st.bytes.length, Line.mem (cacheLine (st.addr + i)) ∈ Aside table ∨
      ∃ r ∈ seen, r.1 ≤ st.addr + i ∧ st.addr + i < r.1 + r.2) :
    Mirrors table v0 (es ++ kept table ((Access.store st).events log mem)) log ((Access.store st).mem mem)
      seen := by
  have happ : ∀ ev ∈ kept table ((Access.store st).events log mem),
      ∃ x b, ev = .store (.mem x) b ∧ undoJournal.Logged log x :=
    fun ev hev => appEvent_kept h hg hev
  refine ⟨h.traced.app fun ev hev => ?_, fun x hx => ?_, h.seen, fun ev hev n ht => ?_, h.managed⟩
  · obtain ⟨x, b, rfl, hl⟩ := happ ev hev
    exact appEvent_of_logged hl
  · rw [viewAfter_append, Access.events, memImage_kept_store hx]
    unfold Access.mem storeBytes
    rw [h.mem x hx]
  · rcases List.mem_append.mp hev with hev | hev
    · exact h.touched ev hev n ht
    · obtain ⟨x, b, rfl, e, he, hkey⟩ := happ ev hev
      refine ⟨e, he, ?_⟩
      have hline : cacheLine x = n := Line.mem.inj ht
      have haddr : e.addr = blkStart x := hkey
      rw [← hline, haddr]
      unfold cacheLine blkStart
      omega

/-- **A crash between the stores**, or in a call. -/
theorem Mirrors.crash_store {st : Store} {full : List Entry} (h : Mirrors table v0 es log mem seen)
    (hg : ∀ i < st.bytes.length, Line.mem (cacheLine (st.addr + i)) ∈ Aside table ∨
      ∃ r ∈ seen, r.1 ≤ st.addr + i ∧ st.addr + i < r.1 + r.2) (hf : log <+: full) {q : List Event}
    (hq : q <+: kept table ((Access.store st).events log mem)) : Nonempty (CrashAt v0 (es ++ q) full) := by
  have ht : Traced v0 (es ++ q) log := h.traced.app fun ev hev => by
    obtain ⟨x, b, rfl, hl⟩ := appEvent_kept h hg (hq.subset hev)
    exact appEvent_of_logged hl
  exact ⟨ht.crashAt hf⟩

theorem Mirrors.crash_record {full : List Entry} (h : Mirrors table v0 es log mem seen) (hs : 0 < size)
    (hin : ∀ i < size, addr + i ∈ regionPts table)
    (hf : (Access.record addr size).log log mem <+: full) {q : List Event}
    (hq : q <+: kept table ((Access.record addr size).events log mem)) :
    Nonempty (CrashAt v0 (es ++ q) full) := by
  have hlog : (Access.record addr size).log log mem =
      log ++ Persimmon.saves es v0 (blocks addr size) := by
    rw [Access.log, undoLogRecord_empty hs, h.saves hs hin]
  rw [Access.events, recordEvents_empty hs, kept_record, h.saves hs hin] at hq
  rcases prefix_append_iff.mp hq with hpart | ⟨r, rfl, hr⟩
  · exact ⟨⟨es, q, log, blocks addr size, rfl, h.traced, hpart, fun p hp => blocks_mod hp, hlog ▸ hf⟩⟩
  · rcases List.prefix_cons_iff.mp hr with rfl | ⟨r', rfl, hr'⟩
    · rw [List.append_nil]
      exact ⟨⟨es, _, log, blocks addr size, rfl, h.traced, List.prefix_rfl,
        fun p hp => blocks_mod hp, hlog ▸ hf⟩⟩
    · obtain rfl := List.prefix_nil.mp hr'
      have hrec := (h.record hs hin).traced
      rw [Access.events, recordEvents_empty hs, kept_record, h.saves hs hin] at hrec
      exact ⟨hrec.crashAt hf⟩

/-- The log only grows. -/
theorem prefix_accessLog (log : List Entry) (mem : ℕ → ℕ) (cs : List Access) :
    log <+: accessLog log mem cs := by
  induction cs generalizing log mem with
  | nil => exact List.prefix_rfl
  | cons c cs ih =>
      refine List.IsPrefix.trans ?_ (ih _ _)
      cases c with
      | record addr size =>
          rw [Access.log, undoLogRecord]
          split
          · exact List.prefix_rfl
          · exact List.prefix_append _ _
      | store st => exact List.prefix_rfl

/-- **The run at its end.** -/
theorem mirrors_accesses {cs : List Access} (h : Mirrors table v0 es log mem seen)
    (hg : Guarded table seen cs) :
    ∃ seen', Mirrors table v0 (es ++ kept table (accessEvents log mem cs)) (accessLog log mem cs)
      (accessMem mem cs) seen' := by
  induction cs generalizing es log mem seen with
  | nil =>
      have hnil : es ++ kept table (accessEvents log mem []) = es := by simp [accessEvents, kept]
      rw [hnil]
      exact ⟨seen, h⟩
  | cons c cs ih =>
      rw [accessEvents, kept_append, ← List.append_assoc]
      cases c with
      | record addr size =>
          obtain ⟨hs, hin, hrest⟩ := hg
          exact ih (h.record hs hin) hrest
      | store st =>
          obtain ⟨hst, hrest⟩ := hg
          exact ih (h.store hst) hrest

/-- **Every crash point of the run.** -/
theorem crashAt_accesses {cs : List Access} {full : List Entry} (h : Mirrors table v0 es log mem seen)
    (hg : Guarded table seen cs) (hf : accessLog log mem cs <+: full) {q : List Event}
    (hq : q <+: kept table (accessEvents log mem cs)) : Nonempty (CrashAt v0 (es ++ q) full) := by
  induction cs generalizing es log mem seen q with
  | nil =>
      obtain rfl : q = [] := List.prefix_nil.mp (by simpa [accessEvents, kept] using hq)
      rw [List.append_nil]
      exact ⟨h.traced.crashAt hf⟩
  | cons c cs ih =>
      have hlog : c.log log mem <+: full := (prefix_accessLog _ _ cs).trans hf
      rw [accessEvents, kept_append] at hq
      rcases prefix_append_iff.mp hq with hq | ⟨r, rfl, hr⟩
      · cases c with
        | record addr size =>
            obtain ⟨hs, hin, -⟩ := hg
            exact h.crash_record hs hin hlog hq
        | store st => exact h.crash_store hg.1 hlog hq
      · rw [← List.append_assoc]
        cases c with
        | record addr size =>
            obtain ⟨hs, hin, hrest⟩ := hg
            exact ih (h.record hs hin) hrest hf hr
        | store st => exact ih (h.store hg.1) hg.2 hf hr

end Mirrors

/-! ## 3. The request for a commit -/

/-- What `undo_log_record` returns. -/
def Access.shouldCommit (log : List Entry) (mem : ℕ → ℕ) : Access → Bool
  | .record addr size => (undoLogRecord Ranges.empty mem log addr size).2
  | .store _ => false

/-- `instrument_args.should_commit` behind a run: it is set, and never reset before the commit. -/
def shouldCommit : Bool → List Entry → (ℕ → ℕ) → List Access → Bool
  | should, _, _, [] => should
  | should, log, mem, c :: cs =>
      shouldCommit (should || c.shouldCommit log mem) (c.log log mem) (c.mem mem) cs

/-- **A commit has been asked for exactly when the log exceeds the threshold**, from any point on at
    which this is so. -/
theorem shouldCommit_iff {should : Bool} {log : List Entry} {mem : ℕ → ℕ} {cs : List Access}
    (h : should = true ↔ commitThreshold < log.length) :
    shouldCommit should log mem cs = true ↔ commitThreshold < (accessLog log mem cs).length := by
  induction cs generalizing should log mem with
  | nil => exact h
  | cons c cs ih =>
      refine ih ?_
      cases c with
      | store st => simpa [Access.shouldCommit, Access.log] using h
      | record addr size =>
          rw [Access.shouldCommit, Access.log, undoLogRecord]
          split
          · simpa using h
          · simp only [Bool.or_eq_true, decide_eq_true_eq, h, List.length_append]
            omega

/-! ## 4. Recovery -/

section Recovery

variable {manages : ℕ → Bool} {v w : Cell → ℕ}

/-- Recovery looks at the log first, and at a byte of memory only for what it leaves there. -/
theorem recoverImage_congr {log : ℕ → Entry} {m : ℕ → ℕ} {r : Option ℕ}
    (hlog : logImage v = logImage w) (h : recoverImage manages v = some (log, m, r)) :
    ∃ m', recoverImage manages w = some (log, m', r) ∧
      ∀ x, memImage v x = memImage w x → m' x = m x := by
  obtain ⟨n, hinit, h⟩ := Option.bind_eq_some_iff.mp h
  obtain ⟨⟨m0, r0⟩, hrec, heq⟩ := Option.map_eq_some_iff.mp h
  cases heq
  unfold recoverImage
  rw [← hlog, hinit, Option.bind_some]
  unfold undoLogRecover at hrec ⊢
  split at hrec
  · rename_i tail hfound
    cases hrec
    exact ⟨memImage w, rfl, fun x hx => hx.symm⟩
  · rename_i hfound
    obtain ⟨m1, hback, heq⟩ := Option.map_eq_some_iff.mp hrec
    cases heq
    have happ := applyBack_isSome hback
    rw [applyBack_eq happ] at hback
    simp only [applyBack_eq happ, Option.map_some]
    refine ⟨_, rfl, fun x hx => ?_⟩
    rw [← Option.some.inj hback]
    generalize (List.range n).map (logImage v) = es
    induction es with
    | nil => exact hx.symm
    | cons e es ih =>
        simp only [List.foldr_cons, memcpyBlk]
        rw [ih]

end Recovery

section Atomic

variable {v0 : Cell → ℕ} {cs : List Access} {tail : ℕ} {part : List Event} {s : Machine}

/-- The events of a run and of the commit behind it. -/
def accessCommitted (v0 : Cell → ℕ) (cs : List Access) (tail : ℕ) : List Event :=
  accessEvents [] (memImage v0) cs ++
    commitEvents Ranges.empty (accessLog [] (memImage v0) cs) tail

theorem Mirrors.start (table : List Region) (hnull : ∀ i, (logImage v0 i).isNull = true) :
    Mirrors table v0 [] [] (memImage v0) [] where
  traced := Traced.nil hnull
  mem _ _ := rfl
  seen _ hr := absurd hr List.not_mem_nil
  touched _ hev := absurd hev List.not_mem_nil
  managed _ he := absurd he List.not_mem_nil

/-- Behind the flushes every line the kept events have stored to is durable. -/
theorem durable_accesses {table : List Region} {es : List Event} {log : List Entry} {mem : ℕ → ℕ}
    {seen : List (ℕ × ℕ)} (h : Mirrors table v0 es log mem seen) (m : ℕ) :
    Durable lineOf () (es ++ flushEvents Ranges.empty log) (.mem m) := by
  by_cases hm : ∃ e ∈ log, cacheLine e.addr = m
  · exact durable_flushEvents es hm
  · refine Or.inl fun ev hev ht => ?_
    rcases List.mem_append.mp hev with hev | hev
    · exact hm (h.touched ev hev m ht)
    · exact not_touches_flushEvents hev _ ht

/-- The events of a commit are kept. -/
theorem kept_flushEvents {table : List Region} (log : List Entry) :
    kept table (flushEvents Ranges.empty log) = flushEvents Ranges.empty log :=
  kept_of_touches fun _ hev l ht => absurd ht (not_touches_flushEvents hev l)

theorem kept_commitRecord {table : List Region} (n tail : ℕ) :
    kept table (commitRecordEvents n tail) = commitRecordEvents n tail := by
  refine kept_of_touches fun ev hev l ht => ?_
  cases l with
  | log i => exact ⟨i, rfl⟩
  | mem m => exact absurd ht (touches_commitRecord_mem hev)

/-- **Recovery of a run without its stores aside**, from any point of it. -/
theorem kept_atomic {table : List Region} {manages : ℕ → Bool}
    (ht : Tiled table) (hman : ∀ x ∈ regionPts table, manages x = true)
    (hnull : ∀ i, (logImage v0 i).isNull = true) (hg : Guarded table [] cs)
    (hlen : (accessLog [] (memImage v0) cs).length + 1 < undoNumEntries) {q : List Event}
    (hq : q <+: kept table (accessCommitted v0 cs tail)) (hs : Exec lineOf (Memory.start v0) q s) :
    ∃ log m r, recoverImage manages s.pm = some (log, m, r) ∧
      ((r = none ∧ q ≠ kept table (accessCommitted v0 cs tail) ∧ ∀ x, m x = memImage v0 x) ∨
        (r = some tail ∧ ∀ x ∈ regionPts table, m x = accessMem (memImage v0) cs x)) := by
  obtain ⟨seen, hend⟩ := mirrors_accesses (Mirrors.start table hnull) hg
  rw [List.nil_append] at hend
  generalize hL : accessLog [] (memImage v0) cs = L at *
  have hfull : ∀ e ∈ L, e.addr ≠ 0 ∧ manages e.addr = true := fun e he => by
    obtain ⟨x, ⟨r, hr, hx⟩, haddr⟩ := hend.managed e he
    have hpos := (ht.pos r hr).1
    have hal := ht.aligned r hr
    have hin : blkStart x ∈ r.pts := by
      rw [Region.mem_pts] at hx ⊢
      unfold blkStart
      omega
    rw [haddr]
    refine ⟨?_, hman _ ⟨r, hr, hin⟩⟩
    rw [Region.mem_pts] at hin
    omega
  have hwhole : kept table (accessCommitted v0 cs tail) =
      (kept table (accessEvents [] (memImage v0) cs) ++ flushEvents Ranges.empty L) ++
        commitRecordEvents L.length tail := by
    rw [accessCommitted, hL, commitEvents, kept_append, kept_append, kept_flushEvents,
      kept_commitRecord, List.append_assoc]
  rw [hwhole] at hq ⊢
  have hflush : Traced v0 (kept table (accessEvents [] (memImage v0) cs) ++ flushEvents Ranges.empty L)
      L := hend.traced.app fun ev hev => appEvent_flushEvents hev
  rcases prefix_append_iff.mp hq with hbefore | ⟨r, rfl, hr⟩
  · -- before the commit record
    have hne : q ≠ (kept table (accessEvents [] (memImage v0) cs) ++ flushEvents Ranges.empty L) ++
        commitRecordEvents L.length tail := fun heq => by
      have hle := hbefore.length_le
      rw [heq, List.length_append] at hle
      exact absurd hle (by simp [commitRecordEvents])
    have hc : Nonempty (CrashAt v0 q L) := by
      rcases prefix_append_iff.mp hbefore with hq' | ⟨r, rfl, hr⟩
      · exact crashAt_accesses (Mirrors.start table hnull) hg (hL ▸ List.prefix_rfl) hq'
      · have hpart : Traced v0 (kept table (accessEvents [] (memImage v0) cs) ++ r) L :=
          hend.traced.app fun ev hev => appEvent_flushEvents (hr.subset hev)
        exact ⟨hpart.crashAt List.prefix_rfl⟩
    obtain ⟨c⟩ := hc
    obtain ⟨log, m, hrec, hm⟩ : ∃ log m, recoverImage manages s.pm = some (log, m, none) ∧
        ∀ x, m x = memImage v0 x := CrashAt.rollback c (Synced.start v0) hs hfull (by omega)
    exact ⟨log, m, none, hrec, Or.inl ⟨rfl, hne, hm⟩⟩
  · have hsync : ∀ l, Synced lineOf (Memory.start v0 : Machine) l := Synced.start v0
    have hflush' : Traced (Memory.start v0 : Machine).cache _ L := hflush
    rcases crash_commitRecord hflush' (durable_accesses hend) hsync hfull hlen hr hs with
      ⟨hne, hu⟩ | hc
    · obtain ⟨log, hrec, -⟩ := hu.recoverImage
      exact ⟨log, _, none, hrec, Or.inl ⟨rfl, fun heq => hne (List.append_cancel_left heq),
        fun x => rfl⟩⟩
    · obtain ⟨log, hrec, -⟩ := hc.recoverImage
      refine ⟨log, _, some tail, hrec, Or.inr ⟨rfl, fun x hx => ?_⟩⟩
      rw [viewAfter_append]
      have hsame : memImage (viewAfter lineOf (flushEvents Ranges.empty L)
          (viewAfter lineOf (kept table (accessEvents [] (memImage v0) cs)) v0)) x =
          memImage (viewAfter lineOf (kept table (accessEvents [] (memImage v0) cs)) v0) x :=
        memImage_of_not_touches fun ev hev => not_touches_flushEvents hev _
      exact hsame.trans (hend.mem x (not_aside hx))

/-- **Recovery from any point of a run and its commit**: the managed memory is that of the beginning,
    or, if a tail is returned, that of the end; it is that of the end once the commit is over. -/
theorem accesses_recover {d : Files} {t : Tables} {mrm : Manager} (ht : Tiled t.table)
    (hrec : Manager.new.recover d t = some mrm) (hnull : ∀ i, (logImage v0 i).isNull = true)
    (hg : Guarded t.table [] cs)
    (hlen : (accessLog [] (memImage v0) cs).length + 1 < undoNumEntries)
    (hp : part <+: accessCommitted v0 cs tail) (hs : Exec lineOf (Memory.start v0) part s) :
    ∃ log m r, recoverImage mrm.doesManage s.pm = some (log, m, r) ∧
      ((r = none ∧ part ≠ accessCommitted v0 cs tail ∧ ∀ x ∈ regionPts t.table, m x = memImage v0 x) ∨
        (r = some tail ∧ ∀ x ∈ regionPts t.table, m x = accessMem (memImage v0) cs x)) := by
  classical
  obtain ⟨s', hs', -, hcells⟩ : ∃ s' : Machine, Exec lineOf (Memory.start v0) (kept t.table part) s' ∧
      s'.pending = s.pending ∧ ∀ a, lineOf a ∉ Aside t.table →
        s'.cache a = s.cache a ∧ s'.pm a = s.pm a := exec_project hs
  obtain ⟨log, m, r, hrun, hcases⟩ := kept_atomic ht (recover_manages ht hrec) hnull hg hlen
    (kept_mono hp) hs'
  have hlog : logImage s'.pm = logImage s.pm := by
    refine funext fun i => ?_
    simp only [logImage, Entry.mk.injEq]
    exact ⟨funext fun j => (hcells (.blk i j) (log_not_aside i)).2,
      (hcells (.addr i) (log_not_aside i)).2, (hcells (.commitTail i) (log_not_aside i)).2⟩
  obtain ⟨m', hrun', hm'⟩ := recoverImage_congr hlog hrun
  have hsame : ∀ x ∈ regionPts t.table, m' x = m x := fun x hx =>
    hm' x (hcells (.mem x) (not_aside hx)).2
  refine ⟨log, m', r, hrun', ?_⟩
  rcases hcases with ⟨hr, hne, hmem⟩ | ⟨hr, hmem⟩
  · exact Or.inl ⟨hr, fun heq => hne (heq ▸ rfl), fun x hx => (hsame x hx).trans (hmem x)⟩
  · exact Or.inr ⟨hr, fun x hx => (hsame x hx).trans (hmem x hx)⟩

end Atomic

end Persimmon
