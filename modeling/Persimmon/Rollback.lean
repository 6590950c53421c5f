/-
  File:      Persimmon/Rollback.lean
  Subject:   ROLLBACK RESTORES THE LAST COMMITTED MEMORY, from a crash at any point before the commit
             record (src/undo/undo_log.h: `undo_log_record`, `undo_log_init`, `undo_log_recover`).

  The run is a list of instrumented stores; the crash cuts its events anywhere and the hardware
  has written back any lines at any moments.

  * `Store`, `storesEvents`, `storesLog` -- the run and the log it builds;
  * `Traced` -- what holds at every point between two calls: the log's entries are durable, blocks
    outside the log are untouched in every prefix, and replaying the log gives the committed
    memory. `Traced.record`, `Traced.app` -- the two steps that keep it;
  * `CrashAt` -- a crash point: a traced run and part of one more record;
  * `CrashAt.rollback` -- recovery from such a point.
-/
import Persimmon.LogTrace
import Persimmon.MemRegion

namespace Persimmon

open PersistentMemory UndoReplay

/-- An instrumented store. -/
structure Store where
  addr : ℕ
  bytes : List ℕ

/-! ## 1. The run -/

/-- The log after one more store: the fresh set is empty while no region is allocated. -/
def recorded (log : List Entry) (mem : ℕ → ℕ) (st : Store) : List Entry :=
  (undoLogRecord Ranges.empty mem log st.addr st.bytes.length).1

/-- `undo_log_record` and the store, for every store in turn. -/
def storesEvents : List Entry → (ℕ → ℕ) → List Store → List Event
  | _, _, [] => []
  | log, mem, st :: sts =>
      recordEvents Ranges.empty mem log.length st.addr st.bytes.length ++
        storeEvents st.addr st.bytes ++
          storesEvents (recorded log mem st) (storeBytes st.addr st.bytes mem) sts

/-- The log the stores leave. -/
def storesLog : List Entry → (ℕ → ℕ) → List Store → List Entry
  | log, _, [] => log
  | log, mem, st :: sts => storesLog (recorded log mem st) (storeBytes st.addr st.bytes mem) sts

/-- The memory the stores leave. -/
def storesMem (mem : ℕ → ℕ) (sts : List Store) : ℕ → ℕ :=
  sts.foldl (fun m st => storeBytes st.addr st.bytes m) mem

/-- The blocks a record adds to the log: none for an empty store. -/
def newBlocks (st : Store) : List ℕ :=
  if st.bytes = [] then [] else blocks st.addr st.bytes.length

theorem find_empty (addr size : ℕ) : Ranges.empty.find addr size = decide (size = 0) := by
  by_cases h : size = 0 <;> simp [Ranges.find, Ranges.empty, h]

theorem recorded_eq (log : List Entry) (mem : ℕ → ℕ) (st : Store) :
    recorded log mem st = log ++ (newBlocks st).map (Entry.save mem) := by
  unfold recorded undoLogRecord newBlocks
  rw [find_empty]
  by_cases h : st.bytes = []
  · simp [h]
  · simp [h]

theorem recordEvents_eq (mem : ℕ → ℕ) (n : ℕ) (st : Store) :
    recordEvents Ranges.empty mem n st.addr st.bytes.length =
      if st.bytes = [] then []
      else recordFrom n ((newBlocks st).map (Entry.save mem)) ++ [.drain ()] := by
  unfold recordEvents newBlocks
  rw [find_empty]
  by_cases h : st.bytes = []
  · simp [h]
  · simp [h]

theorem newBlocks_mod {st : Store} {q : ℕ} (h : q ∈ newBlocks st) : q % 32 = 0 := by
  unfold newBlocks at h
  split at h
  · exact absurd h List.not_mem_nil
  · exact blocks_mod h

theorem prefix_storesLog (log : List Entry) (mem : ℕ → ℕ) (sts : List Store) :
    log <+: storesLog log mem sts := by
  induction sts generalizing log mem with
  | nil => exact List.prefix_rfl
  | cons st sts ih =>
      refine List.IsPrefix.trans ?_ (ih (recorded log mem st) _)
      rw [recorded_eq]
      exact List.prefix_append _ _

/-- Every entry of the log saves a block of one of the stores. -/
theorem mem_storesLog {log : List Entry} {mem : ℕ → ℕ} {sts : List Store} {e : Entry}
    (h : e ∈ storesLog log mem sts) :
    e ∈ log ∨ ∃ st ∈ sts, ∃ q ∈ newBlocks st, e.addr = q ∧ e.commitTail = 0 := by
  induction sts generalizing log mem with
  | nil => exact Or.inl h
  | cons st sts ih =>
      rcases ih h with h | ⟨st', hst', q, hq, hsave⟩
      · rw [recorded_eq, List.mem_append, List.mem_map] at h
        rcases h with h | ⟨q, hq, hsave⟩
        · exact Or.inl h
        · exact Or.inr ⟨st, List.mem_cons_self, q, hq, by rw [← hsave]; exact ⟨rfl, rfl⟩⟩
      · exact Or.inr ⟨st', List.mem_cons_of_mem _ hst', q, hq, hsave⟩

/-! ## 2. What holds between two calls -/

/-- **A run that has come to the end of a call**, from a memory with contents `v0`, with the log
    `log`. -/
structure Traced (v0 : Cell → ℕ) (es : List Event) (log : List Entry) : Prop where
  durable : ∀ i, Durable lineOf () es (.log i)
  entries : ∀ i (h : i < log.length), logImage (viewAfter lineOf es v0) i = log[i]
  beyond : ∀ p, p <+: es → ∀ i, log.length ≤ i →
    (logImage (viewAfter lineOf p v0) i).isNull = true
  unlogged : ∀ p, p <+: es → ∀ x, ¬ undoJournal.Logged log x →
    memImage (viewAfter lineOf p v0) x = memImage v0 x
  replay : ∀ x, undoJournal.replay log (memImage (viewAfter lineOf es v0)) x = memImage v0 x
  proper : ∀ e ∈ log, e.addr % 32 = 0 ∧ e.commitTail = 0

section Traced

variable {v0 : Cell → ℕ} {es : List Event} {log : List Entry}

theorem Traced.nil (hnull : ∀ i, (logImage v0 i).isNull = true) : Traced v0 [] [] where
  durable _ := Durable.nil
  entries i h := absurd h (Nat.not_lt_zero i)
  beyond p hp i _ := by
    obtain rfl := List.prefix_nil.mp hp
    exact hnull i
  unlogged p hp x _ := by
    obtain rfl := List.prefix_nil.mp hp
    rfl
  replay _ := rfl
  proper e he := absurd he List.not_mem_nil

/-- An event of the application or of a commit before its record: it stores to no entry, and to
    memory only where the log has the block. -/
def AppEvent (log : List Entry) (ev : Event) : Prop :=
  (∀ i, ¬ ev.Touches lineOf (.log i)) ∧
    ∀ x, ¬ undoJournal.Logged log x → ∀ c, ev.view lineOf c (.mem x) = c (.mem x)

theorem memImage_app {p : List Event} (hp : ∀ ev ∈ p, AppEvent log ev) {x : ℕ}
    (hx : ¬ undoJournal.Logged log x) (v : Cell → ℕ) :
    memImage (viewAfter lineOf p v) x = memImage v x := by
  induction p generalizing v with
  | nil => rfl
  | cons ev p ih =>
      rw [viewAfter_cons, ih fun ev' h => hp ev' (List.mem_cons_of_mem _ h)]
      exact (hp ev List.mem_cons_self).2 x hx v

/-- **The application's stores, the log having their blocks.** -/
theorem Traced.app {p : List Event} (h : Traced v0 es log) (hp : ∀ ev ∈ p, AppEvent log ev) :
    Traced v0 (es ++ p) log where
  durable i := (h.durable i).append fun ev hev => (hp ev hev).1 i
  entries i hi := by
    rw [viewAfter_append, logImage_of_not_touches fun ev hev => (hp ev hev).1 i]
    exact h.entries i hi
  beyond q hq i hi := by
    rcases prefix_append_iff.mp hq with hq | ⟨r, rfl, hr⟩
    · exact h.beyond q hq i hi
    · rw [viewAfter_append, logImage_of_not_touches fun ev hev => (hp ev (hr.subset hev)).1 i]
      exact h.beyond es List.prefix_rfl i hi
  unlogged q hq x hx := by
    rcases prefix_append_iff.mp hq with hq | ⟨r, rfl, hr⟩
    · exact h.unlogged q hq x hx
    · rw [viewAfter_append, memImage_app (fun ev hev => hp ev (hr.subset hev)) hx]
      exact h.unlogged es List.prefix_rfl x hx
  replay x := by
    rw [← h.replay x]
    refine Journal.replay_congr ?_
    by_cases hx : undoJournal.Logged log x
    · exact Or.inl hx
    · rw [viewAfter_append]
      exact Or.inr (memImage_app hp hx _)
  proper := h.proper

/-- The entries a record adds: the present contents of some blocks. -/
def saves (es : List Event) (v0 : Cell → ℕ) (ps : List ℕ) : List Entry :=
  ps.map (Entry.save (memImage (viewAfter lineOf es v0)))

theorem memImage_recordFrom (k : ℕ) (new : List Entry) {q : List Event}
    (hq : q <+: recordFrom k new ++ [.drain ()]) (v : Cell → ℕ) (x : ℕ) :
    memImage (viewAfter lineOf q v) x = memImage v x := by
  refine memImage_of_not_touches fun ev hev ht => ?_
  rcases List.mem_append.mp (hq.subset hev) with hev | hev
  · obtain ⟨i, -, -, hl⟩ := touches_recordFrom hev ht
    cases hl
  · obtain rfl := List.mem_singleton.mp hev
    exact ht

/-- **A whole `undo_log_record`**: the blocks `ps` are saved, flushed and drained. -/
theorem Traced.record {ps : List ℕ} (h : Traced v0 es log) (hps : ∀ p ∈ ps, p % 32 = 0) :
    Traced v0 (es ++ (recordFrom log.length (saves es v0 ps) ++ [.drain ()]))
      (log ++ saves es v0 ps) := by
  have htouch : ∀ i, i < log.length ∨ log.length + (saves es v0 ps).length ≤ i →
      ∀ ev ∈ recordFrom log.length (saves es v0 ps) ++ [Ev.drain ()],
        ¬ ev.Touches lineOf (.log i) := by
    intro i hi ev hev ht
    rcases List.mem_append.mp hev with hev | hev
    · obtain ⟨j, h1, h2, hl⟩ := touches_recordFrom hev ht
      have := Line.log.inj hl
      omega
    · obtain rfl := List.mem_singleton.mp hev
      exact ht
  refine ⟨fun i => ?_, fun i hi => ?_, fun q hq i hi => ?_, fun q hq x hx => ?_, fun x => ?_,
    fun e he => ?_⟩
  · by_cases hi : log.length ≤ i ∧ i < log.length + (saves es v0 ps).length
    · obtain ⟨p, q, hpq, hq⟩ := recordFrom_split hi.1 hi.2
      have hes : es ++ (recordFrom log.length (saves es v0 ps) ++ [.drain ()]) =
          (es ++ p) ++ .flush () (.log i) :: (q ++ [.drain ()]) := by
        rw [hpq]
        simp
      rw [hes]
      exact Durable.of_drain ⟨rfl, rfl⟩ hq
    · exact (h.durable i).append (htouch i (by omega))
  · rw [viewAfter_append]
    by_cases hlt : i < log.length
    · rw [logImage_of_not_touches (htouch i (Or.inl hlt)), List.getElem_append_left hlt]
      exact h.entries i hlt
    · rw [List.length_append] at hi
      rw [List.getElem_append_right (by omega), viewAfter_append,
        logImage_of_not_touches fun ev hev => List.mem_singleton.mp hev ▸ id]
      have hrec := logImage_recordFrom (k := log.length) (v := viewAfter lineOf es v0)
        (show i - log.length < (saves es v0 ps).length by omega)
      rwa [Nat.add_sub_cancel' (by omega)] at hrec
  · rw [List.length_append] at hi
    rcases prefix_append_iff.mp hq with hq | ⟨r, rfl, hr⟩
    · exact h.beyond q hq i (by omega)
    · rw [viewAfter_append, logImage_of_not_touches fun ev hev =>
        htouch i (Or.inr hi) ev (hr.subset hev)]
      exact h.beyond es List.prefix_rfl i (by omega)
  · have hx' : ¬ undoJournal.Logged log x := fun hl => hx (Journal.logged_append.mpr (Or.inl hl))
    rcases prefix_append_iff.mp hq with hq | ⟨r, rfl, hr⟩
    · exact h.unlogged q hq x hx'
    · rw [viewAfter_append, memImage_recordFrom _ _ hr]
      exact h.unlogged es List.prefix_rfl x hx'
  · rw [viewAfter_append]
    have hmem : memImage (viewAfter lineOf (recordFrom log.length (saves es v0 ps) ++ [.drain ()])
        (viewAfter lineOf es v0)) = memImage (viewAfter lineOf es v0) :=
      funext fun y => memImage_recordFrom _ _ List.prefix_rfl _ y
    rw [hmem, saves, replay_save hps]
    exact h.replay x
  · rcases List.mem_append.mp he with he | he
    · exact h.proper e he
    · obtain ⟨p, hp, rfl⟩ := List.mem_map.mp he
      exact ⟨hps p hp, rfl⟩

end Traced

/-! ## 3. Crash points -/

/-- **A crash point**: calls that have come to their end, and part of one record more. `full` is the
    log the whole run builds. -/
structure CrashAt (v0 : Cell → ℕ) (es : List Event) (full : List Entry) where
  done : List Event
  part : List Event
  log : List Entry
  ps : List ℕ
  cut : es = done ++ part
  traced : Traced v0 done log
  partial_ : part <+: recordFrom log.length (saves done v0 ps)
  aligned : ∀ p ∈ ps, p % 32 = 0
  inFull : log ++ saves done v0 ps <+: full

section CrashAt

variable {v0 : Cell → ℕ} {es : List Event} {log : List Entry}

/-- A crash between two calls. -/
def Traced.crashAt (h : Traced v0 es log) {full : List Entry} (hf : log <+: full) :
    CrashAt v0 es full where
  done := es
  part := []
  log := log
  ps := []
  cut := (List.append_nil es).symm
  traced := h
  partial_ := List.nil_prefix
  aligned p hp := absurd hp List.not_mem_nil
  inFull := by simpa [saves] using hf

/-- `undo_log_record` for a store. -/
theorem Traced.recorded (h : Traced v0 es log) (st : Store) :
    Traced v0 (es ++ recordEvents Ranges.empty (memImage (viewAfter lineOf es v0)) log.length st.addr
      st.bytes.length) (recorded log (memImage (viewAfter lineOf es v0)) st) := by
  rw [recordEvents_eq, recorded_eq]
  by_cases hb : st.bytes = []
  · simpa [hb, newBlocks] using h
  · rw [if_neg hb]
    exact h.record fun p hp => newBlocks_mod hp

/-- The stored bytes lie in blocks that have just been recorded. -/
theorem appEvent_storeEvents {mem : ℕ → ℕ} {st : Store} {ev : Event}
    (h : ev ∈ storeEvents st.addr st.bytes) : AppEvent (Persimmon.recorded log mem st) ev := by
  obtain ⟨i, hi, rfl⟩ := List.mem_map.mp h
  rw [List.mem_range] at hi
  refine ⟨fun j ht => Line.noConfusion ht, fun x hx c => ?_⟩
  refine Function.update_of_ne (fun he => hx ?_) _ _
  have hxe : x = st.addr + i := Cell.mem.inj he
  have hne : st.bytes ≠ [] := fun hnil => by simp [hnil] at hi
  rw [recorded_eq, Journal.logged_append]
  refine Or.inr (logged_save.mpr ?_)
  rw [newBlocks, if_neg hne, hxe]
  exact blkStart_mem_blocks (by omega) (by omega)

theorem Traced.stored (h : Traced v0 es log) (st : Store) {p : List Event}
    (hp : p <+: storeEvents st.addr st.bytes) :
    Traced v0 (es ++ recordEvents Ranges.empty (memImage (viewAfter lineOf es v0)) log.length st.addr
      st.bytes.length ++ p) (Persimmon.recorded log (memImage (viewAfter lineOf es v0)) st) :=
  (h.recorded st).app fun _ hev => appEvent_storeEvents (hp.subset hev)

/-- The memory after a record and its store. -/
theorem memImage_stored (n : ℕ) (st : Store) (v : Cell → ℕ) :
    memImage (viewAfter lineOf (recordEvents Ranges.empty (memImage v) n st.addr st.bytes.length ++
      storeEvents st.addr st.bytes) v) = storeBytes st.addr st.bytes (memImage v) := by
  rw [viewAfter_append, memImage_storeEvents]
  congr 1
  rw [recordEvents_eq]
  split
  · rfl
  · exact funext fun x => memImage_recordFrom _ _ List.prefix_rfl v x

/-- A crash point of a run of stores `sts` that began after the events `es`: the record in progress,
    if there is one, is that of one of the stores. -/
def CrashAt.InRun {full : List Entry} {es' : List Event} (c : CrashAt v0 es' full) (es : List Event)
    (log : List Entry) (mem : ℕ → ℕ) (sts : List Store) : Prop :=
  c.ps = [] ∨ ∃ sts₁ st sts₂, sts = sts₁ ++ st :: sts₂ ∧ c.done = es ++ storesEvents log mem sts₁ ∧
    c.log = storesLog log mem sts₁ ∧ c.ps = newBlocks st

theorem crashAt_record (h : Traced v0 es log) (st : Store) {p : List Event}
    (hp : p <+: recordEvents Ranges.empty (memImage (viewAfter lineOf es v0)) log.length st.addr
      st.bytes.length) {full : List Entry}
    (hf : Persimmon.recorded log (memImage (viewAfter lineOf es v0)) st <+: full) :
    ∃ c : CrashAt v0 (es ++ p) full, c.ps = [] ∨ c.done = es ∧ c.log = log ∧ c.ps = newBlocks st := by
  have hrec := h.recorded st
  rw [recordEvents_eq, recorded_eq] at *
  by_cases hb : st.bytes = []
  · rw [if_pos hb] at hp
    obtain rfl := List.prefix_nil.mp hp
    rw [List.append_nil]
    exact ⟨h.crashAt ((List.prefix_append _ _).trans hf), Or.inl rfl⟩
  · rw [if_neg hb] at hp hrec
    rcases prefix_append_iff.mp hp with hp | ⟨q, rfl, hq⟩
    · exact ⟨⟨es, p, log, newBlocks st, rfl, h, hp, fun q hq => newBlocks_mod hq, hf⟩,
        Or.inr ⟨rfl, rfl, rfl⟩⟩
    · rcases List.prefix_cons_iff.mp hq with rfl | ⟨r, rfl, hr⟩
      · rw [List.append_nil]
        exact ⟨⟨es, _, log, newBlocks st, rfl, h, List.prefix_rfl, fun q hq => newBlocks_mod hq,
          hf⟩, Or.inr ⟨rfl, rfl, rfl⟩⟩
      · obtain rfl := List.prefix_nil.mp hr
        exact ⟨hrec.crashAt hf, Or.inl rfl⟩

/-- **Every point of a run of stores is a crash point.** -/
theorem crashAt_stores {sts : List Store} {mem : ℕ → ℕ} {p : List Event} (h : Traced v0 es log)
    (hmem : mem = memImage (viewAfter lineOf es v0)) (hp : p <+: storesEvents log mem sts) :
    ∃ c : CrashAt v0 (es ++ p) (storesLog log mem sts), c.InRun es log mem sts := by
  induction sts generalizing es log mem p with
  | nil =>
      obtain rfl := List.prefix_nil.mp hp
      rw [List.append_nil]
      exact ⟨h.crashAt List.prefix_rfl, Or.inl rfl⟩
  | cons st sts ih =>
      subst hmem
      have hlog := prefix_storesLog
        (Persimmon.recorded log (memImage (viewAfter lineOf es v0)) st)
        (storeBytes st.addr st.bytes (memImage (viewAfter lineOf es v0))) sts
      rcases prefix_append_iff.mp hp with hp | ⟨r, rfl, hr⟩
      · rcases prefix_append_iff.mp hp with hp | ⟨q, rfl, hq⟩
        · obtain ⟨c, hc⟩ := crashAt_record h st hp hlog
          refine ⟨c, hc.imp id fun ⟨h1, h2, h3⟩ => ⟨[], st, sts, rfl, ?_, h2, h3⟩⟩
          rw [h1, storesEvents, List.append_nil]
        · rw [← List.append_assoc]
          exact ⟨(h.stored st hq).crashAt hlog, Or.inl rfl⟩
      · have hmem' : storeBytes st.addr st.bytes (memImage (viewAfter lineOf es v0)) =
            memImage (viewAfter lineOf (es ++ recordEvents Ranges.empty
              (memImage (viewAfter lineOf es v0)) log.length st.addr st.bytes.length ++
              storeEvents st.addr st.bytes) v0) := by
          rw [List.append_assoc, viewAfter_append, memImage_stored]
        rw [← List.append_assoc, ← List.append_assoc]
        obtain ⟨c, hc⟩ := ih (h.stored st List.prefix_rfl) hmem' hr
        refine ⟨c, hc.imp id fun ⟨sts₁, st', sts₂, h1, h2, h3, h4⟩ =>
          ⟨st :: sts₁, st', sts₂, by rw [h1, List.cons_append], ?_, h3, h4⟩⟩
        rw [h2]
        simp only [storesEvents, List.append_assoc]

end CrashAt

/-! ## 4. What is persistent at a crash

The run starts from any machine whose log is persistent and whose cache reads `v0`. -/

section Crash

variable {v0 : Cell → ℕ} {es : List Event} {full : List Entry} {s1 s : Machine}

theorem logImage_of_synced {i : ℕ} (h : Synced lineOf s (.log i)) :
    logImage s.pm i = logImage s.cache i := by
  simp only [logImage, Entry.mk.injEq]
  exact ⟨funext fun j => h (.blk i j) rfl, h (.addr i) rfl, h (.commitTail i) rfl⟩

/-- The persistent entry is the one some prefix of the events leaves. -/
theorem logImage_pm (h1 : ∀ i, Synced lineOf s1 (.log i)) (hs : Exec lineOf s1 es s) (i : ℕ) :
    ∃ p, p <+: es ∧ logImage s.pm i = logImage (viewAfter lineOf p s1.cache) i := by
  obtain ⟨p, hp, h⟩ := exec_prefix hs (h1 i)
  refine ⟨p, hp, ?_⟩
  simp only [logImage, Entry.mk.injEq]
  exact ⟨funext fun j => h (.blk i j) rfl, h (.addr i) rfl, h (.commitTail i) rfl⟩

theorem CrashAt.part_touches (c : CrashAt v0 es full) {i : ℕ} (hi : i < c.log.length) :
    ∀ ev ∈ c.part, ¬ ev.Touches lineOf (.log i) := by
  intro ev hev ht
  obtain ⟨j, h1, -, hl⟩ := touches_recordFrom (c.partial_.subset hev) ht
  have := Line.log.inj hl
  omega

theorem CrashAt.view (c : CrashAt v0 es full) :
    viewAfter lineOf es v0 = viewAfter lineOf c.part (viewAfter lineOf c.done v0) := by
  conv_lhs => rw [c.cut]
  exact viewAfter_append _ _ _

/-- **The entries of finished records are persistent.** -/
theorem CrashAt.pm_entry (c : CrashAt s1.cache es full) (h1 : ∀ i, Synced lineOf s1 (.log i))
    (hs : Exec lineOf s1 es s) {i : ℕ} (hi : i < c.log.length) :
    logImage s.pm i = c.log[i] := by
  have hd : Durable lineOf () es (.log i) := by
    rw [c.cut]
    exact (c.traced.durable i).append (c.part_touches hi)
  rw [logImage_of_synced (exec_synced_of_durable hs (h1 i) hd), exec_cache hs, c.view,
    logImage_of_not_touches (c.part_touches hi)]
  exact c.traced.entries i hi

/-- **Of the record in progress any entries are persistent, each of them complete.** -/
theorem CrashAt.pm_entry_new (c : CrashAt s1.cache es full) (h1 : ∀ i, Synced lineOf s1 (.log i))
    (hs : Exec lineOf s1 es s) {i : ℕ} (hi : c.log.length ≤ i) :
    (logImage s.pm i).isNull = true ∨
      (saves c.done s1.cache c.ps)[i - c.log.length]? = some (logImage s.pm i) := by
  obtain ⟨p, hp, he⟩ := logImage_pm h1 hs i
  rw [he]
  rw [c.cut] at hp
  rcases prefix_append_iff.mp hp with hp | ⟨r, rfl, hr⟩
  · exact Or.inl (c.traced.beyond p hp i hi)
  · rw [viewAfter_append]
    refine isNull_or_eq_of_prefix (fun e he => ?_) (c.traced.beyond _ List.prefix_rfl)
      (hr.trans c.partial_) hi
    obtain ⟨q, -, rfl⟩ := List.mem_map.mp he
    rfl

/-- **Memory outside the logged blocks is as it was**, whatever has been written back. -/
theorem CrashAt.pm_mem (c : CrashAt s1.cache es full)
    (h2 : ∀ n, Synced lineOf s1 (.mem n)) (hs : Exec lineOf s1 es s) {x : ℕ}
    (hx : ¬ undoJournal.Logged c.log x) : memImage s.pm x = memImage s1.cache x := by
  obtain ⟨p, hp, h⟩ := exec_prefix hs (h2 (cacheLine x))
  have he : memImage s.pm x = memImage (viewAfter lineOf p s1.cache) x := h (.mem x) rfl
  rw [he]
  rw [c.cut] at hp
  rcases prefix_append_iff.mp hp with hp | ⟨r, rfl, hr⟩
  · exact c.traced.unlogged p hp x hx
  · rw [viewAfter_append, memImage_recordFrom _ _ ((hr.trans c.partial_).trans (List.prefix_append _ _))]
    exact c.traced.unlogged _ List.prefix_rfl x hx

/-- The first null entry of the crash image: past the finished records, and before it only entries
    of the run. -/
theorem CrashAt.exists_len (c : CrashAt s1.cache es full) (h1 : ∀ i, Synced lineOf s1 (.log i))
    (hs : Exec lineOf s1 es s) (haddr : ∀ e ∈ full, e.addr ≠ 0) :
    ∃ n, c.log.length ≤ n ∧ n ≤ full.length ∧ (logImage s.pm n).isNull = true ∧
      (∀ i < n, (logImage s.pm i).isNull = false) ∧
      (List.range n).map (logImage s.pm) =
        c.log ++ (saves c.done s1.cache c.ps).take (n - c.log.length) := by
  have hnonnull : ∀ i, i < c.log.length → (logImage s.pm i).isNull = false := by
    intro i hi
    rw [c.pm_entry h1 hs hi, Bool.eq_false_iff]
    intro hnull
    refine haddr _ (c.inFull.subset ?_) (Entry.isNull_iff.mp hnull).1
    exact List.mem_append_left _ (List.getElem_mem hi)
  have hend : (logImage s.pm (c.log ++ saves c.done s1.cache c.ps).length).isNull = true := by
    rcases c.pm_entry_new h1 hs (i := (c.log ++ saves c.done s1.cache c.ps).length) (by simp) with h | h
    · exact h
    · rw [List.length_append, Nat.add_sub_cancel_left, List.getElem?_eq_none (le_refl _)] at h
      cases h
  classical
  have hex : ∃ n, (logImage s.pm n).isNull = true := ⟨_, hend⟩
  have hmin : ∀ i < Nat.find hex, (logImage s.pm i).isNull = false := fun i hi =>
    Bool.eq_false_iff.mpr (Nat.find_min hex hi)
  have hle : c.log.length ≤ Nat.find hex := by
    by_contra hlt
    have := hnonnull _ (Nat.lt_of_not_le hlt)
    rw [Nat.find_spec hex] at this
    cases this
  have hfull : Nat.find hex ≤ (c.log ++ saves c.done s1.cache c.ps).length := Nat.find_min' hex hend
  refine ⟨Nat.find hex, hle, hfull.trans c.inFull.length_le, Nat.find_spec hex, hmin, ?_⟩
  rw [List.length_append] at hfull
  refine List.ext_getElem (by simp; omega) fun i hi1 hi2 => ?_
  rw [List.length_map, List.length_range] at hi1
  rw [List.getElem_map, List.getElem_range]
  by_cases hi : i < c.log.length
  · rw [List.getElem_append_left hi]
    exact c.pm_entry h1 hs hi
  · rw [List.getElem_append_right (Nat.le_of_not_lt hi), List.getElem_take]
    rcases c.pm_entry_new h1 hs (Nat.le_of_not_lt hi) with h | h
    · rw [hmin i hi1] at h
      cases h
    · exact (List.getElem_of_getElem? h).2.symm

/-- **Recovery from a crash before the commit record**: the log is rolled back, and every byte holds
    what it held when the run began. -/
theorem CrashAt.rollback (c : CrashAt s1.cache es full) (h1 : ∀ l, Synced lineOf s1 l)
    (hs : Exec lineOf s1 es s) {manages : ℕ → Bool}
    (hfull : ∀ e ∈ full, e.addr ≠ 0 ∧ manages e.addr = true) (hlen : full.length < undoNumEntries) :
    ∃ log m, recoverImage manages s.pm = some (log, m, none) ∧ ∀ x, m x = memImage s1.cache x := by
  obtain ⟨n, hn, hnf, hnull, hmin, hmap⟩ := c.exists_len (fun i => h1 _) hs fun e he => (hfull e he).1
  have hmem : ∀ i < n, logImage s.pm i ∈ c.log ++ (saves c.done s1.cache c.ps).take (n - c.log.length) :=
    fun i hi => hmap ▸ List.mem_map_of_mem (List.mem_range.mpr hi)
  have hproper : ∀ e ∈ c.log ++ (saves c.done s1.cache c.ps).take (n - c.log.length),
      e.addr % 32 = 0 ∧ e.commitTail = 0 ∧ e ∈ full := by
    intro e he
    rcases List.mem_append.mp he with he | he
    · exact ⟨(c.traced.proper e he).1, (c.traced.proper e he).2,
        c.inFull.subset (List.mem_append_left _ he)⟩
    · have he' := List.take_subset _ _ he
      obtain ⟨q, hq, rfl⟩ := List.mem_map.mp he'
      exact ⟨c.aligned q hq, rfl, c.inFull.subset (List.mem_append_right _ he')⟩
  have happ : ∀ i < n, Applicable manages (logImage s.pm i) := fun i hi => by
    obtain ⟨-, h2, h3⟩ := hproper _ (hmem i hi)
    exact ⟨h2, (hfull _ h3).1, (hfull _ h3).2⟩
  have hinit : undoLogInit (logImage s.pm) = some n :=
    undoLogInit_eq (by omega) hnull fun i hi => ⟨hmin i hi, Or.inl (happ i hi).1⟩
  refine ⟨_, _, recoverImage_rollback hinit hmap (fun e he => (hproper e he).1) fun e he => ?_,
    fun x => ?_⟩
  · obtain ⟨-, h2, h3⟩ := hproper e he
    exact ⟨h2, (hfull _ h3).1, (hfull _ h3).2⟩
  · by_cases hx : undoJournal.Logged c.log x
    · rw [← Journal.replay_prefix hx (memImage (viewAfter lineOf c.done s1.cache))]
      exact c.traced.replay x
    · -- a block that only the record in progress has: its entry saves what memory still holds
      rw [Journal.replay_record_all fun e he hk => ?_, Journal.replay_of_not_logged hx, c.pm_mem (fun n => h1 _) hs hx]
      obtain ⟨q, hq, rfl⟩ := List.mem_map.mp (List.take_subset _ _ he)
      have hqx : q ≤ x ∧ x < q + 32 := (eq_blkStart_iff (c.aligned q hq)).mp hk
      rw [c.pm_mem (fun n => h1 _) hs hx, ← c.traced.unlogged c.done List.prefix_rfl x hx]
      exact show (Entry.save (memImage (viewAfter lineOf c.done s1.cache)) q).byteAt x = _ from
        Entry.save_byteAt hqx.1 hqx.2

end Crash

/-! ## 5. The run up to the commit record -/

/-- The events of an epoch before its commit record: the stores, then the flushes of the commit. -/
def epochEvents (mem : ℕ → ℕ) (sts : List Store) : List Event :=
  storesEvents [] mem sts ++ flushEvents Ranges.empty (storesLog [] mem sts)

/-- The run at its end. -/
theorem traced_stores {v0 : Cell → ℕ} {es : List Event} {log : List Entry} {mem : ℕ → ℕ}
    {sts : List Store} (h : Traced v0 es log) (hmem : mem = memImage (viewAfter lineOf es v0)) :
    Traced v0 (es ++ storesEvents log mem sts) (storesLog log mem sts) := by
  induction sts generalizing es log mem with
  | nil => simpa [storesEvents, storesLog] using h
  | cons st sts ih =>
      subst hmem
      have := ih (h.stored st List.prefix_rfl) (by rw [List.append_assoc, viewAfter_append,
        memImage_stored])
      simpa only [storesEvents, storesLog, List.append_assoc] using this

theorem memImage_storesEvents {log : List Entry} {mem : ℕ → ℕ} {sts : List Store} {v : Cell → ℕ}
    (hmem : mem = memImage v) :
    memImage (viewAfter lineOf (storesEvents log mem sts) v) = storesMem mem sts := by
  induction sts generalizing log mem v with
  | nil => exact hmem.symm
  | cons st sts ih =>
      subst hmem
      rw [storesEvents, viewAfter_append]
      exact ih (memImage_stored _ _ _).symm

theorem appEvent_flushEvents {fresh : Ranges} {l log : List Entry} {ev : Event}
    (h : ev ∈ flushEvents fresh l) : AppEvent log ev := by
  rcases List.mem_append.mp h with h | h
  · obtain ⟨q, -, rfl⟩ := List.mem_map.mp h
    exact ⟨fun i ht => ht, fun x _ c => rfl⟩
  · obtain rfl := List.mem_singleton.mp h
    exact ⟨fun i ht => ht, fun x _ c => rfl⟩

theorem crashAt_epoch {v0 : Cell → ℕ} (hnull : ∀ i, (logImage v0 i).isNull = true)
    {sts : List Store} {es : List Event} (hes : es <+: epochEvents (memImage v0) sts) :
    ∃ c : CrashAt v0 es (storesLog [] (memImage v0) sts), c.InRun [] [] (memImage v0) sts := by
  have h0 : Traced v0 [] [] := Traced.nil hnull
  rcases prefix_append_iff.mp hes with hes | ⟨r, rfl, hr⟩
  · exact crashAt_stores h0 rfl hes
  · have hst : Traced v0 ([] ++ storesEvents [] (memImage v0) sts) _ := traced_stores h0 rfl
    have h := hst.app (p := r) fun ev hev => appEvent_flushEvents (hr.subset hev)
    exact ⟨h.crashAt List.prefix_rfl, Or.inl rfl⟩

/-- A logged block begins in the region its store lies in. -/
theorem newBlocks_managed {table : List Region} (ht : Tiled table) {st : Store}
    (hin : ∀ i < st.bytes.length, st.addr + i ∈ regionPts table) {q : ℕ} (hq : q ∈ newBlocks st) :
    q ≠ 0 ∧ q ∈ regionPts table := by
  unfold newBlocks at hq
  split at hq
  · exact absurd hq List.not_mem_nil
  · rename_i hne
    obtain ⟨x, h1, h2, rfl⟩ := exists_of_mem_blocks (List.length_pos_of_ne_nil hne) hq
    obtain ⟨i, rfl⟩ : ∃ i, x = st.addr + i := ⟨x - st.addr, by omega⟩
    obtain ⟨r, hr, hx⟩ := hin i (by omega)
    have hpos := (ht.pos r hr).1
    have hal := ht.aligned r hr
    rw [Region.mem_pts] at hx
    refine ⟨?_, r, hr, Region.mem_pts.mpr ?_⟩ <;>
    · unfold blkStart
      omega

/-- **Rollback restores the last committed memory**: for every run of stores to the regions of the
    table, every eviction pattern and a crash anywhere before the commit record, recovery leaves
    every managed byte as it was and returns -1. -/
theorem rollback_restores_committed {d : Files} {t : Tables} {mrm : Manager} (ht : Tiled t.table)
    (hrec : Manager.new.recover d t = some mrm) {v0 : Cell → ℕ}
    (hnull : ∀ i, (logImage v0 i).isNull = true) {sts : List Store}
    (hin : ∀ st ∈ sts, ∀ i < st.bytes.length, st.addr + i ∈ regionPts t.table)
    (hcap : (storesLog [] (memImage v0) sts).length < undoNumEntries - 1) {es : List Event}
    (hes : es <+: epochEvents (memImage v0) sts) {s : Machine}
    (hs : Exec lineOf (Memory.start v0) es s) :
    ∃ log m, recoverImage mrm.doesManage s.pm = some (log, m, none) ∧
      ∀ x ∈ regionPts t.table, m x = memImage v0 x := by
  obtain ⟨c, -⟩ := crashAt_epoch hnull hes
  have hfull : ∀ e ∈ storesLog [] (memImage v0) sts, e.addr ≠ 0 ∧ mrm.doesManage e.addr = true := by
    intro e he
    obtain ⟨st, hst, q, hq, hqe, -⟩ :=
      (mem_storesLog he).resolve_left List.not_mem_nil
    obtain ⟨hne, hmem⟩ := newBlocks_managed ht (hin st hst) hq
    rw [hqe]
    obtain ⟨r, hr, hx⟩ := hmem
    have hu := ht.user r hr
    have hlt : q < 2 ^ 64 := by
      rw [Region.mem_pts] at hx
      omega
    exact ⟨hne, (recover_doesManage (fun q hq => ht.stop_lt hq) hrec hlt).mpr ⟨r, hr, hx⟩⟩
  obtain ⟨log, m, h1, h2⟩ := CrashAt.rollback c (Synced.start v0) hs hfull (by omega)
  exact ⟨log, m, h1, fun x _ => h2 x⟩

/-- One page, all zero. -/
def zeroPage : Tables := ⟨[⟨4096, 4096, 0⟩], none⟩

theorem zeroPage_tiled : Tiled zeroPage.table where
  apart := List.pairwise_singleton _ _
  pos r hr := by
    rw [List.mem_singleton.mp hr]
    decide
  aligned r hr := by
    rw [List.mem_singleton.mp hr]
    decide
  user r hr := by
    rw [List.mem_singleton.mp hr]
    decide

/-- A crash between the two entries of a store across a block border, after an earlier store. -/
theorem rollback_restores_zeroPage :
    ∃ s : Machine, Exec lineOf (Memory.start fun _ => 0)
        ((epochEvents (fun _ => 0) [⟨4100, [7]⟩, ⟨4126, [1, 2, 3, 4]⟩]).take 80) s ∧
      ∃ log m, recoverImage (Ranges.empty.insert 4096 4096).findPoint s.pm = some (log, m, none) ∧
        ∀ x ∈ regionPts zeroPage.table, m x = 0 := by
  obtain ⟨s, hs⟩ : ∃ s : Machine, Exec lineOf (Memory.start fun _ => 0)
      ((epochEvents (fun _ => 0) [⟨4100, [7]⟩, ⟨4126, [1, 2, 3, 4]⟩]).take 80) s := exists_exec _ _
  have hrec : Manager.new.recover ⟨fun _ => true, fun _ _ => 0, fun _ _ => 0⟩ zeroPage =
      some ⟨zeroPage.table, Ranges.empty.insert 4096 4096⟩ := rfl
  refine ⟨s, hs, rollback_restores_committed zeroPage_tiled hrec (fun _ => rfl)
    (fun st hst i hi => ?_) (by decide) (List.take_prefix _ _) hs⟩
  rcases List.mem_cons.mp hst with rfl | hst
  · revert i
    decide
  · obtain rfl := List.mem_singleton.mp hst
    revert i
    decide

end Persimmon
