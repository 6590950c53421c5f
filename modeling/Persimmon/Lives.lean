/-
  File:      Persimmon/Lives.lean
  Subject:   MANY LIVES OF THE BACKGROUND over one undo log: recoveries, epochs, and crashes between
             any two of their events (src/undo/undo_log.h; src/undo/instrument.cc).

  A life begins with a recovery and ends with a crash. In between the process runs epochs, each with
  its stores, its commit record and its cleanup; the hardware writes lines back as it likes. A first
  start is a recovery of an empty log.

  A crash while the log is being cleared can bring committed epochs back or leave entries behind
  (`Cleanup.lean`), and so can one in a record of several blocks: the lives considered here crash
  elsewhere.

  * `Life`, `LifeStep`, `Lives` -- lives and histories of lives;
  * `Quiet` -- a machine at rest: every line persistent, the log empty;
  * `LeadsTo` -- an image from which recovery leads to given contents;
  * `LeadsTo.recovers`, `Quiet.epochs`, `Quiet.crash` -- recovery, whole epochs, and a crash in one;
  * `lives_durable` -- after any history the memory recovered is that of the epochs whose commit
    record was persistent, each of them once and in order.
-/
import Mathlib.Algebra.Ring.Nat
import Persimmon.RollbackRetry

namespace Persimmon

open PersistentMemory UndoReplay

/-! ## 1. Histories -/

/-- **A life**: it ends in its recovery, or after whole epochs in one more, whose commit may have
    finished. -/
inductive Life where
  | recovering
  | running (done : List EpochRun) (ep : EpochRun) (finished : Bool)

/-- The memory a completed recovery leaves. -/
def recoveredMem (manages : ℕ → Bool) (v : Cell → ℕ) : ℕ → ℕ :=
  memImage (viewAfter lineOf (recoveryRun manages v).events v)

/-- **One life**, from the image `v` to the image its crash leaves. No crash comes while the log is
    being cleared, nor in a record of several blocks. -/
inductive LifeStep (manages : ℕ → Bool) (v : Cell → ℕ) : Life → (Cell → ℕ) → Prop where
  | recovering {p : List Event} {s : Machine} (hp : p <+: (recoveryRun manages v).events)
      (hclear : ∀ ev ∈ p, ∀ i, ¬ ev.Touches lineOf (.log i))
      (hs : Exec lineOf (Memory.start v) p s) : LifeStep manages v .recovering s.pm
  | running {done : List EpochRun} {ep : EpochRun} {finished : Bool} {part : List Event} {s : Machine}
      (hp : part <+: ep.events (epochsMem (recoveredMem manages v) done))
      (hfin : finished = true ↔ part = ep.events (epochsMem (recoveredMem manages v) done))
      (hone : ∀ st, InRecord (epochsMem (recoveredMem manages v) done) ep.stores part st →
        (newBlocks st).length ≤ 1)
      (hs : Exec lineOf (Memory.start v) ((recoveryRun manages v).events ++
        (epochsEvents (recoveredMem manages v) done ++ part)) s) :
      LifeStep manages v (.running done ep finished) s.pm

/-- **A history of lives**, and the image it leaves. -/
inductive Lives (manages : ℕ → Bool) (v0 : Cell → ℕ) : List Life → (Cell → ℕ) → Prop where
  | start : Lives manages v0 [] v0
  | life {ls : List Life} {l : Life} {v v' : Cell → ℕ} (h : Lives manages v0 ls v)
      (hl : LifeStep manages v l v') : Lives manages v0 (ls ++ [l]) v'

/-- **The epochs that count**: every whole epoch of every life, and the last one of a life always
    when its commit has finished, and never or once when it has not. -/
inductive CommittedBy : List Life → List EpochRun → Prop where
  | start : CommittedBy [] []
  | recovering {ls : List Life} {E : List EpochRun} (h : CommittedBy ls E) :
      CommittedBy (ls ++ [.recovering]) E
  | lost {ls : List Life} {E done : List EpochRun} {ep : EpochRun} (h : CommittedBy ls E) :
      CommittedBy (ls ++ [.running done ep false]) (E ++ done)
  | kept {ls : List Life} {E done : List EpochRun} {ep : EpochRun} {finished : Bool}
      (h : CommittedBy ls E) :
      CommittedBy (ls ++ [.running done ep finished]) (E ++ done ++ [ep])

/-- **The stores of an epoch go to the regions of the table**, and their blocks fit into the log. -/
def EpochRun.Fits (table : List Region) (ep : EpochRun) : Prop :=
  (∀ st ∈ ep.stores, st.bytes ≠ [] ∧ ∀ i < st.bytes.length, st.addr + i ∈ regionPts table) ∧
    (ep.stores.map fun st => (newBlocks st).length).sum + 1 < undoNumEntries

/-- Every epoch of the life fits. -/
def Life.Fits (table : List Region) : Life → Prop
  | .recovering => True
  | .running done ep _ => ep.Fits table ∧ ∀ e ∈ done, e.Fits table

/-- **A machine at rest** with memory `C`: every line is persistent, and the log is empty. -/
structure Quiet (s : Machine) (C : ℕ → ℕ) : Prop where
  synced : ∀ l, Synced lineOf s l
  null : ∀ i, (logImage s.cache i).isNull = true
  mem : memImage s.cache = C

/-- **An image with a commit record** at the end of its log. -/
structure CommittedAt (v : Cell → ℕ) (n tail : ℕ) (C : ℕ → ℕ) : Prop where
  data : ∀ i < n, (logImage v i).isNull = false ∧ (logImage v i).Proper
  recordAddr : (logImage v n).addr = 0
  recordTail : (logImage v n).commitTail = tail + 1
  beyond : ∀ i, n < i → (logImage v i).isNull = true
  room : n + 1 < undoNumEntries
  mem : memImage v = C

/-- **Recovery of the image leads to the memory `C`** and returns `r`: an uncommitted log that
    undoes to it, or a commit record over it. -/
def LeadsTo (manages : ℕ → Bool) (v : Cell → ℕ) (C : ℕ → ℕ) : Option ℕ → Prop
  | none => ∃ log, Uncommitted v log C ∧ ∀ e ∈ log, manages e.addr = true
  | some tail => ∃ n, CommittedAt v n tail C

/-! ## 2. Epochs on a machine at rest -/

section Epoch

variable {table : List Region} {ep : EpochRun} {s s' : Machine} {C : ℕ → ℕ}

theorem length_storesLog (log : List Entry) (mem : ℕ → ℕ) (sts : List Store) :
    (storesLog log mem sts).length = log.length + (sts.map fun st => (newBlocks st).length).sum := by
  induction sts generalizing log mem with
  | nil => rfl
  | cons st sts ih =>
      rw [storesLog, ih, recorded_eq, List.length_append, List.length_map, List.map_cons,
        List.sum_cons, Nat.add_assoc]

theorem EpochRun.Fits.room (h : ep.Fits table) (mem : ℕ → ℕ) :
    (storesLog [] mem ep.stores).length + 1 < undoNumEntries := by
  rw [length_storesLog]
  have := h.2
  simpa using this

/-- Every entry of the log of an epoch targets a region. -/
theorem EpochRun.Fits.entries (h : ep.Fits table) (ht : Tiled table) {mem : ℕ → ℕ} {e : Entry}
    (he : e ∈ storesLog [] mem ep.stores) : e.addr ≠ 0 ∧ e.addr ∈ regionPts table := by
  obtain ⟨st, hst, q, hq, hqe, -⟩ := (mem_storesLog he).resolve_left List.not_mem_nil
  rw [hqe]
  exact newBlocks_managed ht (h.1 st hst).2 hq

/-- No region begins on page 0. -/
theorem EpochRun.Fits.page (h : ep.Fits table) (ht : Tiled table) {st : Store} (hst : st ∈ ep.stores) :
    4096 ≤ st.addr := by
  obtain ⟨hne, hin⟩ := h.1 st hst
  obtain ⟨r, hr, hx⟩ := hin 0 (List.length_pos_of_ne_nil hne)
  have hpos := (ht.pos r hr).1
  have hal := ht.aligned r hr
  rw [Region.mem_pts] at hx
  omega

/-- A store of the run that reaches a line of memory has an entry of that line in the log. -/
theorem touches_storesEvents {log : List Entry} {mem : ℕ → ℕ} {sts : List Store} {ev : Event}
    {m : ℕ} (hev : ev ∈ storesEvents log mem sts) (ht : ev.Touches lineOf (.mem m)) :
    ∃ e ∈ storesLog log mem sts, cacheLine e.addr = m := by
  induction sts generalizing log mem with
  | nil => exact absurd hev List.not_mem_nil
  | cons st sts ih =>
      rw [storesEvents, List.append_assoc, List.mem_append, List.mem_append] at hev
      rcases hev with hev | hev | hev
      · rw [recordEvents_eq] at hev
        split at hev
        · exact absurd hev List.not_mem_nil
        · rcases List.mem_append.mp hev with hev | hev
          · obtain ⟨i, -, -, hl⟩ := touches_recordFrom hev ht
            cases hl
          · rw [List.mem_singleton.mp hev] at ht
            exact absurd ht id
      · obtain ⟨i, hi, rfl⟩ := List.mem_map.mp hev
        rw [List.mem_range] at hi
        have hm : cacheLine (st.addr + i) = m := Line.mem.inj ht
        have hne : st.bytes ≠ [] := fun hnil => by simp [hnil] at hi
        have hin : Entry.save mem (blkStart (st.addr + i)) ∈ recorded log mem st := by
          rw [recorded_eq, newBlocks, if_neg hne]
          exact List.mem_append_right _ (List.mem_map_of_mem
            (blkStart_mem_blocks (by omega) (by omega)))
        refine ⟨_, (prefix_storesLog (recorded log mem st) _ _).subset hin, ?_⟩
        rw [Entry.save_addr, ← hm]
        unfold cacheLine blkStart
        omega
      · exact ih hev

theorem not_touches_flushEvents {fresh : Ranges} {log : List Entry} {ev : Event}
    (h : ev ∈ flushEvents fresh log) (l : Line) : ¬ ev.Touches lineOf l := by
  rcases List.mem_append.mp h with h | h
  · obtain ⟨q, -, rfl⟩ := List.mem_map.mp h
    exact id
  · rw [List.mem_singleton.mp h]
    exact id

/-- A line of memory that a logged block lies on is durable behind the flushes of a commit. -/
theorem durable_flushEvents (es : List Event) {log : List Entry} {m : ℕ}
    (h : ∃ e ∈ log, cacheLine e.addr = m) :
    Durable lineOf () (es ++ flushEvents Ranges.empty log) (.mem m) := by
  obtain ⟨e, he, hline⟩ := h
  have hmem : e.addr ∈ undoLogCommitFlushes log Ranges.empty :=
    mem_commitFlushes.mpr (Or.inl ⟨e, he, rfl⟩)
  obtain ⟨a, b, hab⟩ := List.append_of_mem hmem
  have hsplit : es ++ flushEvents Ranges.empty log =
      (es ++ a.map fun q => .flush () (.mem (cacheLine q))) ++
        .flush () (.mem m) :: (b.map (fun q => .flush () (.mem (cacheLine q))) ++ [.drain ()]) := by
    rw [flushEvents, hab, ← hline]
    simp
  rw [hsplit]
  refine Durable.of_drain ⟨rfl, rfl⟩ fun ev hev ht => ?_
  obtain ⟨q, -, rfl⟩ := List.mem_map.mp hev
  exact ht

/-- **Behind the flushes of a commit every line of memory is durable.** -/
theorem durable_epochMem (mem : ℕ → ℕ) (sts : List Store) (m : ℕ) :
    Durable lineOf () (epochEvents mem sts) (.mem m) := by
  by_cases hm : ∃ e ∈ storesLog [] mem sts, cacheLine e.addr = m
  · exact durable_flushEvents _ hm
  · refine Or.inl fun ev hev ht => ?_
    rcases List.mem_append.mp hev with hev | hev
    · exact hm (touches_storesEvents hev ht)
    · exact not_touches_flushEvents hev _ ht

/-- The flushes of a commit store to nothing. -/
theorem memImage_epochEvents (v : Cell → ℕ) (sts : List Store) :
    memImage (viewAfter lineOf (epochEvents (memImage v) sts) v) = storesMem (memImage v) sts := by
  have hstores : memImage (viewAfter lineOf (storesEvents [] (memImage v) sts) v) =
      storesMem (memImage v) sts := memImage_storesEvents rfl
  rw [epochEvents, viewAfter_append, ← hstores]
  exact funext fun x => memImage_of_not_touches fun ev hev => not_touches_flushEvents hev _

/-- **A whole epoch** takes a machine at rest to one at rest. -/
theorem Quiet.epoch (h : Quiet s C) (hs : Exec lineOf s (ep.events C ++ ep.cleanup C) s') :
    Quiet s' (storesMem C ep.stores) := by
  obtain ⟨hsync, hnull, rfl⟩ := h
  have hrest : AtRest s.cache ([] ++ (ep.events (memImage s.cache) ++ ep.cleanup (memImage s.cache))) :=
    AtRest.epoch ⟨fun _ => Durable.nil, hnull⟩ ep
  rw [List.nil_append] at hrest
  refine ⟨fun l => exec_synced_of_durable (t := ()) hs (hsync l) ?_, fun i => ?_, ?_⟩
  · cases l with
    | log i => exact hrest.durable i
    | mem m =>
        rw [EpochRun.events, List.append_assoc]
        refine (durable_epochMem _ _ m).append fun ev hev => ?_
        rcases List.mem_append.mp hev with hev | hev
        · exact touches_commitRecord_mem hev
        · rcases clearEvent_of_mem hev with rfl | ⟨i, rfl⟩
          · exact id
          · exact fun ht => Line.noConfusion ht
  · rw [exec_cache hs]
    exact hrest.null i
  · rw [exec_cache hs]
    exact memImage_epoch s.cache ep

theorem Quiet.epochs {eps : List EpochRun} (h : Quiet s C)
    (hs : Exec lineOf s (epochsEvents C eps) s') : Quiet s' (epochsMem C eps) := by
  induction eps generalizing s C with
  | nil => exact ⟨fun l => exec_synced hs (h.synced l) fun _ he => absurd he List.not_mem_nil,
      fun i => by rw [exec_cache hs]; exact h.null i, by rw [exec_cache hs]; exact h.mem⟩
  | cons ep eps ih =>
      obtain ⟨s1, hs1, hs2⟩ := exec_append hs
      exact ih (h.epoch hs1) hs2

/-! ## 3. A crash in an epoch -/

/-- **A crash before the commit record**, at most one entry being open: what it leaves undoes to the
    memory at the beginning of the epoch. -/
theorem CrashAt.uncommitted {s1 : Machine} {p : List Event} {full : List Entry}
    {manages : ℕ → Bool} (c : CrashAt s1.cache p full) (h1 : ∀ l, Synced lineOf s1 l)
    (hs : Exec lineOf s1 p s)
    (hfull : ∀ e ∈ full, e.addr ≠ 0 ∧ manages e.addr = true)
    (hlen : full.length < undoNumEntries) (ho : OneOpen (logImage s.pm)) :
    LeadsTo manages s.pm (memImage s1.cache) none := by
  obtain ⟨n, hn, hnf, hnull, hmin, hmap⟩ := c.exists_len (fun i => h1 _) hs fun e he => (hfull e he).1
  have hdata : ∀ e ∈ (List.range n).map (logImage s.pm), e.addr ≠ 0 ∧ e.addr % 32 = 0 ∧
      e.commitTail = 0 ∧ manages e.addr = true := fun e he => by
    rw [hmap] at he
    rcases List.mem_append.mp he with he | he
    · obtain ⟨h1, h2⟩ := hfull e (c.inFull.subset (List.mem_append_left _ he))
      exact ⟨h1, (c.traced.proper e he).1, (c.traced.proper e he).2, h2⟩
    · have he' := List.take_subset _ _ he
      obtain ⟨h1, h2⟩ := hfull e (c.inFull.subset (List.mem_append_right _ he'))
      obtain ⟨q, hq, rfl⟩ := List.mem_map.mp he'
      exact ⟨h1, c.aligned q hq, rfl, h2⟩
  have hinit : undoLogInit (logImage s.pm) = some n := by
    refine undoLogInit_eq (by omega) hnull fun i hi => ⟨hmin i hi, Or.inl ?_⟩
    exact (hdata _ (List.mem_map_of_mem (List.mem_range.mpr hi))).2.2.1
  -- the replay of what recovery finds is the committed memory
  have hreplay : ∀ x, undoJournal.replay ((List.range n).map (logImage s.pm)) (memImage s.pm) x =
      memImage s1.cache x := by
    obtain ⟨log, m, hrec, hm⟩ := c.rollback h1 hs hfull hlen
    rw [recoverImage_rollback hinit rfl (fun e he => (hdata e he).2.1) fun e he =>
      ⟨(hdata e he).2.2.1, (hdata e he).1, (hdata e he).2.2.2⟩] at hrec
    cases hrec
    exact hm
  refine ⟨(List.range n).map (logImage s.pm), ⟨⟨fun e he => ?_, ?_, fun x e he => ?_⟩, fun i hi => ?_,
    fun i hi => ?_, fun x hx => ?_⟩, fun e he => (hdata e he).2.2.2⟩
  · exact ⟨(hdata e he).1, (hdata e he).2.1, (hdata e he).2.2.1⟩
  · rw [List.length_map, List.length_range]
    omega
  · rw [← hreplay x, Journal.replay_apply, he]
    rfl
  · rw [List.getElem_map, List.getElem_range]
  · rw [List.length_map, List.length_range] at hi
    obtain ⟨k, hbefore, hafter⟩ := ho
    have hkn : k ≤ n := by
      by_contra hlt
      rw [hbefore n (by omega)] at hnull
      cases hnull
    rcases Nat.eq_or_lt_of_le hi with rfl | hlt
    · exact hnull
    · exact hafter i (by omega)
  · rw [← hreplay x, Journal.replay_of_not_logged hx]

/-- The entry of the commit record, while it is written: null, or complete. -/
theorem logImage_commitRecord {n tail : ℕ} {q : List Event} (hq : q <+: commitRecordEvents n tail)
    {v : Cell → ℕ} (hv : (logImage v n).isNull = true) :
    (logImage (viewAfter lineOf q v) n).isNull = true ∨
      (logImage (viewAfter lineOf q v) n).addr = 0 ∧
        (logImage (viewAfter lineOf q v) n).commitTail = tail + 1 := by
  have hv' : v (.addr n) = 0 ∧ v (.commitTail n) = 0 := Entry.isNull_iff.mp hv
  rcases List.prefix_cons_iff.mp hq with rfl | ⟨q₁, rfl, hq₁⟩
  · exact Or.inl hv
  rcases List.prefix_cons_iff.mp hq₁ with rfl | ⟨q₂, rfl, hq₂⟩
  · left
    simp [Entry.isNull, logImage, Ev.view, hv']
  right
  have hrest : ∀ ev ∈ q₂, ∀ i, ¬ ev.Touches lineOf (.log i) := fun ev hev i => by
    have hmem := hq₂.subset hev
    simp only [List.mem_cons, List.not_mem_nil, or_false] at hmem
    rcases hmem with rfl | rfl <;> exact id
  rw [viewAfter_cons, viewAfter_cons, logImage_of_not_touches fun ev hev => hrest ev hev n]
  simp [logImage, Ev.view]

/-- **A crash while the commit record is written**, or behind its drain: what was done since the
    machine `s1` is undone, or it has been committed; it has been if the drain was reached. -/
theorem crash_commitRecord {s1 : Machine} {es : List Event} {log : List Entry} {tail : ℕ}
    {manages : ℕ → Bool} (ht : Traced s1.cache es log)
    (hdur : ∀ m, Durable lineOf () es (.mem m)) (h1 : ∀ l, Synced lineOf s1 l)
    (hfull : ∀ e ∈ log, e.addr ≠ 0 ∧ manages e.addr = true)
    (hlen : log.length + 1 < undoNumEntries) {q : List Event}
    (hq : q <+: commitRecordEvents log.length tail) (hs : Exec lineOf s1 (es ++ q) s) :
    (q ≠ commitRecordEvents log.length tail ∧ LeadsTo manages s.pm (memImage s1.cache) none) ∨
      LeadsTo manages s.pm (memImage (viewAfter lineOf es s1.cache)) (some tail) := by
  have hqmem : ∀ ev ∈ q, ∀ m, ¬ ev.Touches lineOf (.mem m) := fun ev hev m =>
    touches_commitRecord_mem (hq.subset hev)
  have hqlog : ∀ i, i ≠ log.length → ∀ ev ∈ q, ¬ ev.Touches lineOf (.log i) := fun i hi ev hev htt =>
    hi (touches_commitRecord (hq.subset hev) htt)
  -- memory and the data entries are persistent
  have hmem : memImage s.pm = memImage (viewAfter lineOf es s1.cache) := by
    refine funext fun x => ?_
    have hsync : Synced lineOf s (.mem (cacheLine x)) := exec_synced_of_durable hs (h1 _)
      ((hdur _).append fun ev hev => hqmem ev hev _)
    have hend : memImage s.pm x = memImage s.cache x := hsync (.mem x) rfl
    rw [hend, exec_cache hs, viewAfter_append, memImage_of_not_touches fun ev hev => hqmem ev hev _]
  have hkeep : ∀ i, i ≠ log.length →
      logImage s.pm i = logImage (viewAfter lineOf es s1.cache) i := fun i hi => by
    rw [logImage_of_synced (exec_synced_of_durable hs (h1 _) ((ht.durable i).append (hqlog i hi))),
      exec_cache hs, viewAfter_append, logImage_of_not_touches (hqlog i hi)]
  have hentries : ∀ i (h : i < log.length), logImage s.pm i = log[i] := fun i h => by
    rw [hkeep i (Nat.ne_of_lt h), ht.entries i h]
  have hbeyond : ∀ i, log.length < i → (logImage s.pm i).isNull = true := fun i h => by
    rw [hkeep i (Nat.ne_of_gt h)]
    exact ht.beyond _ List.prefix_rfl i (Nat.le_of_lt h)
  have hrecord : (logImage s.pm log.length).isNull = true ∧
        q ≠ commitRecordEvents log.length tail ∨
      (logImage s.pm log.length).addr = 0 ∧ (logImage s.pm log.length).commitTail = tail + 1 := by
    have hnull := ht.beyond _ List.prefix_rfl log.length (le_refl _)
    by_cases hfin : q = commitRecordEvents log.length tail
    · -- the drain makes the line persistent
      right
      have hd : Durable lineOf () (es ++ q) (.log log.length) := by
        have hsplit : es ++ q =
            (es ++ [.store (.addr log.length) 0, .store (.commitTail log.length) (tail + 1)]) ++
              .flush () (.log log.length) :: ([] ++ [.drain ()]) := by
          rw [hfin, commitRecordEvents]
          simp
        rw [hsplit]
        exact Durable.of_drain ⟨rfl, rfl⟩ fun _ he => absurd he List.not_mem_nil
      rw [logImage_of_synced (exec_synced_of_durable hs (h1 _) hd), exec_cache hs, hfin,
        viewAfter_append, commitRecordEvents]
      simp [logImage, Ev.view]
    · obtain ⟨p, hp, he⟩ := logImage_pm (fun i => h1 (.log i)) hs log.length
      rw [he]
      rcases prefix_append_iff.mp hp with hp | ⟨r, rfl, hr⟩
      · exact Or.inl ⟨ht.beyond p hp _ (le_refl _), hfin⟩
      · rw [viewAfter_append]
        exact (logImage_commitRecord (hr.trans hq) hnull).imp (fun h => ⟨h, hfin⟩) id
  rcases hrecord with ⟨hopen, hfin⟩ | ⟨haddr, htail⟩
  · refine Or.inl ⟨hfin, log, ⟨⟨fun e he => ⟨(hfull e he).1, ht.proper e he⟩,
      by omega, fun x e he => ?_⟩, hentries, fun i hi => ?_, fun x hx => ?_⟩,
      fun e he => (hfull e he).2⟩
    · rw [← ht.replay x, Journal.replay_apply, he]
      rfl
    · rcases Nat.eq_or_lt_of_le hi with rfl | hlt
      · exact hopen
      · exact hbeyond i hlt
    · rw [hmem]
      exact ht.unlogged _ List.prefix_rfl x hx
  · refine Or.inr ⟨log.length, fun i hi => ?_, haddr, htail, hbeyond, hlen, hmem⟩
    rw [hentries i hi]
    exact ⟨Bool.eq_false_iff.mpr fun hn => (hfull _ (List.getElem_mem hi)).1
      (Entry.isNull_iff.mp hn).1, Or.inl (ht.proper _ (List.getElem_mem hi)).2⟩

/-- **A crash in an epoch that began at rest**: the epoch is undone, or it has been committed; it has
    been if its commit had finished. -/
theorem Quiet.crash {manages : ℕ → Bool} {part : List Event} (h : Quiet s C) (ht : Tiled table)
    (hman : ∀ x ∈ regionPts table, manages x = true) (hfit : ep.Fits table)
    (hp : part <+: ep.events C)
    (hone : ∀ st, InRecord C ep.stores part st → (newBlocks st).length ≤ 1)
    (hs : Exec lineOf s part s') :
    (part ≠ ep.events C ∧ LeadsTo manages s'.pm C none) ∨
      LeadsTo manages s'.pm (storesMem C ep.stores) (some ep.tail) := by
  obtain ⟨hsync, hnull, rfl⟩ := h
  have hfull : ∀ e ∈ storesLog [] (memImage s.cache) ep.stores,
      e.addr ≠ 0 ∧ manages e.addr = true := fun e he => by
    obtain ⟨hne, hmem⟩ := EpochRun.Fits.entries hfit ht he
    exact ⟨hne, hman _ hmem⟩
  have hlen := EpochRun.Fits.room hfit (memImage s.cache)
  rcases prefix_append_iff.mp hp with hbefore | ⟨q, rfl, hq⟩
  · refine Or.inl ⟨fun heq => ?_, ?_⟩
    · have hle := hbefore.length_le
      rw [heq, EpochRun.events, List.length_append] at hle
      exact absurd hle (by simp [commitRecordEvents])
    · obtain ⟨c, -⟩ := crashAt_epoch hnull hbefore
      exact c.uncommitted hsync hs hfull (by omega) (oneOpen_epoch hnull (fun i => hsync _)
        (fun st hst => EpochRun.Fits.page hfit ht hst) hp hone hs)
  · have hend : memImage (viewAfter lineOf (epochEvents (memImage s.cache) ep.stores) s.cache) =
        storesMem (memImage s.cache) ep.stores := memImage_epochEvents s.cache ep.stores
    rcases crash_commitRecord (traced_epoch hnull ep.stores) (durable_epochMem _ _) hsync hfull hlen
      hq hs with ⟨hne, hu⟩ | hc
    · exact Or.inl ⟨fun heq => hne (List.append_cancel_left heq), hu⟩
    · rw [hend] at hc
      exact Or.inr hc

end Epoch

/-! ## 4. Recovery -/

section Recovery

variable {manages : ℕ → Bool} {v : Cell → ℕ} {C : ℕ → ℕ} {r : Option ℕ} {s : Machine}

/-- Recovery finds the whole log. -/
theorem found_uncommitted {log : List Entry} (h : Uncommitted v log C) : Found log v log.length := by
  obtain ⟨k, hf⟩ := h.restorable.found
  have hk : k = log.length := hf.unique (h.beyond _ (le_refl _)) fun i hi => by
    rw [h.entries i hi, Bool.eq_false_iff]
    exact fun hn => (h.data _ (List.getElem_mem hi)).1 (Entry.isNull_iff.mp hn).1
  exact hk ▸ hf

/-- What a recovery without a commit record does. -/
theorem run_uncommitted {log : List Entry} (h : Uncommitted v log C)
    (hman : ∀ e ∈ log, manages e.addr = true) :
    (applyEvents manages (logImage v) log.length).2 = true ∧
      recoveryRun manages v = ⟨(applyEvents manages (logImage v) log.length).1 ++ [.drain ()] ++
        clearEvents log.length, some none⟩ := by
  have happ : ∀ i < log.length, Applicable manages (logImage v i) := fun i hi => by
    obtain ⟨h1, -, h3⟩ := h.data _ (List.getElem_mem hi)
    rw [h.entries i hi]
    exact ⟨h3, h1, hman _ (List.getElem_mem hi)⟩
  have hok := (memImage_applyEvents happ v).1
  refine ⟨hok, ?_⟩
  rw [h.toSavesCommitted.run_eq (found_uncommitted h), if_pos hok]

/-- What a recovery that finds a commit record does. -/
theorem run_committed {n tail : ℕ} (h : CommittedAt v n tail C) :
    recoveryRun manages v = ⟨clearEvents (n + 1), some (some tail)⟩ := by
  have hinit : undoLogInit (logImage v) = some (n + 1) := by
    refine undoLogInit_eq h.room (h.beyond _ (Nat.lt_succ_self n)) fun i hi => ?_
    rcases Nat.lt_succ_iff_lt_or_eq.mp hi with hi | rfl
    · exact h.data i hi
    · refine ⟨Bool.eq_false_iff.mpr fun hn => ?_, Or.inr h.recordAddr⟩
      have htail := h.recordTail
      rw [(Entry.isNull_iff.mp hn).2] at htail
      exact absurd htail.symm (Nat.succ_ne_zero tail)
  have hfound : commitFound (logImage v) (n + 1) = some tail := by
    unfold commitFound
    rw [Nat.add_sub_cancel, h.recordTail, if_pos ⟨Nat.succ_pos n, Nat.succ_pos tail⟩,
      Nat.add_sub_cancel]
  unfold recoveryRun
  rw [hinit]
  simp only [hfound]

/-- Clearing the log leaves its lines persistent and null, when nothing lies behind it. -/
theorem cleared_log {es : List Event} {n : ℕ} (hes : ∀ ev ∈ es, ∀ i, ¬ ev.Touches lineOf (.log i))
    (hnull : ∀ i, n ≤ i → (logImage v i).isNull = true)
    (hs : Exec lineOf (Memory.start v) (es ++ clearEvents n) s) (i : ℕ) :
    Synced lineOf s (.log i) ∧ (logImage s.cache i).isNull = true := by
  constructor
  · refine exec_synced_of_durable (t := ()) hs (Synced.start v _) ?_
    by_cases hi : i < n
    · obtain ⟨p, q, hpq, hq⟩ := clearEvents_split hi
      rw [hpq, ← List.append_assoc]
      exact Durable.of_drain ⟨rfl, rfl⟩ hq
    · refine Or.inl fun ev hev ht => ?_
      rcases List.mem_append.mp hev with hev | hev
      · exact hes ev hev i ht
      · exact hi (touches_clearEvents hev ht)
  · rw [exec_cache hs, viewAfter_append, logImage_clearEvents]
    unfold undoLogClear
    split
    · rfl
    · rename_i hi
      rw [logImage_of_not_touches fun ev hev => hes ev hev i]
      exact hnull i (Nat.le_of_not_lt hi)

/-- **A recovery completes, and leaves a machine at rest.** -/
theorem LeadsTo.recovers (h : LeadsTo manages v C r) :
    (recoveryRun manages v).ret = some r ∧
      ∀ s, Exec lineOf (Memory.start v) (recoveryRun manages v).events s → Quiet s C := by
  cases r with
  | none =>
      obtain ⟨log, hu, hman⟩ := h
      obtain ⟨hok, hrun⟩ := run_uncommitted hu hman
      have hf := found_uncommitted hu
      rw [hrun]
      refine ⟨rfl, fun s hs => ?_⟩
      have hmem := (restored_clearing hu.toSavesCommitted hu.restorable hf hok List.prefix_rfl hs).1
      have hlog := cleared_log (fun ev hev i ht => ?_) hu.beyond hs
      · refine ⟨fun l => ?_, fun i => (hlog i).2, funext fun x => (hmem x).1⟩
        cases l with
        | log i => exact (hlog i).1
        | mem m =>
            intro a ha
            cases a with
            | mem x => exact (hmem x).2.trans (hmem x).1.symm
            | blk i j => cases ha
            | addr i => cases ha
            | commitTail i => cases ha
      · rcases List.mem_append.mp hev with hev | hev
        · exact (appEvent_applyEvents (hu.toSavesCommitted.aligned hf) hev).1 i ht
        · rw [List.mem_singleton.mp hev] at ht
          exact ht
  | some tail =>
      obtain ⟨n, hc⟩ := h
      rw [run_committed hc]
      refine ⟨rfl, fun s hs => ?_⟩
      have hs' : Exec lineOf (Memory.start v) ([] ++ clearEvents (n + 1)) s := hs
      have hlog := cleared_log (fun ev hev => absurd hev List.not_mem_nil)
        (fun i hi => hc.beyond i hi) hs'
      have hno : ∀ m, ∀ ev ∈ clearEvents (n + 1), ¬ ev.Touches lineOf (.mem m) := fun m ev hev => by
        rcases clearEvent_of_mem hev with rfl | ⟨i, rfl⟩
        · exact id
        · exact nofun
      refine ⟨fun l => ?_, fun i => (hlog i).2, ?_⟩
      · cases l with
        | log i => exact (hlog i).1
        | mem m => exact exec_synced hs (Synced.start v _) (hno m)
      · rw [exec_cache hs, ← hc.mem]
        exact funext fun x => memImage_of_not_touches (hno _)

/-- A crash in a recovery that stores to nothing but logged blocks leaves the other contents. -/
theorem pm_of_app {log : List Entry} {p : List Event} (hp : ∀ ev ∈ p, AppEvent log ev)
    (hs : Exec lineOf (Memory.start v) p s) :
    (∀ i, logImage s.pm i = logImage v i) ∧
      ∀ x, ¬ undoJournal.Logged log x → memImage s.pm x = memImage v x := by
  constructor
  · intro i
    obtain ⟨q, hq, he⟩ := logImage_pm (fun i => Synced.start v (Line.log i)) hs i
    rw [he]
    exact logImage_of_not_touches fun ev hev => (hp ev (hq.subset hev)).1 i
  · intro x hx
    obtain ⟨q, hq, he⟩ := exec_prefix hs (Synced.start v (Line.mem (cacheLine x)))
    exact (he (.mem x) rfl).trans (memImage_app (fun ev hev => hp ev (hq.subset hev)) hx v)

/-- **A crash in a recovery**, before the log is cleared, loses nothing. -/
theorem LeadsTo.recovering (h : LeadsTo manages v C r) {p : List Event}
    (hp : p <+: (recoveryRun manages v).events) (hclear : ∀ ev ∈ p, ∀ i, ¬ ev.Touches lineOf (.log i))
    (hs : Exec lineOf (Memory.start v) p s) : LeadsTo manages s.pm C r := by
  cases r with
  | none =>
      obtain ⟨log, hu, hman⟩ := h
      have hf := found_uncommitted hu
      rw [(run_uncommitted hu hman).2] at hp
      have happ : ∀ ev ∈ p, AppEvent log ev := fun ev hev => by
        rcases List.mem_append.mp (hp.subset hev) with hin | hin
        · rcases List.mem_append.mp hin with hin | hin
          · have hlog : (List.range log.length).map (logImage v) = log := by
              rw [hf.range, List.take_length]
            exact hlog ▸ appEvent_applyEvents (hu.toSavesCommitted.aligned hf) hin
          · rw [List.mem_singleton.mp hin]
            exact ⟨fun i => id, fun _ _ _ => rfl⟩
        · rcases clearEvent_of_mem hin with rfl | ⟨i, rfl⟩
          · exact ⟨fun i => id, fun _ _ _ => rfl⟩
          · exact absurd rfl (hclear _ hev i)
      obtain ⟨hlog, hmem⟩ := pm_of_app happ hs
      exact ⟨log, ⟨hu.toSavesCommitted, fun i hi => (hlog i).trans (hu.entries i hi),
        fun i hi => by rw [hlog i]; exact hu.beyond i hi,
        fun x hx => (hmem x hx).trans (hu.rest x hx)⟩, hman⟩
  | some tail =>
      obtain ⟨n, hc⟩ := h
      rw [run_committed hc] at hp
      have happ : ∀ ev ∈ p, AppEvent [] ev := fun ev hev => by
        rcases clearEvent_of_mem (hp.subset hev) with rfl | ⟨i, rfl⟩
        · exact ⟨fun i => id, fun _ _ _ => rfl⟩
        · exact absurd rfl (hclear _ hev i)
      obtain ⟨hlog, hmem⟩ := pm_of_app happ hs
      have hsame : logImage s.pm = logImage v := funext hlog
      refine ⟨n, ?_, ?_, ?_, ?_, hc.room, ?_⟩
      · rw [hsame]
        exact hc.data
      · rw [hsame]
        exact hc.recordAddr
      · rw [hsame]
        exact hc.recordTail
      · rw [hsame]
        exact hc.beyond
      · rw [← hc.mem]
        exact funext fun x => hmem x fun ⟨e, he, _⟩ => absurd he List.not_mem_nil

end Recovery

/-! ## 5. Histories -/

section History

variable {manages : ℕ → Bool} {table : List Region} {v0 v v' : Cell → ℕ} {C : ℕ → ℕ} {r : Option ℕ}

/-- The memory a recovery leads to. -/
theorem LeadsTo.recoveredMem (h : LeadsTo manages v C r) : recoveredMem manages v = C := by
  obtain ⟨s, hs⟩ : ∃ s : Machine, Exec lineOf (Memory.start v) (recoveryRun manages v).events s :=
    exists_exec _ _
  have hq := h.recovers.2 s hs
  rw [← hq.mem, exec_cache hs]
  rfl

/-- **What recovery computes** of an image that holds `C`: that memory, an empty log, and the tail. -/
theorem LeadsTo.recoverImage (h : LeadsTo manages v C r) :
    ∃ log, recoverImage manages v = some (log, C, r) ∧ ∀ i, (log i).isNull = true := by
  obtain ⟨s, hs⟩ : ∃ s : Machine, Exec lineOf (Memory.start v) (recoveryRun manages v).events s :=
    exists_exec _ _
  have hq := h.recovers.2 s hs
  rw [recoverImage_eq_run, h.recovers.1, Option.map_some, ← hq.mem, exec_cache hs]
  refine ⟨_, rfl, fun i => ?_⟩
  have hnull := hq.null i
  rwa [exec_cache hs] at hnull

/-- **A life of epochs**: the whole ones are committed, the last one is undone or committed. -/
theorem LeadsTo.running (h : LeadsTo manages v C r) (ht : Tiled table)
    (hman : ∀ x ∈ regionPts table, manages x = true) {done : List EpochRun} {ep : EpochRun}
    {finished : Bool} (hfit : ep.Fits table) (hl : LifeStep manages v (.running done ep finished) v') :
    (finished = false ∧ LeadsTo manages v' (epochsMem C done) none) ∨
      LeadsTo manages v' (epochsMem C (done ++ [ep])) (some ep.tail) := by
  cases hl with
  | running hp hfin hone hs =>
      rw [h.recoveredMem] at hp hfin hone hs
      obtain ⟨s1, hs1, hs2⟩ := exec_append hs
      obtain ⟨s2, hs2, hs3⟩ := exec_append hs2
      have hq : Quiet s2 (epochsMem C done) := (h.recovers.2 s1 hs1).epochs hs2
      rcases hq.crash ht hman hfit hp hone hs3 with ⟨hne, hu⟩ | hc
      · refine Or.inl ⟨Bool.eq_false_iff.mpr fun hf => hne (hfin.mp hf), hu⟩
      · right
        rw [epochsMem, List.foldl_append]
        exact hc

/-- A recovered manager manages the regions of its table. -/
theorem recover_manages {d : Files} {t : Tables} {mrm : Manager} (ht : Tiled t.table)
    (hrec : Manager.new.recover d t = some mrm) : ∀ x ∈ regionPts t.table, mrm.doesManage x = true := by
  intro x hx
  obtain ⟨r, hr, hxr⟩ := hx
  have hu := ht.user r hr
  have hlt : x < 2 ^ 64 := by
    rw [Region.mem_pts] at hxr
    omega
  exact (recover_doesManage (fun q hq => ht.stop_lt hq) hrec hlt).mpr ⟨r, hr, hxr⟩

/-- The invariant of a history. -/
theorem leadsTo_lives (ht : Tiled table) (hman : ∀ x ∈ regionPts table, manages x = true)
    (hnull : ∀ i, (logImage v0 i).isNull = true) {ls : List Life} (hfits : ∀ l ∈ ls, l.Fits table)
    (h : Lives manages v0 ls v) :
    ∃ E r, CommittedBy ls E ∧ LeadsTo manages v (epochsMem (memImage v0) E) r ∧
      ∀ t, r = some t → ∃ ep, E.getLast? = some ep ∧ ep.tail = t := by
  induction h with
  | start =>
      refine ⟨[], none, .start, ⟨[], ⟨⟨fun e he => absurd he List.not_mem_nil, by decide,
        fun x e he => ?_⟩, fun i hi => absurd hi (Nat.not_lt_zero i), fun i _ => hnull i,
        fun x _ => rfl⟩, fun e he => absurd he List.not_mem_nil⟩, nofun⟩
      exact absurd (Journal.first_some he).1 List.not_mem_nil
  | @life ls l v v' _ hl ih =>
      obtain ⟨E, r, hE, hh, htail⟩ := ih fun l' hl' => hfits l' (List.mem_append_left _ hl')
      have hfit := hfits l (List.mem_append_right _ (List.mem_singleton_self l))
      cases l with
      | recovering =>
          cases hl with
          | recovering hp hclear hs =>
              exact ⟨E, r, .recovering hE, hh.recovering hp hclear hs, htail⟩
      | running done ep finished =>
          rcases hh.running ht hman hfit.1 hl with ⟨rfl, hu⟩ | hc
          · refine ⟨E ++ done, none, .lost hE, ?_, nofun⟩
            rw [epochsMem, List.foldl_append]
            exact hu
          · refine ⟨E ++ done ++ [ep], some ep.tail, .kept hE, ?_, fun t heq => ?_⟩
            · rw [List.append_assoc, epochsMem, List.foldl_append]
              exact hc
            · exact ⟨ep, List.getLast?_concat, Option.some.inj heq⟩

/-- **Whatever the history**, a recovery completes, leaves an empty log, and the memory of the epochs
    that count, each executed once and in order; a tail it returns is that of the last of them. -/
theorem lives_durable {d : Files} {t : Tables} {mrm : Manager} (ht : Tiled t.table)
    (hrec : Manager.new.recover d t = some mrm) (hnull : ∀ i, (logImage v0 i).isNull = true)
    {ls : List Life} (hfits : ∀ l ∈ ls, l.Fits t.table) (h : Lives mrm.doesManage v0 ls v) :
    ∃ E log r, CommittedBy ls E ∧
      recoverImage mrm.doesManage v = some (log, epochsMem (memImage v0) E, r) ∧
      (∀ i, (log i).isNull = true) ∧
      ∀ tail, r = some tail → ∃ ep, E.getLast? = some ep ∧ ep.tail = tail := by
  obtain ⟨E, r, hE, hh, htail⟩ := leadsTo_lives ht (recover_manages ht hrec) hnull hfits h
  obtain ⟨log, hlog, hempty⟩ := hh.recoverImage
  exact ⟨E, log, r, hE, hlog, hempty, htail⟩

/-- Two lives on a page of zeros: the first commits an epoch and crashes behind the drain of its
    commit record, the second crashes in its recovery. -/
theorem lives_durable_zeroPage :
    ∃ v, Lives (Ranges.empty.insert 4096 4096).findPoint (fun _ => 0)
        [.running [] oneBlock true, .recovering] v ∧
      ∃ E log r, CommittedBy [.running [] oneBlock true, .recovering] E ∧
        recoverImage (Ranges.empty.insert 4096 4096).findPoint v =
          some (log, epochsMem (fun _ => 0) E, r) ∧
        (∀ i, (log i).isNull = true) ∧
        ∀ tail, r = some tail → ∃ ep, E.getLast? = some ep ∧ ep.tail = tail := by
  have hrec : Manager.new.recover ⟨fun _ => true, fun _ _ => 0, fun _ _ => 0⟩ zeroPage =
      some ⟨zeroPage.table, Ranges.empty.insert 4096 4096⟩ := rfl
  have hmem : recoveredMem (Ranges.empty.insert 4096 4096).findPoint (fun _ => 0) =
      fun _ => 0 := rfl
  obtain ⟨s, hs⟩ : ∃ s : Machine, Exec lineOf (Memory.start fun _ => 0)
      ((recoveryRun (Ranges.empty.insert 4096 4096).findPoint fun _ => 0).events ++
        (epochsEvents (fun _ => 0) [] ++ oneBlock.events fun _ => 0)) s := exists_exec _ _
  have h1 : LifeStep (Ranges.empty.insert 4096 4096).findPoint (fun _ => 0)
      (.running [] oneBlock true) s.pm := by
    have hwhole : (oneBlock.events fun _ => 0) = oneBlock.events
        (epochsMem (recoveredMem (Ranges.empty.insert 4096 4096).findPoint fun _ => 0) []) := by
      rw [hmem]
      rfl
    refine .running (hwhole ▸ List.prefix_rfl) ⟨fun _ => hwhole, fun _ => rfl⟩ (fun st hst => ?_) ?_
    · obtain ⟨sts₁, sts₂, hsts, -⟩ := hst
      have hin : st ∈ oneBlock.stores := hsts ▸ List.mem_append_right _ List.mem_cons_self
      rw [List.mem_singleton.mp hin]
      decide
    · rw [hmem]
      exact hs
  have h2 : LifeStep (Ranges.empty.insert 4096 4096).findPoint s.pm .recovering
      (Memory.start s.pm : Machine).pm :=
    .recovering List.nil_prefix (fun ev hev => absurd hev List.not_mem_nil) .start
  have hlives := (Lives.start.life h1).life h2
  refine ⟨_, hlives, lives_durable zeroPage_tiled hrec (fun _ => rfl) (fun l hl => ?_) hlives⟩
  simp only [List.nil_append, List.cons_append, List.mem_cons, List.not_mem_nil, or_false] at hl
  rcases hl with rfl | rfl
  · refine ⟨⟨fun st hst => ?_, by decide⟩, fun e he => absurd he List.not_mem_nil⟩
    rw [List.mem_singleton.mp hst]
    exact ⟨by decide, by decide⟩
  · trivial

end History

end Persimmon
