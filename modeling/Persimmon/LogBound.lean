/-
  File:      Persimmon/LogBound.lean
  Subject:   WHERE THE UNDO LOG ENDS: which of its entries a run of the background writes, and whether
             the scan of a later recovery stays in the file (src/undo/undo_log.h; src/bg.cc:
             `_bg_consume`).

  The file holds `UNDO_NUM_ENTRIES` entries, and the scan has no other end than a null entry. In the
  default build `undo_log_record` does not assert its bound, `undo_log_commit` asserts it behind its
  write, and `_bg_consume` does not look at `should_commit` before the callback returns.

  * `LogRun`, `LogRun.Step` -- callbacks of any length, each with its commit and its cleanup;
  * `Grows` -- the shape of the log in every prefix of the events;
  * `LogRun.Roomy`, `log_stays_in_file` -- as long as every step leaves room for one more entry, the
    last one of the file is not written, and the scan ends at or before it;
  * `runs_stores`, `log_leaves_file` -- a callback long enough writes behind the file.
-/
import Persimmon.Cleanup
import Persimmon.Epoch

namespace Persimmon

open PersistentMemory Transition

/-! ## 1. The background and its log -/

inductive LogPhase where
  | running
  /-- Between `instrument_commit` and `instrument_cleanup`. -/
  | committed
  | aborted
  deriving DecidableEq, Repr

/-- The epoch, where the background stands, and what has been sent to the memory so far. -/
structure LogRun where
  epoch : Epoch
  phase : LogPhase
  events : List Event

inductive LogAct where
  | op (o : Op)
  | commit (tail : ℕ)
  | cleanup
  deriving DecidableEq, Repr

/-- What an operation sends to the log and to the managed memory. -/
def Op.events (e : Epoch) : Op → List Event
  | .store addr bytes =>
      recordEvents e.fresh e.view e.log.length addr bytes.length ++ storeEvents addr bytes
  | .mmap _ _ _ => []
  | .munmap _ _ _ _ => []

/-- The state after `instrument_cleanup`. -/
def Epoch.renew (e : Epoch) : Epoch :=
  { e with
    fresh := Ranges.empty
    log := []
    newly := fun _ => false
    dirty := fun _ => false }

namespace LogRun

/-- `undo_log.len` -/
def len (r : LogRun) : ℕ := if r.phase = .committed then r.epoch.log.length + 1 else r.epoch.log.length

/-- `undo_log_commit`; its assertion stands before the last drain. -/
def commit (r : LogRun) (tail : ℕ) : LogRun :=
  if r.epoch.log.length + 1 < undoNumEntries then
    ⟨r.epoch, .committed, r.events ++ commitEvents r.epoch.fresh r.epoch.log tail⟩
  else ⟨r.epoch, .aborted, r.events ++ (commitEvents r.epoch.fresh r.epoch.log tail).dropLast⟩

/-- **One step**: an operation of the callback, the commit behind it, the cleanup. -/
inductive Step : LogRun → LogAct → LogRun → Prop where
  | op {r : LogRun} {e : Epoch} (o : Op) (hp : r.phase = .running) (ho : r.epoch.apply o = some e) :
      Step r (.op o) ⟨e, .running, r.events ++ o.events r.epoch⟩
  | commit {r : LogRun} (tail : ℕ) (hp : r.phase = .running) : Step r (.commit tail) (r.commit tail)
  | cleanup {r : LogRun} (hp : r.phase = .committed) :
      Step r .cleanup
        ⟨r.epoch.renew, .running, r.events ++ clearEvents (r.epoch.log.length + 1)⟩

def start (e : Epoch) : LogRun := ⟨e, .running, []⟩

/-- **The step leaves room** for one more entry. -/
def Roomy (r : LogRun) : LogAct → Prop
  | .op (.store addr bytes) => r.epoch.fresh.find addr bytes.length = true ∨
      r.epoch.log.length + (blocks addr bytes.length).length < undoNumEntries
  | .commit _ => r.epoch.log.length + 1 < undoNumEntries
  | _ => True

end LogRun

/-- **The log stays in its file**: no entry behind the end is written, and whatever a crash leaves,
    there is a first null entry in the file. If the log was null at the start, the scan of
    `undo_log_init` comes to it without a failing assertion. -/
structure LogRun.InFile (r : LogRun) (s1 : Machine) : Prop where
  written : ∀ i, (∃ ev ∈ r.events, ev.Touches lineOf (.log i)) → i < undoNumEntries
  ends : ∀ p s, p <+: r.events → Exec lineOf s1 p s →
    ∃ n < undoNumEntries, (logImage s.pm n).isNull = true ∧ ∀ j < n, (logImage s.pm j).isNull = false
  scan : (∀ i, (logImage s1.cache i).isNull = true) → ∀ p s, p <+: r.events → Exec lineOf s1 p s →
    ∃ n < undoNumEntries, undoLogInit (logImage s.pm) = some n

/-! ## 2. The log of an operation -/

/-- The log after an operation. -/
def Op.logged (e : Epoch) : Op → List Entry
  | .store addr bytes => (undoLogRecord e.fresh e.view e.log addr bytes.length).1
  | .mmap _ _ _ => e.log
  | .munmap _ _ _ _ => e.log

theorem log_apply {e e' : Epoch} {o : Op} (h : e.apply o = some e') : e'.log = o.logged e := by
  cases o with
  | store addr bytes =>
      obtain ⟨-, rfl⟩ := apply_store h
      rfl
  | mmap ret size fileId =>
      obtain ⟨-, -, rfl⟩ := apply_mmap h
      rfl
  | munmap addr size rightId leftId =>
      unfold Epoch.apply at h
      split at h
      swap
      · cases h
      simp only [Epoch.munmap] at h
      split at h
      · cases h
      · cases h
        rfl
      · cases h

/-- How long it is. -/
theorem length_logged (e : Epoch) (addr : ℕ) (bytes : List ℕ) :
    ((Op.store addr bytes).logged e).length = e.log.length +
      if e.fresh.find addr bytes.length = true then 0 else (blocks addr bytes.length).length := by
  show (undoLogRecord e.fresh e.view e.log addr bytes.length).1.length = _
  unfold undoLogRecord
  split <;> simp

theorem touches_recordEvents {fresh : Ranges} {mem : ℕ → ℕ} {n addr size i : ℕ} {ev : Event}
    (h : ev ∈ recordEvents fresh mem n addr size) (ht : ev.Touches lineOf (.log i)) :
    n ≤ i ∧ fresh.find addr size = false ∧ i < n + (blocks addr size).length := by
  unfold recordEvents at h
  split at h
  · exact absurd h List.not_mem_nil
  · rename_i hf
    rcases List.mem_append.mp h with h | h
    · obtain ⟨j, h1, h2, hl⟩ := touches_recordFrom h ht
      obtain rfl := Line.log.inj hl
      rw [List.length_map] at h2
      exact ⟨h1, Bool.eq_false_iff.mpr hf, h2⟩
    · obtain rfl := List.mem_singleton.mp h
      exact absurd ht id

theorem touches_flushEvents {fresh : Ranges} {log : List Entry} {ev : Event} {l : Line}
    (h : ev ∈ flushEvents fresh log) : ¬ ev.Touches lineOf l := by
  rcases List.mem_append.mp h with h | h
  · obtain ⟨q, -, rfl⟩ := List.mem_map.mp h
    exact id
  · obtain rfl := List.mem_singleton.mp h
    exact id

theorem touches_commitEvents {fresh : Ranges} {log : List Entry} {tail i : ℕ} {ev : Event}
    (h : ev ∈ commitEvents fresh log tail) (ht : ev.Touches lineOf (.log i)) : i = log.length := by
  rcases List.mem_append.mp h with h | h
  · exact absurd ht (touches_flushEvents h)
  · exact touches_commitRecord h ht

/-! ## 3. The shape of the log -/

theorem Entry.proper_of_isNull {e : Entry} (h : e.isNull = true) : e.Proper :=
  Or.inl (Entry.isNull_iff.mp h).2

/-- **The shape of the log while `es` is sent to the memory**: no entry is a data entry and a commit
    record at once, and in the end those from `n` on are null. -/
structure Grows (v : Cell → ℕ) (es : List Event) (n : ℕ) : Prop where
  proper : ∀ p, p <+: es → ∀ i, (logImage (viewAfter lineOf p v) i).Proper
  null : ∀ i, n ≤ i → (logImage (viewAfter lineOf es v) i).isNull = true

namespace Grows

variable {v : Cell → ℕ} {es new : List Event} {n m : ℕ}

theorem nil (h : ∀ i, (logImage v i).isNull = true) : Grows v [] n where
  proper p hp i := by
    rw [List.prefix_nil.mp hp]
    exact Entry.proper_of_isNull (h i)
  null i _ := h i

theorem append (h : Grows v es n) (h' : Grows (viewAfter lineOf es v) new m) :
    Grows v (es ++ new) m where
  proper p hp i := by
    rcases prefix_append_iff.mp hp with hp | ⟨q, rfl, hq⟩
    · exact h.proper p hp i
    · rw [viewAfter_append]
      exact h'.proper q hq i
  null i hi := by
    rw [viewAfter_append]
    exact h'.null i hi

/-- What leaves the log alone. -/
theorem other (h : Grows v es n) (hno : ∀ ev ∈ new, ∀ i, ¬ ev.Touches lineOf (.log i)) :
    Grows v (es ++ new) n := by
  have hsame : ∀ p, p <+: new → ∀ i, logImage (viewAfter lineOf p (viewAfter lineOf es v)) i =
      logImage (viewAfter lineOf es v) i := fun p hp i =>
    logImage_of_not_touches fun ev hev => hno ev (hp.subset hev) i
  refine h.append ⟨fun p hp i => ?_, fun i hi => ?_⟩
  · rw [hsame p hp i]
    exact h.proper es List.prefix_rfl i
  · rw [hsame new List.prefix_rfl i]
    exact h.null i hi

/-- The entries of a record. -/
theorem record (h : Grows v es n) {new : List Entry} (hct : ∀ e ∈ new, e.commitTail = 0) :
    Grows v (es ++ recordFrom n new) (n + new.length) := by
  refine h.append ⟨fun p hp i => ?_, fun i hi => ?_⟩
  · rcases Nat.lt_or_ge i n with hlt | hge
    · rw [logImage_of_not_touches fun ev hev ht => ?_]
      · exact h.proper es List.prefix_rfl i
      · obtain ⟨j, h1, -, hl⟩ := touches_recordFrom (hp.subset hev) ht
        have := Line.log.inj hl
        omega
    · rcases isNull_or_eq_of_prefix hct h.null hp hge with hnull | he
      · exact Entry.proper_of_isNull hnull
      · exact Or.inl (hct _ (List.mem_of_getElem? he))
  · rw [logImage_of_not_touches fun ev hev ht => ?_]
    · exact h.null i (by omega)
    · obtain ⟨j, -, h2, hl⟩ := touches_recordFrom hev ht
      have := Line.log.inj hl
      omega

/-- A record and the store behind it. -/
theorem store (h : Grows v es n) (fresh : Ranges) (mem : ℕ → ℕ) (addr : ℕ) (bytes : List ℕ) :
    Grows v (es ++ (recordEvents fresh mem n addr bytes.length ++ storeEvents addr bytes))
      (n + if fresh.find addr bytes.length = true then 0 else (blocks addr bytes.length).length) := by
  rw [← List.append_assoc]
  refine Grows.other ?_ fun ev hev i ht => ?_
  · unfold recordEvents
    split
    · rw [List.append_nil]
      exact h
    · rw [← List.append_assoc]
      refine Grows.other ?_ fun ev hev i ht => ?_
      · have hct : ∀ e ∈ (blocks addr bytes.length).map (Entry.save mem), e.commitTail = 0 := by
          intro e he
          obtain ⟨p, -, rfl⟩ := List.mem_map.mp he
          rfl
        have := h.record hct
        rwa [List.length_map] at this
      · rw [List.mem_singleton.mp hev] at ht
        exact ht
  · obtain ⟨n, hn⟩ := touches_storeEvents hev ht
    cases hn

/-- The commit record: its address is cleared first. -/
theorem commitRecord (h : Grows v es n) (tail : ℕ) :
    Grows v (es ++ commitRecordEvents n tail) (n + 1) := by
  refine h.append ⟨fun p hp i => ?_, fun i hi => ?_⟩
  · by_cases hi : i = n
    · subst hi
      right
      have haddr := (Entry.isNull_iff.mp (h.null i (le_refl i))).1
      rcases List.prefix_cons_iff.mp hp with rfl | ⟨p₁, rfl, hp₁⟩
      · exact haddr
      · rcases List.prefix_cons_iff.mp hp₁ with rfl | ⟨p₂, rfl, hp₂⟩
        · simp [logImage, Ev.view]
        · have hrest : ∀ ev ∈ p₂, ¬ ev.Touches lineOf (.log i) := fun ev hev => by
            have hin := hp₂.subset hev
            simp only [List.mem_cons, List.not_mem_nil, or_false] at hin
            rcases hin with rfl | rfl <;> exact id
          rw [viewAfter_cons, viewAfter_cons, logImage_of_not_touches hrest]
          simp [logImage, Ev.view]
    · rw [logImage_of_not_touches fun ev hev ht => hi (touches_commitRecord (hp.subset hev) ht)]
      exact h.proper es List.prefix_rfl i
  · rw [logImage_of_not_touches fun ev hev ht => ?_]
    · exact h.null i (by omega)
    · have := touches_commitRecord hev ht
      omega

/-- The cleanup. -/
theorem clear (h : Grows v es n) : Grows v (es ++ clearEvents n) 0 := by
  refine h.append ⟨fun p hp i => ?_, fun i _ => ?_⟩
  · rcases logImage_clear (fun ev hev => clearEvent_of_mem (hp.subset hev)) i with he | he
    · rw [he]
      exact h.proper es List.prefix_rfl i
    · exact Entry.proper_of_isNull he
  · rcases Nat.lt_or_ge i n with hlt | hge
    · exact isNull_clearEvents hlt _
    · rw [logImage_of_not_touches fun ev hev ht => absurd (touches_clearEvents hev ht) (by omega)]
      exact h.null i hge

end Grows

/-! ## 4. Runs that leave room -/

/-- **What a run that leaves room has written.** -/
structure LogRun.Bounded (r : LogRun) : Prop where
  phase : r.phase ≠ .aborted
  len : r.len < undoNumEntries
  touched : ∀ ev ∈ r.events, ∀ i, ev.Touches lineOf (.log i) → i + 1 < undoNumEntries

namespace LogRun

variable {r r' : LogRun} {a : LogAct} {v : Cell → ℕ}

theorem len_running (h : r.phase = .running) : r.len = r.epoch.log.length :=
  if_neg (by rw [h]; exact nofun)

theorem len_committed (h : r.phase = .committed) : r.len = r.epoch.log.length + 1 := if_pos h

theorem commit_eq (tail : ℕ) (h : r.epoch.log.length + 1 < undoNumEntries) :
    r.commit tail =
      ⟨r.epoch, .committed, r.events ++ commitEvents r.epoch.fresh r.epoch.log tail⟩ := if_pos h

/-- An operation that leaves room writes entries that have another one behind them. -/
theorem touched_op {e : Epoch} {o : Op} (h : r.Bounded) (hp : r.phase = .running)
    (hok : r.Roomy (.op o)) (ho : r.epoch.apply o = some e) :
    e.log.length < undoNumEntries ∧ ∀ ev ∈ o.events r.epoch, ∀ i,
      ev.Touches lineOf (.log i) → i + 1 < undoNumEntries := by
  have hlen := h.len
  rw [len_running hp] at hlen
  cases o with
  | store addr bytes =>
      refine ⟨?_, fun ev hev i ht => ?_⟩
      · rw [log_apply ho, length_logged]
        rcases hok with hf | hroom
        · rw [if_pos hf]
          exact hlen
        · split <;> omega
      · rcases List.mem_append.mp hev with hev | hev
        · obtain ⟨-, hf, hi⟩ := touches_recordEvents hev ht
          rcases hok with hf' | hroom
          · rw [hf] at hf'
            cases hf'
          · omega
        · obtain ⟨n, hn⟩ := touches_storeEvents hev ht
          cases hn
  | mmap ret size fileId =>
      rw [log_apply ho]
      exact ⟨hlen, fun ev hev => absurd hev List.not_mem_nil⟩
  | munmap addr size rightId leftId =>
      rw [log_apply ho]
      exact ⟨hlen, fun ev hev => absurd hev List.not_mem_nil⟩

/-- **A step that leaves room keeps the bound.** -/
theorem bounded_step (h : r.Bounded) (hok : r.Roomy a) (hs : r.Step a r') : r'.Bounded := by
  have happ : ∀ {new : List Event}, (∀ ev ∈ new, ∀ i, ev.Touches lineOf (.log i) →
      i + 1 < undoNumEntries) → ∀ ev ∈ r.events ++ new, ∀ i, ev.Touches lineOf (.log i) →
      i + 1 < undoNumEntries := fun hnew ev hev i ht =>
    (List.mem_append.mp hev).elim (fun hev => h.touched ev hev i ht) fun hev => hnew ev hev i ht
  cases hs with
  | op o hp ho =>
      obtain ⟨h1, h2⟩ := touched_op h hp hok ho
      exact ⟨nofun, h1, happ h2⟩
  | commit tail hp =>
      have hroom : r.epoch.log.length + 1 < undoNumEntries := hok
      rw [commit_eq tail hroom]
      refine ⟨nofun, hroom, happ fun ev hev i ht => ?_⟩
      rw [touches_commitEvents hev ht]
      exact hroom
  | cleanup hp =>
      have hlen := h.len
      rw [len_committed hp] at hlen
      refine ⟨nofun, show 0 < undoNumEntries by decide, happ fun ev hev i ht => ?_⟩
      have := touches_clearEvents hev ht
      omega

/-- **Every step keeps the shape of the log**, as long as `undo_log_commit` does not abort. -/
theorem grows_step (h : Grows v r.events r.len) (hs : r.Step a r') (hrun : r'.phase ≠ .aborted) :
    Grows v r'.events r'.len := by
  cases hs with
  | op o hp ho =>
      rw [len_running hp] at h
      show Grows v (r.events ++ o.events r.epoch) _
      rw [len_running rfl]
      simp only [log_apply ho]
      cases o with
      | store addr bytes =>
          rw [length_logged]
          exact h.store _ _ _ _
      | mmap ret size fileId => rwa [Op.events, List.append_nil]
      | munmap addr size rightId leftId => rwa [Op.events, List.append_nil]
  | commit tail hp =>
      rw [len_running hp] at h
      by_cases hroom : r.epoch.log.length + 1 < undoNumEntries
      · rw [commit_eq tail hroom, len_committed rfl]
        show Grows v (r.events ++ (flushEvents _ _ ++ commitRecordEvents _ tail)) _
        rw [← List.append_assoc]
        exact (h.other fun ev hev i => touches_flushEvents hev).commitRecord tail
      · refine absurd ?_ hrun
        unfold LogRun.commit
        rw [if_neg hroom]
  | cleanup hp =>
      rw [len_committed hp] at h
      exact h.clear

/-- There is a null entry in the file, and so a first one. -/
theorem exists_first_null {log : ℕ → Entry} (h : (log (undoNumEntries - 1)).isNull = true) :
    ∃ n < undoNumEntries, (log n).isNull = true ∧ ∀ j < n, (log j).isNull = false := by
  have hex : ∃ n, (log n).isNull = true := ⟨_, h⟩
  refine ⟨Nat.find hex, ?_, Nat.find_spec hex, fun j hj => ?_⟩
  · have hle : Nat.find hex ≤ undoNumEntries - 1 := Nat.find_min' hex h
    have hpos : 0 < undoNumEntries := by decide
    omega
  · exact Bool.eq_false_iff.mpr (Nat.find_min hex hj)

/-- **As long as every step leaves room, the log stays in its file**, whatever the callbacks do. -/
theorem log_stays_in_file {s1 : Machine} {e : Epoch} (hlog : e.log = [])
    (hsync : ∀ i, Synced lineOf s1 (.log i))
    (hlast : (logImage s1.cache (undoNumEntries - 1)).isNull = true)
    (h : Runs LogRun.Step LogRun.Roomy (LogRun.start e) r) : r.InFile s1 := by
  have hstart : (LogRun.start e).Bounded := by
    refine ⟨nofun, ?_, fun ev hev => absurd hev List.not_mem_nil⟩
    show e.log.length < undoNumEntries
    rw [hlog]
    decide
  have hbound : r.Bounded := h.invariant hstart fun s a s' hs hok hstep => bounded_step hs hok hstep
  have hends : ∀ p s, p <+: r.events → Exec lineOf s1 p s →
      (logImage s.pm (undoNumEntries - 1)).isNull = true := by
    intro p s hp hs
    obtain ⟨q, hq, he⟩ := logImage_pm hsync hs (undoNumEntries - 1)
    rw [he, logImage_of_not_touches fun ev hev ht => ?_]
    · exact hlast
    · have := hbound.touched ev ((hq.trans hp).subset hev) _ ht
      omega
  refine ⟨fun i ⟨ev, hev, ht⟩ => ?_, fun p s hp hs => exists_first_null (hends p s hp hs),
    fun hnull p s hp hs => ?_⟩
  · have := hbound.touched ev hev i ht
    omega
  · have hgrows : r.Bounded ∧ Grows s1.cache r.events r.len := by
      refine Runs.invariant (I := fun r => r.Bounded ∧ Grows s1.cache r.events r.len) h
        ⟨hstart, Grows.nil hnull⟩ fun s a s' hs hok hstep => ?_
      have hb := bounded_step hs.1 hok hstep
      exact ⟨hb, grows_step hs.2 hstep hb.phase⟩
    obtain ⟨n, hn, hnul, hfirst⟩ := exists_first_null (hends p s hp hs)
    refine ⟨n, hn, undoLogInit_eq hn hnul fun j hj => ⟨hfirst j hj, ?_⟩⟩
    obtain ⟨q, hq, he⟩ := logImage_pm hsync hs j
    rw [he]
    exact hgrows.2.proper q (hq.trans hp) j

/-! ## 5. A callback that is too long -/

/-- One page of zeros is mapped. -/
def onePage : Epoch :=
  Epoch.boot ⟨zeroPage.table, Ranges.empty.insert 4096 4096⟩
    ⟨fun _ => true, fun _ _ => 0, fun _ _ => 0⟩

theorem onePage_enabled : (Op.store 4096 [7]).Enabled onePage := by decide

theorem synced_zero (i : ℕ) : Synced lineOf (Memory.start fun _ => 0 : Machine) (.log i) :=
  Synced.start _ _

/-- **One byte is stored again and again**: every store takes one more entry. -/
theorem runs_stores (n : ℕ) : ∃ r, Runs Step Always (start onePage) r ∧ r.phase = .running ∧
    r.epoch.pages 1 = true ∧ r.epoch.fresh = Ranges.empty ∧ r.epoch.log.length = n ∧
    ∀ i < n, ∃ ev ∈ r.events, ev.Touches lineOf (.log i) := by
  induction n with
  | zero => exact ⟨_, .start, rfl, by decide, rfl, rfl, fun i hi => absurd hi (Nat.not_lt_zero i)⟩
  | succ n ih =>
      obtain ⟨r, hrun, hp, hpage, hfresh, hlen, htouch⟩ := ih
      have hen : (Op.store 4096 [7]).Enabled r.epoch := by
        refine ⟨nofun, by decide, fun i hi => ?_⟩
        obtain rfl : i = 0 := Nat.lt_one_iff.mp hi
        exact hpage
      have hfind : r.epoch.fresh.find 4096 [7].length = false := by
        rw [hfresh]
        rfl
      refine ⟨_, hrun.step (LogAct.op (.store 4096 [7])) trivial (Step.op _ hp (if_pos hen)), rfl, hpage,
        hfresh, ?_, fun i hi => ?_⟩
      · have hlog := length_logged r.epoch 4096 [7]
        rw [if_neg (by rw [hfind]; exact nofun), hlen] at hlog
        exact hlog
      · rcases Nat.lt_succ_iff_lt_or_eq.mp hi with hi | rfl
        · obtain ⟨ev, hev, ht⟩ := htouch i hi
          exact ⟨ev, List.mem_append_left _ hev, ht⟩
        · refine ⟨.store (.addr i) 4096, List.mem_append_right _ (List.mem_append_left _ ?_), rfl⟩
          rw [hlen, recordEvents, if_neg (by rw [hfind]; exact nofun)]
          refine List.mem_append_left _ (List.mem_append_left _ (List.mem_append_right _ ?_))
          exact List.mem_cons_self

/-- One store, its commit and its cleanup. -/
theorem log_stays_one : ∃ r : LogRun, r.phase = .running ∧ clearEvents 2 <:+ r.events ∧
    r.InFile (Memory.start fun _ => 0) := by
  have hroom : (onePage.store 4096 [7]).log.length + 1 < undoNumEntries := by decide
  have h1 : Runs Step Roomy (start onePage) _ :=
    Runs.start.step (LogAct.op (.store 4096 [7])) (Or.inr (by decide))
      (Step.op _ rfl (if_pos onePage_enabled))
  have h2 := h1.step (LogAct.commit 64) hroom (Step.commit 64 rfl)
  rw [commit_eq 64 hroom] at h2
  have h3 := h2.step LogAct.cleanup trivial (Step.cleanup rfl)
  exact ⟨_, rfl, List.suffix_append _ _, log_stays_in_file rfl synced_zero rfl h3⟩

/-- **A callback that is long enough writes behind the file.** -/
theorem log_leaves_file :
    ¬ ∀ (s1 : Machine) (e : Epoch) (r : LogRun), e.log = [] → (∀ i, Synced lineOf s1 (.log i)) →
      (logImage s1.cache (undoNumEntries - 1)).isNull = true → Runs Step Always (start e) r →
      r.InFile s1 := by
  intro H
  obtain ⟨r, hrun, -, -, -, -, htouch⟩ := runs_stores (undoNumEntries + 1)
  have hin := (H (Memory.start fun _ => 0) onePage r rfl synced_zero rfl hrun).written
    undoNumEntries (htouch _ (Nat.lt_succ_self _))
  exact absurd hin (lt_irrefl _)

end LogRun

end Persimmon
