/-
  File:      Persimmon/Cleanup.lean
  Subject:   CLEARING THE UNDO LOG, and crashes in the middle of it (src/undo/undo_log.h:
             `undo_log_clear`, `undo_log_post_commit_cleanup`).

  `undo_log_clear` zeroes every line of the log and drains once: at a crash any set of its lines may
  be zero. Recovery looks at the entries before the first null one only.

  * `cleanup_crash_iff` -- a crash during the cleanup of a committed log keeps the commit exactly
    when the entries before the first zeroed one undo nothing;
  * `recovery_empties_log` -- a completed recovery leaves no entry behind, from a crash that is
    neither in a cleanup nor in a record of several blocks.
-/
import Persimmon.Rollback

namespace Persimmon

open PersistentMemory UndoReplay

/-! ## 1. What a cleanup leaves -/

/-- An event of `undo_log_clear`. -/
def ClearEvent (ev : Event) : Prop := ev = .drain () ∨ ∃ i, ev = .fill () (.log i) fun _ => 0

theorem clearEvent_of_mem {n : ℕ} {ev : Event} (h : ev ∈ clearEvents n) : ClearEvent ev := by
  rcases List.mem_append.mp h with h | h
  · obtain ⟨i, -, rfl⟩ := List.mem_map.mp h
    exact Or.inr ⟨i, rfl⟩
  · exact Or.inl (List.mem_singleton.mp h)

section Clear

variable {v : Cell → ℕ} {es : List Event}

theorem memImage_clear (h : ∀ ev ∈ es, ClearEvent ev) (x : ℕ) :
    memImage (viewAfter lineOf es v) x = memImage v x := by
  refine memImage_of_not_touches fun ev hev ht => ?_
  rcases h ev hev with rfl | ⟨i, rfl⟩
  · exact ht
  · exact Line.noConfusion ht

/-- A line is as it was, or zero. -/
theorem logImage_clear (h : ∀ ev ∈ es, ClearEvent ev) (i : ℕ) :
    logImage (viewAfter lineOf es v) i = logImage v i ∨
      (logImage (viewAfter lineOf es v) i).isNull = true := by
  induction es generalizing v with
  | nil => exact Or.inl rfl
  | cons ev es ih =>
      have hes := fun ev' h' => h ev' (List.mem_cons_of_mem _ h')
      rw [viewAfter_cons]
      rcases h ev List.mem_cons_self with rfl | ⟨j, rfl⟩
      · exact ih hes
      · by_cases hij : i = j
        · subst hij
          right
          have hz : (logImage (Ev.view lineOf (Ev.fill () (Line.log i) fun _ => 0) v) i).isNull
              = true := by
            simp [Entry.isNull, logImage, Ev.view, lineOf]
          rcases ih hes (v := Ev.view lineOf (Ev.fill () (Line.log i) fun _ => 0) v) with he | he
          · rw [he]
            exact hz
          · exact he
        · have hkeep : logImage (Ev.view lineOf (Ev.fill () (Line.log j) fun _ => 0) v) i =
              logImage v i := by
            simp [logImage, Ev.view, lineOf, hij]
          rw [← hkeep]
          exact ih hes

variable {s : Machine}

/-- **What a crash in the middle of a cleanup leaves**: every entry as it was or null, the memory as
    it was. -/
theorem exec_clear (h : ∀ ev ∈ es, ClearEvent ev) (hs : Exec lineOf (Memory.start v) es s) :
    (∀ i, logImage s.pm i = logImage v i ∨ (logImage s.pm i).isNull = true) ∧
      memImage s.pm = memImage v := by
  refine ⟨fun i => ?_, funext fun x => ?_⟩
  · obtain ⟨p, hp, he⟩ := logImage_pm (fun i => Synced.start v (Line.log i)) hs i
    rw [he]
    exact logImage_clear (fun ev hev => h ev (hp.subset hev)) i
  · obtain ⟨p, hp, he⟩ := exec_prefix hs (Synced.start v (Line.mem (cacheLine x)))
    exact (he (.mem x) rfl).trans (memImage_clear (fun ev hev => h ev (hp.subset hev)) x)

end Clear

/-- The cleanup reaches every line of the log once. -/
theorem clearEvents_split {n i : ℕ} (hi : i < n) :
    ∃ p q, clearEvents n = p ++ .fill () (.log i) (fun _ => 0) :: (q ++ [.drain ()]) ∧
      ∀ ev ∈ q, ¬ ev.Touches lineOf (.log i) := by
  obtain ⟨a, b, hab⟩ := List.append_of_mem (List.mem_range.mpr hi)
  have hnd : (a ++ i :: b).Nodup := hab ▸ List.nodup_range
  refine ⟨a.map fun j => .fill () (.log j) fun _ => 0, b.map fun j => .fill () (.log j) fun _ => 0,
    by rw [clearEvents, hab]; simp, fun ev hev ht => ?_⟩
  obtain ⟨j, hj, rfl⟩ := List.mem_map.mp hev
  obtain rfl : j = i := Line.log.inj ht
  exact (List.nodup_cons.mp (List.nodup_append.mp hnd).2.1).1 hj

theorem touches_clearEvents {n i : ℕ} {ev : Event} (h : ev ∈ clearEvents n)
    (ht : ev.Touches lineOf (.log i)) : i < n := by
  rcases List.mem_append.mp h with h | h
  · obtain ⟨j, hj, rfl⟩ := List.mem_map.mp h
    obtain rfl : j = i := Line.log.inj ht
    exact List.mem_range.mp hj
  · obtain rfl := List.mem_singleton.mp h
    exact absurd ht id

/-- After the cleanup the cleared entries are null. -/
theorem isNull_clearEvents {n i : ℕ} (hi : i < n) (v : Cell → ℕ) :
    (logImage (viewAfter lineOf (clearEvents n) v) i).isNull = true := by
  obtain ⟨p, q, hpq, -⟩ := clearEvents_split hi
  have hq : ∀ ev ∈ q ++ [Ev.drain ()], ClearEvent ev := fun ev hev =>
    clearEvent_of_mem (hpq ▸ List.mem_append_right p (List.mem_cons_of_mem _ hev))
  rw [hpq, viewAfter_append, viewAfter_cons]
  rcases logImage_clear hq i with he | he
  · rw [he]
    simp [Entry.isNull, logImage, Ev.view, lineOf]
  · exact he

/-- **Every line of the log zeroed, line `j` alone written back**, and no drain yet. -/
theorem exists_clearing {v : Cell → ℕ} {n j : ℕ} (hj : j < n) :
    ∃ es, es <+: clearEvents n ∧ ∃ s : Machine, Exec lineOf (Memory.start v) es s ∧
      (logImage s.pm j).isNull = true ∧ ∀ i, i ≠ j → logImage s.pm i = logImage v i := by
  let fills : List Event := (List.range n).map fun i => .fill () (.log i) fun _ => 0
  obtain ⟨s, hs, hpm⟩ : ∃ s : Machine, Exec lineOf (Memory.start v) fills s ∧ s.pm = v :=
    exists_exec_of_noDrain (by simp [fills])
  have hcache : s.cache = viewAfter lineOf fills v := exec_cache hs
  have hview : viewAfter lineOf (clearEvents n) v = viewAfter lineOf fills v := by
    rw [clearEvents, viewAfter_append]
    rfl
  refine ⟨fills, ⟨[.drain ()], rfl⟩, s.evict lineOf (.log j), .evict _ hs, ?_, fun i hi => ?_⟩
  · have hline : logImage (s.evict lineOf (.log j)).pm j = logImage s.cache j := by
      simp [logImage, Memory.evict, lineOf]
    rw [hline, hcache, ← hview]
    exact isNull_clearEvents hj v
  · rw [← hpm]
    simp [logImage, Memory.evict, lineOf, hi]

/-! ## 2. A crash during the cleanup of a committed log -/

/-- **The log of an epoch that has committed**: data entries, the commit record, nothing behind. -/
structure CommittedLog (v : Cell → ℕ) (log : List Entry) (tail : ℕ) : Prop where
  entries : ∀ i (h : i < log.length), logImage v i = log[i]
  recordAddr : (logImage v log.length).addr = 0
  recordTail : (logImage v log.length).commitTail = tail + 1
  beyond : ∀ i, log.length < i → (logImage v i).isNull = true
  data : ∀ e ∈ log, e.addr ≠ 0 ∧ e.addr % 32 = 0 ∧ e.commitTail = 0
  nonempty : log ≠ []
  room : log.length + 1 < undoNumEntries

/-- Recovery leaves the managed memory `mem`, and the tail is `tail`: what recovery returns, or what
    `psm_log` holds already when it returns -1. -/
def YieldsCommit (manages : ℕ → Bool) (managed : Set ℕ) (v : Cell → ℕ) (mem : ℕ → ℕ) (tail : ℕ) :
    Prop :=
  ∃ log m r, recoverImage manages v = some (log, m, r) ∧ (∀ x ∈ managed, m x = mem x) ∧
    r.getD tail = tail

/-- **The entries before the first zeroed one undo nothing**: each targets managed memory, and the
    first entry of each block holds what the memory holds. -/
def UndoesNothing (manages : ℕ → Bool) (managed : Set ℕ) (v : Cell → ℕ) (log : List Entry)
    (mem : ℕ → ℕ) : Prop :=
  ∀ k ≤ log.length, (logImage v k).isNull = true → (∀ i < k, (logImage v i).isNull = false) →
    (∀ e ∈ log.take k, manages e.addr = true) ∧
      ∀ x ∈ managed, ∀ e, undoJournal.first (log.take k) x = some e → e.byteAt x = mem x

section Cleanup

variable {v : Cell → ℕ} {log : List Entry} {tail : ℕ} {manages : ℕ → Bool} {managed : Set ℕ}

/-- An image of a committed log with some lines zeroed. -/
structure Zeroed (v w : Cell → ℕ) : Prop where
  log : ∀ i, logImage w i = logImage v i ∨ (logImage w i).isNull = true
  mem : memImage w = memImage v

theorem CommittedLog.proper (h : CommittedLog v log tail) {i : ℕ} (hi : i ≤ log.length) :
    (logImage v i).isNull = false ∧ (logImage v i).Proper := by
  rcases Nat.lt_or_eq_of_le hi with hlt | rfl
  · rw [h.entries i hlt]
    obtain ⟨h1, -, h3⟩ := h.data _ (List.getElem_mem hlt)
    exact ⟨Bool.eq_false_iff.mpr fun hn => h1 (Entry.isNull_iff.mp hn).1, Or.inl h3⟩
  · refine ⟨Bool.eq_false_iff.mpr fun hn => ?_, Or.inr h.recordAddr⟩
    have := (Entry.isNull_iff.mp hn).2
    rw [h.recordTail] at this
    cases this

/-- No line of the log is zero: recovery finds the commit record. -/
theorem recover_committed (h : CommittedLog v log tail) {w : Cell → ℕ} (hw : Zeroed v w)
    (hno : ∀ i ≤ log.length, (logImage w i).isNull = false) :
    recoverImage manages w =
      some (undoLogClear (logImage w) (log.length + 1), memImage w, some tail) := by
  have hsame : ∀ i ≤ log.length, logImage w i = logImage v i := fun i hi =>
    (hw.log i).resolve_right fun hn => by
      rw [hno i hi] at hn
      cases hn
  refine recoverImage_commit (undoLogInit_eq h.room ?_ fun i hi => ?_) ?_
  · rcases hw.log (log.length + 1) with he | he
    · rw [he]
      exact h.beyond _ (Nat.lt_succ_self _)
    · exact he
  · rw [hsame i (by omega)]
    exact h.proper (by omega)
  · rw [hsame _ (le_refl _)]
    exact h.recordTail

/-- The first zero line is `k`: recovery sees the data entries before it. -/
theorem recover_zeroed (h : CommittedLog v log tail) {w : Cell → ℕ} (hw : Zeroed v w) {k : ℕ}
    (hk : k ≤ log.length) (hz : (logImage w k).isNull = true)
    (hmin : ∀ i < k, (logImage w i).isNull = false) :
    undoLogInit (logImage w) = some k ∧ (List.range k).map (logImage w) = log.take k := by
  have hsame : ∀ i < k, logImage w i = logImage v i := fun i hi =>
    (hw.log i).resolve_right fun hn => by
      rw [hmin i hi] at hn
      cases hn
  have hroom := h.room
  refine ⟨undoLogInit_eq (by omega) hz fun i hi => ?_, ?_⟩
  · rw [hsame i hi]
    exact h.proper (by omega)
  · refine List.ext_getElem (by simp; omega) fun i h1 h2 => ?_
    rw [List.length_map, List.length_range] at h1
    rw [List.getElem_map, List.getElem_range, List.getElem_take, hsame i h1,
      h.entries i (by omega)]

theorem yieldsCommit_iff (h : CommittedLog v log tail) {w : Cell → ℕ} (hw : Zeroed v w) :
    YieldsCommit manages managed w (memImage v) tail ↔
      UndoesNothing manages managed w log (memImage v) := by
  by_cases hex : ∃ k, k ≤ log.length ∧ (logImage w k).isNull = true
  swap
  · have hno : ∀ i ≤ log.length, (logImage w i).isNull = false := fun i hi =>
      Bool.eq_false_iff.mpr fun hn => hex ⟨i, hi, hn⟩
    refine ⟨fun _ k hk hz _ => absurd ⟨k, hk, hz⟩ hex, fun _ => ?_⟩
    exact ⟨_, _, _, recover_committed h hw hno, fun x _ => by rw [hw.mem], rfl⟩
  classical
  obtain ⟨hk, hz⟩ := Nat.find_spec hex
  have hmin : ∀ i < Nat.find hex, (logImage w i).isNull = false := fun i hi =>
    Bool.eq_false_iff.mpr fun hn => Nat.find_min hex hi ⟨(Nat.le_of_lt hi).trans hk, hn⟩
  generalize Nat.find hex = k at hk hz hmin
  obtain ⟨hinit, hlog⟩ := recover_zeroed h hw hk hz hmin
  have hdata : ∀ e ∈ log.take k, e.addr ≠ 0 ∧ e.addr % 32 = 0 ∧ e.commitTail = 0 := fun e he =>
    h.data e (List.take_subset _ _ he)
  have hreplay : (∀ e ∈ log.take k, manages e.addr = true) → recoverImage manages w =
      some (undoLogClear (logImage w) k, undoJournal.replay (log.take k) (memImage v), none) := by
    intro hm
    rw [← hw.mem]
    exact recoverImage_rollback hinit hlog (fun e he => (hdata e he).2.1) fun e he =>
      ⟨(hdata e he).2.2, (hdata e he).1, hm e he⟩
  have happly : ∀ x, undoJournal.replay (log.take k) (memImage v) x = memImage v x ↔
      ∀ e, undoJournal.first (log.take k) x = some e → e.byteAt x = memImage v x := by
    intro x
    rw [Journal.replay_apply]
    cases undoJournal.first (log.take k) x with
    | none => simp
    | some e => simp [undoJournal]
  constructor
  · intro hyields k' hk' hz' hmin'
    obtain ⟨l, m, r, hrec, hm, -⟩ := hyields
    obtain rfl : k' = k := by
      rcases Nat.lt_trichotomy k' k with hlt | heq | hlt
      · rw [hmin k' hlt] at hz'
        cases hz'
      · exact heq
      · rw [hmin' k hlt] at hz
        cases hz
    have hmanage : ∀ e ∈ log.take k', manages e.addr = true := by
      intro e he
      by_contra hc
      obtain ⟨i, hi, hie⟩ := List.mem_map.mp (hlog ▸ he)
      have hnone : recoverImage manages w = none := by
        refine recoverImage_none hinit (fun j hj => ?_) (List.mem_range.mp hi) (fun ha => hc ?_)
        · exact (hdata _ (hlog ▸ List.mem_map_of_mem (List.mem_range.mpr hj))).2.2
        · rw [← hie]
          exact ha.2.2
      rw [hnone] at hrec
      cases hrec
    refine ⟨hmanage, fun x hx => (happly x).mp ?_⟩
    rw [hreplay hmanage] at hrec
    cases hrec
    exact hm x hx
  · intro hun
    obtain ⟨hmanage, hsame⟩ := hun k hk hz hmin
    exact ⟨_, _, _, hreplay hmanage, fun x hx => (happly x).mpr (hsame x hx), rfl⟩

/-- **A crash during the cleanup of a committed epoch keeps the commit exactly when the entries
    before the first zeroed line undo nothing**: so whenever no line is zero yet, or the first one
    is, and otherwise only if the epoch left the first saved contents of those blocks unchanged. -/
theorem cleanup_crash_iff (h : CommittedLog v log tail) {es : List Event}
    (hes : es <+: clearEvents (log.length + 1)) {s : Machine}
    (hs : Exec lineOf (Memory.start v) es s) :
    YieldsCommit manages managed s.pm (memImage v) tail ↔
      UndoesNothing manages managed s.pm log (memImage v) := by
  obtain ⟨hlog, hmem⟩ := exec_clear (fun ev hev => clearEvent_of_mem (hes.subset hev)) hs
  exact yieldsCommit_iff h ⟨hlog, hmem⟩

end Cleanup

/-- A page at 4096 whose first byte is 7, was 5, and is logged; the commit record has tail 64. -/
def sevenWasFive : Cell → ℕ
  | .mem 4096 => 7
  | .blk 0 0 => 5
  | .addr 0 => 4096
  | .commitTail 1 => 65
  | _ => 0

def fiveLog : List Entry := [logImage sevenWasFive 0]

theorem committedLog_five : CommittedLog sevenWasFive fiveLog 64 where
  entries i h := by
    obtain rfl : i = 0 := by
      have : i < 1 := h
      omega
    rfl
  recordAddr := rfl
  recordTail := rfl
  beyond i hi := by
    have h1 : 1 < i := hi
    obtain ⟨j, rfl⟩ : ∃ j, i = j + 2 := ⟨i - 2, by omega⟩
    rfl
  data e he := by
    rw [List.mem_singleton.mp he]
    decide
  nonempty := List.cons_ne_nil _ _
  room := by decide

/-- A crash in the middle of the cleanup, one line having been written back: line 0 keeps the commit,
    line 1 does not. -/
theorem cleanup_crash_five :
    (∃ es, es <+: clearEvents 2 ∧ ∃ s : Machine, Exec lineOf (Memory.start sevenWasFive) es s ∧
      (logImage s.pm 0).isNull = true ∧ (logImage s.pm 1).isNull = false ∧
      YieldsCommit (Ranges.empty.insert 4096 4096).findPoint (regionPts zeroPage.table) s.pm
        (memImage sevenWasFive) 64) ∧
    ∃ es, es <+: clearEvents 2 ∧ ∃ s : Machine, Exec lineOf (Memory.start sevenWasFive) es s ∧
      (logImage s.pm 0).isNull = false ∧ (logImage s.pm 1).isNull = true ∧
      ¬ YieldsCommit (Ranges.empty.insert 4096 4096).findPoint (regionPts zeroPage.table) s.pm
        (memImage sevenWasFive) 64 := by
  constructor
  · obtain ⟨es, hes, s, hs, hz, hkeep⟩ :=
      @exists_clearing sevenWasFive 2 0 (by decide)
    refine ⟨es, hes, s, hs, hz, by rw [hkeep 1 (by decide)]; rfl, ?_⟩
    -- no entry stands before the first zeroed one
    refine (cleanup_crash_iff committedLog_five hes hs).mpr fun k _ _ hmin => ?_
    obtain rfl : k = 0 := by
      by_contra hk
      rw [hmin 0 (Nat.pos_of_ne_zero hk)] at hz
      cases hz
    exact ⟨fun e he => absurd he List.not_mem_nil, fun x _ e he => nomatch he⟩
  · obtain ⟨es, hes, s, hs, hz, hkeep⟩ :=
      @exists_clearing sevenWasFive 2 1 (by decide)
    have hfirst : (logImage s.pm 0).isNull = false := by
      rw [hkeep 0 (by decide)]
      rfl
    refine ⟨es, hes, s, hs, hfirst, hz, fun hy => ?_⟩
    have hun := (cleanup_crash_iff committedLog_five hes hs).mp hy 1 (le_refl 1) hz fun i hi => by
      rw [Nat.lt_one_iff.mp hi, hfirst]
    exact absurd (hun.2 4096 (by decide) (logImage sevenWasFive 0) rfl) (by decide)

/-- **A crash during the cleanup can undo a commit**: the line of the commit record is zero, the
    line of the entry before it is not, and recovery rolls back. -/
theorem cleanup_crash_undoes_commit :
    ¬ ∀ (d : Files) (t : Tables) (mrm : Manager) (v : Cell → ℕ) (log : List Entry) (tail : ℕ)
      (es : List Event) (s : Machine), Tiled t.table → Manager.new.recover d t = some mrm →
      CommittedLog v log tail → (∀ e ∈ log, e.addr ∈ regionPts t.table) →
      es <+: clearEvents (log.length + 1) → Exec lineOf (Memory.start v) es s →
      YieldsCommit mrm.doesManage (regionPts t.table) s.pm (memImage v) tail := by
  intro H
  obtain ⟨es, hes, s, hs, hz, hkeep⟩ := @exists_clearing sevenWasFive 2 1 (by decide)
  have hy := H ⟨fun _ => true, fun _ _ => 0, fun _ _ => 0⟩ zeroPage
    ⟨zeroPage.table, Ranges.empty.insert 4096 4096⟩ sevenWasFive fiveLog 64 es s zeroPage_tiled rfl
    committedLog_five (fun e he => by
      rw [List.mem_singleton.mp he]
      decide) hes hs
  obtain ⟨hlog, hmem⟩ := exec_clear (fun ev hev => clearEvent_of_mem (hes.subset hev)) hs
  have hun := (yieldsCommit_iff committedLog_five ⟨hlog, hmem⟩).mp hy 1 (le_refl 1) hz
    (fun i hi => by
      rw [Nat.lt_one_iff.mp hi, hkeep 0 (by decide)]
      rfl)
  have hfive := hun.2 4096 (by decide) (logImage sevenWasFive 0) rfl
  exact absurd hfive (by decide)

/-! ## 3. Runs of whole epochs -/

/-- The stores of an epoch and the tail it commits. -/
structure EpochRun where
  stores : List Store
  tail : ℕ

/-- An epoch up to the drain of its commit record. -/
def EpochRun.events (mem : ℕ → ℕ) (ep : EpochRun) : List Event :=
  epochEvents mem ep.stores ++ commitRecordEvents (storesLog [] mem ep.stores).length ep.tail

/-- The cleanup of an epoch: its entries and its commit record. -/
def EpochRun.cleanup (mem : ℕ → ℕ) (ep : EpochRun) : List Event :=
  clearEvents ((storesLog [] mem ep.stores).length + 1)

def epochsEvents : (ℕ → ℕ) → List EpochRun → List Event
  | _, [] => []
  | mem, ep :: eps =>
      ep.events mem ++ ep.cleanup mem ++ epochsEvents (storesMem mem ep.stores) eps

def epochsMem (mem : ℕ → ℕ) (eps : List EpochRun) : ℕ → ℕ :=
  eps.foldl (fun m ep => storesMem m ep.stores) mem

/-- **At rest**: every line of the log is durable and null. -/
structure AtRest (v0 : Cell → ℕ) (es : List Event) : Prop where
  durable : ∀ i, Durable lineOf () es (.log i)
  null : ∀ i, (logImage (viewAfter lineOf es v0) i).isNull = true

theorem touches_commitRecord {n tail i : ℕ} {ev : Event} (h : ev ∈ commitRecordEvents n tail)
    (ht : ev.Touches lineOf (.log i)) : i = n := by
  simp only [commitRecordEvents, List.mem_cons, List.not_mem_nil, or_false] at h
  rcases h with rfl | rfl | rfl | rfl
  · exact (Line.log.inj ht).symm
  · exact (Line.log.inj ht).symm
  · exact absurd ht id
  · exact absurd ht id

theorem touches_commitRecord_mem {n tail m : ℕ} {ev : Event} (h : ev ∈ commitRecordEvents n tail) :
    ¬ ev.Touches lineOf (.mem m) := by
  simp only [commitRecordEvents, List.mem_cons, List.not_mem_nil, or_false] at h
  rcases h with rfl | rfl | rfl | rfl
  · exact fun ht => Line.noConfusion ht
  · exact fun ht => Line.noConfusion ht
  · exact id
  · exact id

section Epochs

variable {v0 : Cell → ℕ} {es : List Event}

/-- The log of an epoch, at the end of its stores and flushes. -/
theorem traced_epoch (hnull : ∀ i, (logImage v0 i).isNull = true) (sts : List Store) :
    Traced v0 (epochEvents (memImage v0) sts) (storesLog [] (memImage v0) sts) := by
  have h : Traced v0 ([] ++ storesEvents [] (memImage v0) sts) _ := traced_stores (Traced.nil hnull) rfl
  rw [List.nil_append] at h
  exact h.app fun ev hev => appEvent_flushEvents hev

theorem memImage_epoch (v : Cell → ℕ) (ep : EpochRun) :
    memImage (viewAfter lineOf (ep.events (memImage v) ++ ep.cleanup (memImage v)) v) =
      storesMem (memImage v) ep.stores := by
  rw [EpochRun.events, epochEvents, List.append_assoc, List.append_assoc, viewAfter_append]
  refine funext fun x => ?_
  rw [memImage_of_not_touches fun ev hev ht => ?_, memImage_storesEvents rfl]
  rcases List.mem_append.mp hev with hev | hev
  · rcases List.mem_append.mp hev with hev | hev
    · obtain ⟨q, -, rfl⟩ := List.mem_map.mp hev
      exact ht
    · obtain rfl := List.mem_singleton.mp hev
      exact ht
  · rcases List.mem_append.mp hev with hev | hev
    · exact touches_commitRecord_mem hev ht
    · rcases clearEvent_of_mem hev with rfl | ⟨i, rfl⟩
      · exact ht
      · exact Line.noConfusion ht

/-- **A whole epoch leaves the log at rest again.** -/
theorem AtRest.epoch (h : AtRest v0 es) (ep : EpochRun) :
    AtRest v0 (es ++ (ep.events (memImage (viewAfter lineOf es v0)) ++
      ep.cleanup (memImage (viewAfter lineOf es v0)))) := by
  have ht := traced_epoch h.null ep.stores
  refine ⟨fun i => (h.durable i).prepend ?_, fun i => ?_⟩
  · rw [EpochRun.cleanup]
    by_cases hi : i < (storesLog [] (memImage (viewAfter lineOf es v0)) ep.stores).length + 1
    · obtain ⟨p, q, hpq, hq⟩ := clearEvents_split hi
      rw [hpq, ← List.append_assoc]
      exact Durable.of_drain ⟨rfl, rfl⟩ hq
    · refine Durable.append ?_ fun ev hev ht => hi (touches_clearEvents hev ht)
      refine (ht.durable i).append fun ev hev ht => ?_
      have := touches_commitRecord hev ht
      omega
  · rw [viewAfter_append, viewAfter_append]
    by_cases hi : i < (storesLog [] (memImage (viewAfter lineOf es v0)) ep.stores).length + 1
    · exact isNull_clearEvents hi _
    · rw [EpochRun.cleanup, logImage_of_not_touches fun ev hev ht => hi (touches_clearEvents hev ht),
        EpochRun.events, viewAfter_append, logImage_of_not_touches fun ev hev ht => ?_]
      · exact ht.beyond _ List.prefix_rfl i (by omega)
      · have := touches_commitRecord hev ht
        omega

theorem AtRest.epochs {eps : List EpochRun} {mem : ℕ → ℕ} (h : AtRest v0 es)
    (hmem : mem = memImage (viewAfter lineOf es v0)) :
    AtRest v0 (es ++ epochsEvents mem eps) ∧
      memImage (viewAfter lineOf (es ++ epochsEvents mem eps) v0) = epochsMem mem eps := by
  induction eps generalizing es mem with
  | nil =>
      rw [epochsEvents, List.append_nil]
      exact ⟨h, hmem.symm⟩
  | cons ep eps ih =>
      subst hmem
      have hmem' : storesMem (memImage (viewAfter lineOf es v0)) ep.stores =
          memImage (viewAfter lineOf (es ++ (ep.events (memImage (viewAfter lineOf es v0)) ++
            ep.cleanup (memImage (viewAfter lineOf es v0)))) v0) := by
        rw [viewAfter_append, memImage_epoch]
      have hstep := ih (h.epoch ep) hmem'
      simpa only [epochsEvents, epochsMem, List.foldl_cons, List.append_assoc] using hstep

end Epochs

/-! ## 4. A completed recovery leaves no entry behind -/

/-- The crash point lies in the `undo_log_record` of the store `st`, before its drain. -/
def InRecord (mem : ℕ → ℕ) (sts : List Store) (es : List Event) (st : Store) : Prop :=
  ∃ sts₁ sts₂, sts = sts₁ ++ st :: sts₂ ∧ storesEvents [] mem sts₁ <+: es ∧
    es <+: storesEvents [] mem sts₁ ++ recordFrom (storesLog [] mem sts₁).length
      ((newBlocks st).map (Entry.save (storesMem mem sts₁)))

/-- Only one entry of the image may be either: those before it are there, those behind it are not. -/
def OneOpen (img : ℕ → Entry) : Prop :=
  ∃ k, (∀ i < k, (img i).isNull = false) ∧ ∀ i, k < i → (img i).isNull = true

/-- **With no hole in the log, clearing up to the first null entry clears it all.** -/
theorem recoverImage_empties {v : Cell → ℕ} (ho : OneOpen (logImage v)) {manages : ℕ → Bool}
    {log : ℕ → Entry} {m : ℕ → ℕ} {r : Option ℕ} (h : recoverImage manages v = some (log, m, r))
    (i : ℕ) : (log i).isNull = true := by
  obtain ⟨n, hinit, h⟩ := Option.bind_eq_some_iff.mp h
  obtain ⟨x, -, hx⟩ := Option.map_eq_some_iff.mp h
  obtain ⟨k, hbefore, hafter⟩ := ho
  obtain ⟨-, hnull, -⟩ := undoLogInit_spec hinit
  cases hx
  unfold undoLogClear
  split
  · rfl
  · rename_i hi
    have hkn : k ≤ n := by
      by_contra hlt
      rw [hbefore n (by omega)] at hnull
      cases hnull
    rcases Nat.eq_or_lt_of_le (Nat.le_of_not_lt hi) with rfl | hlt
    · exact hnull
    · exact hafter i (by omega)

section OneOpen

variable {s1 s : Machine} {ep : EpochRun} {p : List Event}

/-- A crash before the commit record, in a record of at most one block or in none. -/
theorem oneOpen_of_crashAt {full : List Entry} (c : CrashAt s1.cache p full) (hps : c.ps.length ≤ 1)
    (haddr : ∀ e ∈ full, e.addr ≠ 0) (h1 : ∀ i, Synced lineOf s1 (.log i))
    (hs : Exec lineOf s1 p s) : OneOpen (logImage s.pm) := by
  refine ⟨c.log.length, fun i hi => ?_, fun i hi => ?_⟩
  · rw [c.pm_entry h1 hs hi, Bool.eq_false_iff]
    intro hn
    refine haddr _ (c.inFull.subset ?_) (Entry.isNull_iff.mp hn).1
    exact List.mem_append_left _ (List.getElem_mem hi)
  · rcases c.pm_entry_new h1 hs (Nat.le_of_lt hi) with h | h
    · exact h
    · have hlen : (saves c.done s1.cache c.ps).length ≤ 1 := by simpa [saves] using hps
      rw [List.getElem?_eq_none (by omega)] at h
      cases h

/-- A crash while the commit record is written. -/
theorem oneOpen_of_commit (hnull : ∀ i, (logImage s1.cache i).isNull = true) {sts : List Store}
    {tail : ℕ} (haddr : ∀ e ∈ storesLog [] (memImage s1.cache) sts, e.addr ≠ 0) {q : List Event}
    (hq : q <+: commitRecordEvents (storesLog [] (memImage s1.cache) sts).length tail)
    (h1 : ∀ i, Synced lineOf s1 (.log i))
    (hs : Exec lineOf s1 (epochEvents (memImage s1.cache) sts ++ q) s) :
    OneOpen (logImage s.pm) := by
  have ht := traced_epoch hnull sts
  have hkeep : ∀ i, i ≠ (storesLog [] (memImage s1.cache) sts).length →
      logImage s.pm i =
        logImage (viewAfter lineOf (epochEvents (memImage s1.cache) sts) s1.cache) i := by
    intro i hi
    have hq' : ∀ ev ∈ q, ¬ ev.Touches lineOf (.log i) := fun ev hev htt =>
      hi (touches_commitRecord (hq.subset hev) htt)
    rw [logImage_of_synced (exec_synced_of_durable hs (h1 i) ((ht.durable i).append hq')),
      exec_cache hs, viewAfter_append, logImage_of_not_touches hq']
  refine ⟨(storesLog [] (memImage s1.cache) sts).length, fun i hi => ?_, fun i hi => ?_⟩
  · rw [hkeep i (by omega), ht.entries i hi, Bool.eq_false_iff]
    exact fun hn => haddr _ (List.getElem_mem hi) (Entry.isNull_iff.mp hn).1
  · rw [hkeep i (by omega)]
    exact ht.beyond _ List.prefix_rfl i (by omega)

/-- **Everywhere before the cleanup at most one entry is open**, when no record in progress has more
    than one block. -/
theorem oneOpen_epoch (hnull : ∀ i, (logImage s1.cache i).isNull = true)
    (h1 : ∀ i, Synced lineOf s1 (.log i)) (hpage : ∀ st ∈ ep.stores, 4096 ≤ st.addr)
    (hp : p <+: ep.events (memImage s1.cache))
    (hone : ∀ st, InRecord (memImage s1.cache) ep.stores p st → (newBlocks st).length ≤ 1)
    (hs : Exec lineOf s1 p s) : OneOpen (logImage s.pm) := by
  have haddr : ∀ e ∈ storesLog [] (memImage s1.cache) ep.stores, e.addr ≠ 0 := by
    intro e he
    obtain ⟨st, hst, q, hq, hqe, -⟩ := (mem_storesLog he).resolve_left List.not_mem_nil
    unfold newBlocks at hq
    split at hq
    · exact absurd hq List.not_mem_nil
    · have hge := hpage st hst
      have hle := (mem_blocks.mp hq).1
      have hlt := lt_blkStart_add st.addr
      omega
  rcases prefix_append_iff.mp hp with hp | ⟨q, rfl, hq⟩
  · obtain ⟨c, hc⟩ := crashAt_epoch hnull hp
    refine oneOpen_of_crashAt c ?_ haddr h1 hs
    rcases hc with hps | ⟨sts₁, st, sts₂, hsts, hdone, hlog, hps⟩
    · simp [hps]
    · rw [hps]
      rw [List.nil_append] at hdone
      have hpart := c.partial_
      rw [hlog, hps, saves, hdone, memImage_storesEvents rfl] at hpart
      refine hone st ⟨sts₁, sts₂, hsts, ?_, ?_⟩
      · rw [← hdone]
        exact ⟨c.part, c.cut.symm⟩
      · refine prefix_append_iff.mpr (Or.inr ⟨c.part, ?_, hpart⟩)
        rw [← hdone]
        exact c.cut
  · exact oneOpen_of_commit hnull haddr hq h1 hs

end OneOpen

/-- **A completed recovery leaves a truly empty log**, in every run of epochs whose crash is neither
    inside a cleanup nor inside the record of a store that touches several blocks. -/
theorem recovery_empties_log {v0 : Cell → ℕ} (hnull : ∀ i, (logImage v0 i).isNull = true)
    {done : List EpochRun} {ep : EpochRun} (hpage : ∀ st ∈ ep.stores, 4096 ≤ st.addr)
    {p : List Event} (hp : p <+: ep.events (epochsMem (memImage v0) done))
    (hone : ∀ st, InRecord (epochsMem (memImage v0) done) ep.stores p st →
      (newBlocks st).length ≤ 1)
    {s : Machine} (hs : Exec lineOf (Memory.start v0) (epochsEvents (memImage v0) done ++ p) s)
    {manages : ℕ → Bool} {log : ℕ → Entry} {m : ℕ → ℕ} {r : Option ℕ}
    (hrec : recoverImage manages s.pm = some (log, m, r)) (i : ℕ) : (log i).isNull = true := by
  have h0 : AtRest v0 [] := ⟨fun i => Durable.nil, hnull⟩
  obtain ⟨hrest, hmem⟩ : AtRest v0 ([] ++ epochsEvents (memImage v0) done) ∧ _ = _ := h0.epochs rfl
  rw [List.nil_append] at hrest hmem
  obtain ⟨s1, hs1, hs2⟩ := exec_append hs
  have hcache : s1.cache = viewAfter lineOf (epochsEvents (memImage v0) done) v0 := exec_cache hs1
  have hnull1 : ∀ i, (logImage s1.cache i).isNull = true := by
    rw [hcache]
    exact hrest.null
  have hsync1 : ∀ i, Synced lineOf s1 (.log i) := fun i =>
    exec_synced_of_durable hs1 (Synced.start v0 _) (hrest.durable i)
  have hmem1 : epochsMem (memImage v0) done = memImage s1.cache := by
    rw [hcache]
    exact hmem.symm
  rw [hmem1] at hp hone
  exact recoverImage_empties (oneOpen_epoch hnull1 hsync1 hpage hp hone hs2) hrec i

/-- An epoch with one store inside a block. -/
def oneBlock : EpochRun := ⟨[⟨4100, [7]⟩], 64⟩

theorem recovery_empties_oneBlock :
    ∃ s : Machine, Exec lineOf (Memory.start fun _ => 0)
        (epochsEvents (fun _ => 0) [] ++ epochEvents (fun _ => 0) oneBlock.stores) s ∧
      ∃ log m r, recoverImage (Ranges.empty.insert 4096 4096).findPoint s.pm = some (log, m, r) ∧
        ∀ i, (log i).isNull = true := by
  obtain ⟨s, hs⟩ : ∃ s : Machine, Exec lineOf (Memory.start fun _ => 0)
      (epochsEvents (fun _ => 0) [] ++ epochEvents (fun _ => 0) oneBlock.stores) s := exists_exec _ _
  have hnull : ∀ i, (logImage (fun _ => 0) i).isNull = true := fun _ => rfl
  have hpre : epochEvents (fun _ => 0) oneBlock.stores <+:
      oneBlock.events (epochsMem (fun _ => 0) []) := List.prefix_append _ _
  obtain ⟨c, -⟩ := crashAt_epoch hnull (List.prefix_rfl : epochEvents (fun _ => 0) oneBlock.stores <+: _)
  obtain ⟨log, m, hrec, -⟩ : ∃ log m, recoverImage (Ranges.empty.insert 4096 4096).findPoint s.pm =
      some (log, m, none) ∧ _ :=
    CrashAt.rollback c (Synced.start _) hs (by decide) (by decide)
  refine ⟨s, hs, log, m, none, hrec, recovery_empties_log hnull (by decide) hpre (fun st hst => ?_)
    hs hrec⟩
  obtain ⟨sts₁, sts₂, hsts, -⟩ := hst
  have hmem : st ∈ oneBlock.stores := hsts ▸ List.mem_append_right _ List.mem_cons_self
  rw [List.mem_singleton.mp hmem]
  decide

/-- A store across a block border. -/
def twoBlocks : Store := ⟨4126, [1, 2, 3, 4]⟩

/-- **A crash in the record of two blocks can leave an entry behind**: the second line is persistent
    before the first, and recovery clears nothing. -/
theorem recovery_leaves_entry :
    ¬ ∀ (v0 : Cell → ℕ) (done : List EpochRun) (ep : EpochRun) (p : List Event) (s : Machine)
      (manages : ℕ → Bool) (log : ℕ → Entry) (m : ℕ → ℕ) (r : Option ℕ),
      (∀ i, (logImage v0 i).isNull = true) → (∀ st ∈ ep.stores, 4096 ≤ st.addr) →
      p <+: ep.events (epochsMem (memImage v0) done) →
      Exec lineOf (Memory.start v0) (epochsEvents (memImage v0) done ++ p) s →
      recoverImage manages s.pm = some (log, m, r) →
      ∀ i < undoNumEntries, (log i).isNull = true := by
  intro H
  let new : List Entry := (newBlocks twoBlocks).map (Entry.save fun _ => 0)
  let ep : EpochRun := ⟨[twoBlocks], 64⟩
  obtain ⟨s, hs, hpm⟩ : ∃ s : Machine, Exec lineOf (Memory.start fun _ => 0) (recordFrom 0 new) s ∧
      s.pm = fun _ => 0 := exists_exec_of_noDrain fun ev hev _ => noDrain_recordFrom hev
  have hcache : s.cache = viewAfter lineOf (recordFrom 0 new) fun _ => 0 := exec_cache hs
  have hzero : (logImage (s.evict lineOf (.log 1)).pm 0).isNull = true := by
    show (logImage s.pm 0).isNull = true
    rw [hpm]
    rfl
  have hone : (logImage (s.evict lineOf (.log 1)).pm 1).isNull = false := by
    show (logImage s.cache 1).isNull = false
    rw [hcache]
    have h := logImage_recordFrom (k := 0) (v := fun _ => 0) (show 1 < new.length by decide)
    rw [Nat.zero_add] at h
    rw [h]
    decide
  have hinit : undoLogInit (logImage (s.evict lineOf (.log 1)).pm) = some 0 :=
    undoLogInit_eq (by decide) hzero fun j hj => absurd hj (Nat.not_lt_zero j)
  have hrec : recoverImage (fun _ => true) (s.evict lineOf (.log 1)).pm = _ :=
    recoverImage_rollback hinit rfl (fun e he => absurd he List.not_mem_nil)
      fun e he => absurd he List.not_mem_nil
  have hpre : recordFrom 0 new <+: ep.events fun _ => 0 := by
    have hrecord : recordEvents Ranges.empty (fun _ => 0) 0 twoBlocks.addr twoBlocks.bytes.length =
        recordFrom 0 new ++ [.drain ()] := recordEvents_eq _ 0 twoBlocks
    have h1 : recordFrom 0 new <+: storesEvents [] (fun _ => 0) [twoBlocks] := by
      rw [storesEvents, List.length_nil, hrecord]
      simp only [List.append_assoc]
      exact List.prefix_append _ _
    exact h1.trans ((List.prefix_append _ _).trans (List.prefix_append _ _))
  have hnull := H (fun _ => 0) [] ep (recordFrom 0 new) (s.evict lineOf (.log 1)) (fun _ => true)
    _ _ _ (fun _ => rfl) (by decide) hpre (.evict _ hs) hrec 1 (by decide)
  rw [undoLogClear, if_neg (Nat.not_lt_zero 1), hone] at hnull
  cases hnull

end Persimmon
