/-
  File:      Persimmon/ClearStores.lean
  Subject:   `undo_log_clear` BY THE STORES IT REALLY MAKES (src/undo/undo_log.h,
             src/undo/memset_nt_avx.cc).

  `clearEvents` (`LogTrace.lean`) zeroes a line at once. `pmem_memset` writes it by two non-temporal
  stores, of the block and of the rest of the entry, and nothing joins the two: the line can be
  written back between them. Here the clear is the list of those stores.

  * `putEvents`, `clearStores` -- the stores of `memset_movnt_avx` as events on the log's cells;
    `clearStores_eq` -- they are two for each entry, block first;
  * `logImage_clearStores` -- they leave what `undo_log_clear` is to leave;
  * `Restored` -- a rollback behind its drain; `recover_torn` -- what the next recovery makes of it;
  * `clear_loses_iff` -- a crash in the clear can cost a byte exactly when its block is in the log
    and the byte is not 0.
-/
import Persimmon.Memset
import Persimmon.RollbackRetry

namespace Persimmon

open PersistentMemory UndoReplay

/-! ## 1. The stores as events -/

/-- The cells of an entry, and where in the entry they begin. -/
def entryCells (i : ℕ) : List (ℕ × Cell) :=
  (List.finRange 32).map (fun j => (j.val, .blk i j)) ++ [(32, .addr i), (40, .commitTail i)]

/-- A non-temporal store of zeros into the log, which lies at `log`: visible at once, persistent by
    the next drain. -/
def putEvents (log : ℕ) (p : Put) : List Event :=
  let i := (p.addr - log) / 64
  let off := (p.addr - log) % 64
  ((entryCells i).filter fun c => decide (off ≤ c.1 ∧ c.1 < off + p.size)).map
    (fun c => .store c.2 0) ++ [.flush () (.log i)]

/-- **`undo_log_clear`** of `n` entries of the log at `log`; no result when an assertion of
    `pmem_memset` fails. -/
def clearStores (log n : ℕ) : Option (List Event) :=
  (memsetMovntAvx log (64 * n)).map fun ps => ps.flatMap (putEvents log) ++ [.drain ()]

/-- The store of an entry's block. -/
def blkStores (i : ℕ) : List Event :=
  (List.finRange 32).map (fun j => .store (.blk i j) 0) ++ [.flush () (.log i)]

/-- The store of the rest of an entry. -/
def fieldStores (i : ℕ) : List Event :=
  [.store (.addr i) 0, .store (.commitTail i) 0, .flush () (.log i)]

theorem putEvents_blk (log i : ℕ) : putEvents log ⟨true, log + 64 * i, 32⟩ = blkStores i := by
  have hi : (log + 64 * i - log) / 64 = i := by omega
  have hoff : (log + 64 * i - log) % 64 = 0 := by omega
  have hall : ((List.finRange 32).map fun j => ((j.val, .blk i j) : ℕ × Cell)).filter
      (fun c => decide (0 ≤ c.1 ∧ c.1 < 0 + 32)) =
        (List.finRange 32).map fun j => ((j.val, .blk i j) : ℕ × Cell) := by
    refine List.filter_eq_self.mpr fun c hc => ?_
    obtain ⟨j, -, rfl⟩ := List.mem_map.mp hc
    have := j.isLt
    exact decide_eq_true ⟨by omega, by dsimp only; omega⟩
  simp only [putEvents, hi, hoff, entryCells, List.filter_append, hall]
  simp [blkStores]

theorem putEvents_fields (log i : ℕ) :
    putEvents log ⟨true, log + 64 * i + 32, 32⟩ = fieldStores i := by
  have hi : (log + 64 * i + 32 - log) / 64 = i := by omega
  have hoff : (log + 64 * i + 32 - log) % 64 = 32 := by omega
  have hnone : ((List.finRange 32).map fun j => ((j.val, .blk i j) : ℕ × Cell)).filter
      (fun c => decide (32 ≤ c.1 ∧ c.1 < 32 + 32)) = [] := by
    refine List.filter_eq_nil_iff.mpr fun c hc => ?_
    obtain ⟨j, -, rfl⟩ := List.mem_map.mp hc
    have := j.isLt
    simp only [decide_eq_true_eq]
    omega
  simp only [putEvents, hi, hoff, entryCells, List.filter_append, hnone]
  simp [fieldStores]

/-- **The clear is two stores for each entry**, the block first, and a drain: the log is aligned to
    a line (asserted in `undo_log_init`). -/
theorem clearStores_eq {log : ℕ} (h : log % 64 = 0) (n : ℕ) :
    clearStores log n =
      some ((List.range n).flatMap (fun i => blkStores i ++ fieldStores i) ++ [.drain ()]) := by
  unfold clearStores
  rw [memsetMovntAvx_lines h, Option.map_some, linePuts, List.flatMap_assoc]
  simp only [List.flatMap_cons, List.flatMap_nil, List.append_nil, putEvents_blk, putEvents_fields]

/-! ## 2. What they leave, finished or not -/

/-- A store of 0 to a cell of the log, a flush or a drain. -/
def ZeroEvent (ev : Event) : Prop :=
  (∃ c i, ev = .store c 0 ∧ lineOf c = .log i) ∨ (∃ l, ev = .flush () l) ∨ ev = .drain ()

theorem zeroEvent_of_mem {log n : ℕ} (hlog : log % 64 = 0) {es : List Event}
    (h : clearStores log n = some es) : ∀ ev ∈ es, ZeroEvent ev := by
  rw [clearStores_eq hlog] at h
  obtain rfl := Option.some.inj h
  intro ev hev
  rcases List.mem_append.mp hev with hev | hev
  · obtain ⟨i, -, hev⟩ := List.mem_flatMap.mp hev
    rcases List.mem_append.mp hev with hev | hev
    · rcases List.mem_append.mp hev with hev | hev
      · obtain ⟨j, -, rfl⟩ := List.mem_map.mp hev
        exact Or.inl ⟨_, i, rfl, rfl⟩
      · exact Or.inr (Or.inl ⟨_, List.mem_singleton.mp hev⟩)
    · simp only [fieldStores, List.mem_cons, List.not_mem_nil, or_false] at hev
      rcases hev with rfl | rfl | rfl
      · exact Or.inl ⟨_, i, rfl, rfl⟩
      · exact Or.inl ⟨_, i, rfl, rfl⟩
      · exact Or.inr (Or.inl ⟨_, rfl⟩)
  · exact Or.inr (Or.inr (List.mem_singleton.mp hev))

section Zero

variable {es : List Event} {v : Cell → ℕ}

/-- A cell holds what it held, or 0; a byte of memory what it held. -/
theorem viewAfter_zero (h : ∀ ev ∈ es, ZeroEvent ev) (c : Cell) :
    viewAfter lineOf es v c = v c ∨ viewAfter lineOf es v c = 0 ∧ ∃ i, lineOf c = .log i := by
  induction es generalizing v with
  | nil => exact Or.inl rfl
  | cons ev es ih =>
      have hes := fun ev' h' => h ev' (List.mem_cons_of_mem _ h')
      rw [viewAfter_cons]
      rcases h ev List.mem_cons_self with ⟨d, i, rfl, hd⟩ | ⟨l, rfl⟩ | rfl
      · rcases ih hes (v := Ev.view lineOf (Ev.store d 0) v) with he | he
        · by_cases hcd : c = d
          · subst hcd
            exact Or.inr ⟨he.trans (Function.update_self _ _ _), i, hd⟩
          · exact Or.inl (he.trans (Function.update_of_ne hcd _ _))
        · exact Or.inr he
      · exact ih hes
      · exact ih hes

variable {s : Machine}

theorem pm_zero (h : ∀ ev ∈ es, ZeroEvent ev) (hs : Exec lineOf (Memory.start v) es s) (c : Cell) :
    s.pm c = v c ∨ s.pm c = 0 ∧ ∃ i, lineOf c = .log i := by
  obtain ⟨p, hp, he⟩ := exec_prefix hs (Synced.start v (lineOf c))
  rw [he c rfl]
  exact viewAfter_zero (fun ev hev => h ev (hp.subset hev)) c

theorem memImage_pm_zero (h : ∀ ev ∈ es, ZeroEvent ev)
    (hs : Exec lineOf (Memory.start v) es s) : memImage s.pm = memImage v :=
  funext fun x => (pm_zero h hs (.mem x)).resolve_right fun ⟨_, _, hl⟩ => Line.noConfusion hl

end Zero

/-- The stores to one entry. -/
theorem logImage_blkStores (i k : ℕ) (v : Cell → ℕ) :
    logImage (viewAfter lineOf (blkStores i) v) k =
      if k = i then ⟨fun _ => 0, (logImage v i).addr, (logImage v i).commitTail⟩ else logImage v k := by
  have hblk : ∀ j, viewAfter lineOf (blkStores i) v (.blk i j) = 0 := fun j => by
    rw [blkStores, viewAfter_append]
    refine (viewAfter_stores (f := fun j => Cell.blk i j) (fun a b e => (Cell.blk.inj e).2)
      (fun _ => 0) _ v j).trans ?_
    rw [if_pos (List.mem_finRange j)]
  have hother : ∀ c, (∀ j, c ≠ Cell.blk i j) → viewAfter lineOf (blkStores i) v c = v c :=
    fun c hc => by
      rw [blkStores, viewAfter_append]
      exact viewAfter_stores_of_ne hc (fun _ => 0) _ v
  split_ifs with hk
  · subst hk
    simp only [logImage, hblk, hother (.addr k) fun j e => Cell.noConfusion e,
      hother (.commitTail k) fun j e => Cell.noConfusion e]
  · simp only [logImage, hother (.addr k) fun j e => Cell.noConfusion e,
      hother (.commitTail k) fun j e => Cell.noConfusion e,
      fun j => hother (.blk k j) fun j' e => hk (Cell.blk.inj e).1]

theorem logImage_fieldStores (i k : ℕ) (v : Cell → ℕ) :
    logImage (viewAfter lineOf (fieldStores i) v) k =
      if k = i then ⟨(logImage v i).blk, 0, 0⟩ else logImage v k := by
  split_ifs with hk
  · subst hk
    simp [fieldStores, logImage, Ev.view]
  · simp [fieldStores, logImage, Ev.view, hk]

theorem logImage_entryStores (i k : ℕ) (v : Cell → ℕ) :
    logImage (viewAfter lineOf (blkStores i ++ fieldStores i) v) k =
      if k = i then Entry.null else logImage v k := by
  rw [viewAfter_append, logImage_fieldStores]
  split_ifs with hk
  · rw [logImage_blkStores, if_pos rfl]
    rfl
  · rw [logImage_blkStores, if_neg hk]

/-- **The stores leave what `undo_log_clear` is to leave**: null entries, and the memory as it was. -/
theorem logImage_clearStores {log n : ℕ} (hlog : log % 64 = 0) {es : List Event}
    (h : clearStores log n = some es) (v : Cell → ℕ) :
    logImage (viewAfter lineOf es v) = undoLogClear (logImage v) n ∧
      memImage (viewAfter lineOf es v) = memImage v := by
  refine ⟨?_, funext fun x => (viewAfter_zero (zeroEvent_of_mem hlog h) (.mem x)).resolve_right
    fun ⟨_, _, hl⟩ => Line.noConfusion hl⟩
  rw [clearStores_eq hlog] at h
  obtain rfl := Option.some.inj h
  rw [viewAfter_append]
  show logImage (viewAfter lineOf _ v) = _
  funext k
  clear h
  induction n with
  | zero => simp [undoLogClear]
  | succ n ih =>
      rw [List.range_succ, List.flatMap_append, viewAfter_append, List.flatMap_singleton,
        logImage_entryStores, ih]
      unfold undoLogClear
      by_cases hk : k = n
      · subst hk
        simp
      · rw [if_neg hk]
        exact if_congr (by omega) rfl rfl

/-! ## 3. The recovery after a crash in the clear -/

/-- **A rollback behind its drain**: the log is still there, and every byte holds its committed
    contents. -/
structure Restored (v : Cell → ℕ) (log : List Entry) (committed : ℕ → ℕ) : Prop extends
    SavesCommitted log committed where
  entries : ∀ i (h : i < log.length), logImage v i = log[i]
  beyond : ∀ i, log.length ≤ i → (logImage v i).isNull = true
  mem : ∀ x, memImage v x = committed x

section Torn

variable {manages : ℕ → Bool} {v w : Cell → ℕ} {log : List Entry} {committed : ℕ → ℕ} {x : ℕ}

/-- The first entry of the block of `x`, by its index. -/
theorem first_eq_some_iff {log : List Entry} {x : ℕ} {e : Entry} :
    undoJournal.first log x = some e ↔
      ∃ i, ∃ h : i < log.length, log[i] = e ∧ e.addr = blkStart x ∧
        ∀ j (_ : j < log.length), j < i → log[j].addr ≠ blkStart x := by
  unfold Journal.first
  rw [List.find?_eq_some_iff_getElem]
  simp only [Bool.not_eq_true']
  constructor
  · rintro ⟨hkey, i, hi, he, hno⟩
    exact ⟨i, hi, he, of_decide_eq_true hkey, fun j _ hj => of_decide_eq_false (hno j hj)⟩
  · rintro ⟨i, hi, he, hkey, hno⟩
    exact ⟨decide_eq_true hkey, i, hi, he, fun j hj => decide_eq_false (hno j (hj.trans hi) hj)⟩

/-- **What the next recovery does** with a log some of whose cells are 0: it finds no commit record,
    and replays the entries before the first null one, whose addresses are as they were. -/
theorem recover_torn (h : Restored v log committed)
    (hw : ∀ c, w c = v c ∨ w c = 0 ∧ ∃ i, lineOf c = .log i)
    (hmanages : ∀ e ∈ log, manages e.addr = true) :
    ∃ k ≤ log.length, (logImage w k).isNull = true ∧
      (∀ i (hi : i < log.length), i < k → (logImage w i).addr = log[i].addr) ∧
      recoverImage manages w = some (undoLogClear (logImage w) k,
        undoJournal.replay ((List.range k).map (logImage w)) committed, none) := by
  have hmem : memImage w = committed := funext fun y =>
    ((hw (.mem y)).resolve_right fun ⟨_, _, hl⟩ => Line.noConfusion hl).trans (h.mem y)
  have hnull : ∃ k, (logImage w k).isNull = true := by
    refine ⟨log.length, ?_⟩
    have hv := Entry.isNull_iff.mp (h.beyond log.length (le_refl _))
    refine Entry.isNull_iff.mpr ⟨?_, ?_⟩
    · rcases hw (.addr log.length) with he | he
      · exact he.trans hv.1
      · exact he.1
    · rcases hw (.commitTail log.length) with he | he
      · exact he.trans hv.2
      · exact he.1
  classical
  have hz := Nat.find_spec hnull
  have hmin : ∀ i < Nat.find hnull, (logImage w i).isNull = false := fun i hi =>
    Bool.eq_false_iff.mpr (Nat.find_min hnull hi)
  generalize Nat.find hnull = k at hz hmin
  have hct : ∀ i (hi : i < log.length), (logImage w i).commitTail = 0 := fun i hi => by
    rcases hw (.commitTail i) with he | he
    · have hv : (logImage v i).commitTail = 0 := by
        rw [h.entries i hi]
        exact (h.data _ (List.getElem_mem hi)).2.2
      exact he.trans hv
    · exact he.1
  have hk : k ≤ log.length := by
    by_contra hlt
    have hv := Entry.isNull_iff.mp (h.beyond log.length (le_refl _))
    have hne := hmin log.length (by omega)
    rw [Bool.eq_false_iff] at hne
    refine hne (Entry.isNull_iff.mpr ⟨?_, ?_⟩)
    · exact (hw (.addr log.length)).elim (fun he => he.trans hv.1) fun he => he.1
    · exact (hw (.commitTail log.length)).elim (fun he => he.trans hv.2) fun he => he.1
  have haddr : ∀ i (hi : i < log.length), i < k → (logImage w i).addr = log[i].addr := by
    intro i hi hik
    rcases hw (.addr i) with he | he
    · exact he.trans (congrArg Entry.addr (h.entries i hi))
    · -- a data entry without its address is null
      have hnull' : (logImage w i).isNull = true := Entry.isNull_iff.mpr ⟨he.1, hct i hi⟩
      rw [hmin i hik] at hnull'
      cases hnull'
  have hroom := h.room
  have hinit : undoLogInit (logImage w) = some k :=
    undoLogInit_eq (by omega) hz fun i hi => ⟨hmin i hi, Or.inl (hct i (by omega))⟩
  refine ⟨k, hk, hz, haddr, hmem ▸ recoverImage_rollback hinit rfl ?_ ?_⟩
  · intro e he
    obtain ⟨i, hi, rfl⟩ := List.mem_map.mp he
    have hik := List.mem_range.mp hi
    rw [haddr i (by omega) hik]
    exact (h.data _ (List.getElem_mem _)).2.1
  · intro e he
    obtain ⟨i, hi, rfl⟩ := List.mem_map.mp he
    have hik := List.mem_range.mp hi
    have ha := haddr i (by omega) hik
    refine ⟨hct i (by omega), ?_, ?_⟩
    · rw [ha]
      exact (h.data _ (List.getElem_mem _)).1
    · rw [ha]
      exact hmanages _ (List.getElem_mem _)

/-- A byte comes back as it was committed, or as a 0 that took its place in the log. -/
theorem replay_torn (h : Restored v log committed)
    (hw : ∀ c, w c = v c ∨ w c = 0 ∧ ∃ i, lineOf c = .log i) {k : ℕ} (hk : k ≤ log.length)
    (haddr : ∀ i (hi : i < log.length), i < k → (logImage w i).addr = log[i].addr) :
    undoJournal.replay ((List.range k).map (logImage w)) committed x = committed x ∨
      undoJournal.replay ((List.range k).map (logImage w)) committed x = 0 ∧
        undoJournal.Logged log x := by
  rw [Journal.replay_apply]
  cases hfirst : undoJournal.first ((List.range k).map (logImage w)) x with
  | none => exact Or.inl rfl
  | some e =>
      obtain ⟨i, hi, rfl, hkey, hno⟩ := first_eq_some_iff.mp hfirst
      simp only [List.length_map, List.length_range] at hi
      simp only [List.getElem_map, List.getElem_range] at hkey hno ⊢
      have hil : i < log.length := by omega
      rw [haddr i hil hi] at hkey
      have hlog : undoJournal.first log x = some log[i] :=
        first_eq_some_iff.mpr ⟨i, hil, rfl, hkey, fun j hjl hj => by
          rw [← haddr j hjl (by omega)]
          exact hno j (by rw [List.length_map, List.length_range]; omega) hj⟩
      have hsaved : log[i].byteAt x = committed x := h.first x _ hlog
      have hbyte : (logImage w i).byteAt x = log[i].byteAt x ∨ (logImage w i).byteAt x = 0 := by
        simp only [Entry.byteAt, haddr i hil hi]
        rcases hw (.blk i ⟨(x - log[i].addr) % 32, Nat.mod_lt _ (by decide)⟩) with he | he
        · exact Or.inl (he.trans (congrFun (congrArg Entry.blk (h.entries i hil)) _))
        · exact Or.inr he.1
      refine hbyte.imp (fun he => ?_) fun he => ⟨he, Journal.first_isSome.mp ?_⟩
      · exact he.trans hsaved
      · rw [hlog]
        rfl

end Torn

/-! ## 4. What a crash in the clear can cost -/

section Loss

variable {manages : ℕ → Bool} {v : Cell → ℕ} {log : List Entry} {committed : ℕ → ℕ}

/-- **The byte is lost** in some crash in the middle of the clear: the recovery after it completes,
    returns -1, and leaves another byte. -/
def Loses (manages : ℕ → Bool) (v : Cell → ℕ) (es : List Event) (committed : ℕ → ℕ) (x : ℕ) : Prop :=
  ∃ p s undone mem, p <+: es ∧ Exec lineOf (Memory.start v) p s ∧
    recoverImage manages s.pm = some (undone, mem, none) ∧ mem x ≠ committed x

/-- The crash that loses the bytes of entry `i`: its block is stored and written back, nothing
    else is. -/
theorem exists_blk_lost {base n i : ℕ} (hlog : base % 64 = 0) (hi : i < n) {es : List Event}
    (hes : clearStores base n = some es) (v : Cell → ℕ) :
    ∃ p, ∃ s : Machine, p <+: es ∧ Exec lineOf (Memory.start v) p s ∧ memImage s.pm = memImage v ∧
      ∀ k, logImage s.pm k =
        if k = i then ⟨fun _ => 0, (logImage v i).addr, (logImage v i).commitTail⟩
        else logImage v k := by
  have hzero := zeroEvent_of_mem hlog hes
  rw [clearStores_eq hlog] at hes
  obtain rfl := Option.some.inj hes
  let before : List Event := (List.range i).flatMap fun j => blkStores j ++ fieldStores j
  let behind : List Event := fieldStores i ++
    ((List.range (n - i - 1)).map (i + 1 + ·)).flatMap fun j => blkStores j ++ fieldStores j
  have hsplit : (List.range n).flatMap (fun j => blkStores j ++ fieldStores j) =
      before ++ (blkStores i ++ behind) := by
    have hn : n = i + 1 + (n - i - 1) := by omega
    conv_lhs => rw [hn, List.range_add, List.range_succ]
    simp [before, behind]
  have hpre : before ++ blkStores i <+:
      (List.range n).flatMap (fun j => blkStores j ++ fieldStores j) ++ [.drain ()] := by
    rw [hsplit]
    exact ⟨behind ++ [.drain ()], by simp only [List.append_assoc]⟩
  have hnodrain : ∀ ev ∈ before ++ blkStores i, ∀ t, ev ≠ .drain t := by
    intro ev hev t
    rcases List.mem_append.mp hev with hev | hev
    · obtain ⟨j, -, hev⟩ := List.mem_flatMap.mp hev
      rintro rfl
      simp [blkStores, fieldStores] at hev
    · rintro rfl
      simp [blkStores] at hev
  obtain ⟨s, hs, hpm⟩ : ∃ s : Machine, Exec lineOf (Memory.start v) (before ++ blkStores i) s ∧
      s.pm = v := exists_exec_of_noDrain hnodrain
  have hexec : Exec lineOf (Memory.start v) (before ++ blkStores i) (s.evict lineOf (.log i)) :=
    .evict _ hs
  refine ⟨_, _, hpre, hexec, memImage_pm_zero (fun ev hev => hzero ev (hpre.subset hev)) hexec,
    fun k => ?_⟩
  have hcache : s.cache = viewAfter lineOf (before ++ blkStores i) v := exec_cache hs
  by_cases hk : k = i
  · subst hk
    rw [if_pos rfl]
    have hview : logImage (s.evict lineOf (.log k)).pm k = logImage s.cache k := by
      simp [logImage, Memory.evict, lineOf]
    have hbefore : ∀ c, lineOf c = .log k → viewAfter lineOf before v c = v c := by
      intro c hc
      refine viewAfter_other (fun ev hev ht => ?_) v
      obtain ⟨j, hj, hev⟩ := List.mem_flatMap.mp hev
      have hjk := List.mem_range.mp hj
      rw [hc] at ht
      have : ev.Touches lineOf (.log k) → j = k := by
        rcases List.mem_append.mp hev with hev | hev
        · rcases List.mem_append.mp hev with hev | hev
          · obtain ⟨b, -, rfl⟩ := List.mem_map.mp hev
            exact fun h => Line.log.inj h
          · rw [List.mem_singleton.mp hev]
            exact fun h => h.elim
        · simp only [fieldStores, List.mem_cons, List.not_mem_nil, or_false] at hev
          rcases hev with rfl | rfl | rfl
          · exact fun h => Line.log.inj h
          · exact fun h => Line.log.inj h
          · exact fun h => h.elim
      have := this ht
      omega
    rw [hview, hcache, viewAfter_append, logImage_blkStores, if_pos rfl]
    simp only [logImage, hbefore (.addr k) rfl, hbefore (.commitTail k) rfl]
  · rw [if_neg hk]
    have hview : logImage (s.evict lineOf (.log i)).pm k = logImage s.pm k := by
      simp [logImage, Memory.evict, lineOf, hk]
    rw [hview, hpm]

/-- **A crash in the clear can cost exactly the bytes of logged blocks that are not 0**: the line of
    an entry is written back between the two stores to it, and the next recovery replays a block of
    zeros. -/
theorem clear_loses_iff (h : Restored v log committed)
    (hmanages : ∀ e ∈ log, manages e.addr = true) {base : ℕ} (hlog : base % 64 = 0) {es : List Event}
    (hes : clearStores base log.length = some es) (x : ℕ) :
    Loses manages v es committed x ↔ undoJournal.Logged log x ∧ committed x ≠ 0 := by
  have hzero := zeroEvent_of_mem hlog hes
  constructor
  · rintro ⟨p, s, undone, mem, hp, hs, hrec, hx⟩
    have hw := pm_zero (fun ev hev => hzero ev (hp.subset hev)) hs
    obtain ⟨k, hk, -, haddr, hrec'⟩ := recover_torn h hw hmanages
    rw [hrec] at hrec'
    simp only [Option.some.injEq, Prod.mk.injEq] at hrec'
    obtain ⟨-, rfl, -⟩ := hrec'
    rcases replay_torn h hw hk haddr (x := x) with he | ⟨he, hl⟩
    · exact absurd he hx
    · exact ⟨hl, fun h0 => hx (he.trans h0.symm)⟩
  · rintro ⟨hl, hx⟩
    obtain ⟨e, hfirst⟩ := Option.isSome_iff_exists.mp (Journal.first_isSome.mpr hl)
    obtain ⟨i, hi, rfl, hkey, hno⟩ := first_eq_some_iff.mp hfirst
    obtain ⟨p, s, hp, hs, -, himage⟩ := exists_blk_lost hlog hi hes v
    have hw := pm_zero (fun ev hev => hzero ev (hp.subset hev)) hs
    obtain ⟨k, hk, hnull, haddr, hrec⟩ := recover_torn h hw hmanages
    have hfields : ∀ j (hj : j < log.length), (logImage s.pm j).addr = log[j].addr := by
      intro j hj
      rw [himage j]
      split_ifs with hji
      · subst hji
        rw [h.entries j hj]
      · rw [h.entries j hj]
    -- no entry is null, so all of them are replayed
    obtain rfl : k = log.length := by
      by_contra hne
      have ha := (Entry.isNull_iff.mp hnull).1
      rw [hfields k (by omega)] at ha
      exact (h.data _ (List.getElem_mem _)).1 ha
    refine ⟨p, s, _, _, hp, hs, hrec, ?_⟩
    have hfirst' : undoJournal.first ((List.range log.length).map (logImage s.pm)) x =
        some (logImage s.pm i) := by
      refine first_eq_some_iff.mpr ⟨i, by simpa using hi, by simp, ?_, fun j _ hj => ?_⟩
      · rw [hfields i hi]
        exact hkey
      · simp only [List.getElem_map, List.getElem_range]
        rw [hfields j (hj.trans hi)]
        exact hno j (hj.trans hi) hj
    rw [Journal.replay_apply, hfirst', himage i, if_pos rfl]
    exact fun h0 => hx h0.symm

end Loss

/-- The page at 4096, whose first byte is a 5 again and logged. -/
def fiveRestored : Cell → ℕ
  | .mem x => fiveCommitted x
  | c => fiveUncommitted c

theorem fiveRestored_restored :
    Restored fiveRestored [logImage fiveUncommitted 0] fiveCommitted :=
  ⟨fiveUncommitted_uncommitted.toSavesCommitted, fiveUncommitted_uncommitted.entries,
    fiveUncommitted_uncommitted.beyond, fun _ => rfl⟩

/-- The 5 can be lost, the 0 behind it cannot. -/
theorem clear_loses_five :
    ∃ es, clearStores 65536 1 = some es ∧
      Loses (fun _ => true) fiveRestored es fiveCommitted 4096 ∧
      ¬ Loses (fun _ => true) fiveRestored es fiveCommitted 4097 := by
  obtain ⟨es, hes⟩ : ∃ es, clearStores 65536 1 = some es := ⟨_, clearStores_eq (by decide) 1⟩
  have h : ∀ x, Loses (fun _ => true) fiveRestored es fiveCommitted x ↔ _ :=
    clear_loses_iff fiveRestored_restored (fun _ _ => rfl) (by decide) hes
  exact ⟨es, hes, (h 4096).mpr ⟨⟨_, List.mem_singleton_self _, rfl⟩, by decide⟩,
    fun hl => ((h 4097).mp hl).2 rfl⟩

end Persimmon
