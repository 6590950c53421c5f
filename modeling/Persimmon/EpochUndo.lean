/-
  File:      Persimmon/EpochUndo.lean
  Subject:   AN EPOCH CAN BE UNDONE, AND COMMITTED: from its region files, its undo log and the last
             committed region table.

  `Undone I e` says that the epoch `e` began in the image `I` and that `I` can still be had back:
  replaying the undo log over the files of `I`'s regions, over what is persistent of them as well
  as over what the processes see, gives the bytes of `I`. It says as much of the regions in use,
  since what is logged next is read from them.

  * `Recoverable` -- the condition on an operation: it is that of `commit_flushes_stored`, and a
    store that is logged touches no memory mapped since the last commit;
  * `IsNew`, `IsOld` -- a region in use is mapped since the last commit, or is what an `munmap` left
    of a committed one;
  * `undone_apply` -- every operation keeps `Undone`; `Undone.evict` -- so does every write-back;
  * `Undone.rollback_image`, `Undone.commit_image` -- the image after a rollback, after a commit.
-/
import Persimmon.Image
import Persimmon.Recovery

namespace Persimmon

open UndoReplay

/-! ## 1. The condition -/

/-- A store that `undo_log_record` logs touches no memory mapped since the last commit. -/
def LogsOld (e : Epoch) : Op → Prop
  | .store addr bytes =>
      e.fresh.find addr bytes.length = true ∨ ∀ i < bytes.length, e.newly (addr + i) = false
  | .mmap _ _ _ => True
  | .munmap _ _ _ _ => True

instance (e : Epoch) (op : Op) : Decidable (LogsOld e op) :=
  match op with
  | .store _ _ => inferInstanceAs (Decidable (_ ∨ _))
  | .mmap _ _ _ => isTrue trivial
  | .munmap _ _ _ _ => isTrue trivial

/-- **The condition on an operation**: it stores to managed memory, logs no new memory, and drops no
    fresh range that holds the only trace of a stored byte. -/
def Recoverable (e : Epoch) (op : Op) : Prop := StoresManaged e op ∧ LogsOld e op ∧ KeepsDirty e op

instance (e : Epoch) (op : Op) : Decidable (Recoverable e op) :=
  inferInstanceAs (Decidable (_ ∧ _ ∧ _))

/-! ## 2. The invariant -/

/-- A region mapped since the last commit, in a file of its own. -/
structure IsNew (I : Image) (newly : ℕ → Bool) (q : Region) : Prop where
  newly : ∀ x ∈ q.pts, newly x = true
  file : ∀ r ∈ I.regions, r.fileName ≠ q.fileName

/-- A committed region, or what an `munmap` left of one, in a file of its own. -/
structure IsOld (I : Image) (newly : ℕ → Bool) (q : Region) : Prop where
  newly : ∀ x ∈ q.pts, newly x = false
  inside : ∃ r ∈ I.regions, r.base ≤ q.base ∧ q.stop ≤ r.stop ∧
    (q.stop = r.stop ∨ q.stop % 4096 = 0)

/-- What a replay of the log over `content` gives at `x` is the byte of the image. -/
def Restores (I : Image) (log : List Entry) (content : ℕ → ℕ) (x : ℕ) : Prop :=
  I.mem x = some (undoJournal.replay log content x)

/-- A data entry that recovery accepts: aligned, in a committed region. -/
structure Undoes (I : Image) (en : Entry) : Prop where
  data : en.commitTail = 0
  aligned : en.addr % 32 = 0
  managed : en.addr ∈ regionPts I.regions

/-- **The epoch can be undone to the image it began in.** -/
structure Undone (I : Image) (e : Epoch) : Prop where
  covered : DirtyCovered e
  tiled : Tiled I.regions
  outside : ∀ x, x ∉ regionPts I.regions → I.mem x = none
  backed : Backed e.files e.mrm.regions
  backedOld : Backed e.files I.regions
  fresh : ∀ x ∈ e.fresh.pts, e.newly x = true
  kind : ∀ q ∈ e.mrm.regions, IsNew I e.newly q ∨ IsOld I e.newly q
  cache : ∀ r ∈ I.regions, ∀ x ∈ r.pts, Restores I e.log (e.files.cache r.fileName) x
  pm : ∀ r ∈ I.regions, ∀ x ∈ r.pts, Restores I e.log (e.files.pm r.fileName) x
  current : ∀ q ∈ e.mrm.regions, IsOld I e.newly q → ∀ x ∈ q.pts,
    Restores I e.log (e.files.cache q.fileName) x
  entries : ∀ en ∈ e.log, Undoes I en
  clean : ∀ q ∈ e.mrm.regions, ∀ x ∈ q.pts, e.dirty x = false →
    e.files.pm q.fileName x = e.files.cache q.fileName x

theorem Undone.wf {I : Image} {e : Epoch} (h : Undone I e) : e.Wf := h.covered.1

section Undone

variable {I : Image} {e e' : Epoch}

/-- A byte of a committed region in the block of a byte of an old region lies in the old region. -/
theorem IsOld.mem_of_block {newly : ℕ → Bool} {q r : Region} {y z : ℕ} (h : IsOld I newly q)
    (ht : Tiled I.regions) (hal : q.base % 4096 = 0) (hz : z ∈ q.pts) (hr : r ∈ I.regions)
    (hy : y ∈ r.pts) (hblk : blkStart y = blkStart z) : y ∈ q.pts := by
  obtain ⟨s, hs, h1, h2, h3⟩ := h.inside
  have hzs : z ∈ s.pts := ⟨le_trans h1 hz.1, lt_of_lt_of_le hz.2 h2⟩
  have hpage : y / 4096 = z / 4096 := by
    unfold blkStart at hblk
    omega
  obtain rfl := ht.eq_of_page hr hs hy hzs hpage
  rw [Region.mem_pts] at hy hz ⊢
  unfold blkStart at hblk
  omega

/-- **A replay after a recorded store**: the blocks of the store are back to what was in them. -/
theorem replay_recorded {log : List Entry} {mem : ℕ → ℕ} {ps : List ℕ} (hp : ∀ p ∈ ps, p % 32 = 0)
    (m : ℕ → ℕ) (x : ℕ) :
    undoJournal.replay (log ++ ps.map (Entry.save mem)) m x =
      undoJournal.replay log (if blkStart x ∈ ps then mem else m) x := by
  rw [Journal.replay_append]
  refine Journal.replay_congr (Or.inr ?_)
  split_ifs with hx
  · rw [Journal.replay_of_logged (logged_save.mpr hx) m mem]
    exact show undoJournal.replay ([] ++ ps.map (Entry.save mem)) mem x = _ from replay_save hp x
  · exact Journal.replay_of_not_logged (mt logged_save.mp hx) m

/-- What a recorded block held is what it held in the image. -/
theorem Undone.restores_block (h : Undone I e) {addr : ℕ} {bytes : List ℕ}
    (hen : (Op.store addr bytes).Enabled e) (hm : StoresManaged e (.store addr bytes))
    (hold : ∀ i < bytes.length, e.newly (addr + i) = false) {r : Region} (hr : r ∈ I.regions)
    {x : ℕ} (hx : x ∈ r.pts) (hblk : blkStart x ∈ blocks addr bytes.length) :
    Restores I e.log e.view x := by
  obtain ⟨z, hz1, hz2, hz⟩ := exists_of_mem_blocks (List.length_pos_of_ne_nil hen.1) hblk
  obtain ⟨i, rfl⟩ : ∃ i, z = addr + i := ⟨z - addr, by omega⟩
  obtain ⟨q, hq, hzq⟩ := hm i (by omega)
  have hqold : IsOld I e.newly q := (h.kind q hq).resolve_left fun hnew => by
    have hn := hnew.newly _ hzq
    rw [hold i (by omega)] at hn
    cases hn
  have hxq : x ∈ q.pts := hqold.mem_of_block h.tiled (h.wf.tiled.aligned q hq) hzq hr hx hz
  have hcur : Restores I e.log (e.files.cache q.fileName) x := h.current q hq hqold x hxq
  unfold Restores at hcur ⊢
  rw [hcur]
  exact congrArg some (Journal.replay_congr (Or.inr (view_eq h.wf.tiled hq hxq).symm))

theorem store_cache_of_not_inStore {d : Files} {m : Manager} {addr x : ℕ} {bytes : List ℕ}
    (hx : inStore addr bytes x = false) (n : FileName) :
    (d.store m addr bytes).cache n x = d.cache n x := by
  simp [Files.store, storeBytes, hx]

theorem store_cache_of_ne {d : Files} {m : Manager} {addr x : ℕ} {bytes : List ℕ} {n : FileName}
    (hx : (m.regionAt x).map Region.fileName ≠ some n) :
    (d.store m addr bytes).cache n x = d.cache n x := if_neg hx

/-- A store leaves what is not dirty behind it as it was. -/
theorem Undone.clean_store (h : Undone I e) {addr : ℕ} {bytes : List ℕ} :
    ∀ q ∈ e.mrm.regions, ∀ x ∈ q.pts, (e.store addr bytes).dirty x = false →
      (e.store addr bytes).files.pm q.fileName x = (e.store addr bytes).files.cache q.fileName x := by
  intro q hq x hx hd
  obtain ⟨hin, hd⟩ := Bool.or_eq_false_iff.mp hd
  rw [show (e.store addr bytes).files.cache q.fileName x = e.files.cache q.fileName x from
    store_cache_of_not_inStore hin _]
  exact h.clean q hq x hx hd

/-- A store that the fresh set covers: nothing is logged, and it changes new memory only. -/
theorem undone_store_fresh (h : Undone I e) {addr : ℕ} {bytes : List ℕ}
    (hen : (Op.store addr bytes).Enabled e) (hm : StoresManaged e (.store addr bytes))
    (hcov : DirtyCovered (e.store addr bytes)) (hf : e.fresh.find addr bytes.length = true) :
    Undone I (e.store addr bytes) := by
  have hlog : (e.store addr bytes).log = e.log := by simp [Epoch.store, undoLogRecord, hf]
  have hnew : ∀ x, inStore addr bytes x = true → e.newly x = true := fun x hx =>
    h.fresh x (Ranges.find_subset (h.wf.store_lt hen) hf (inStore_iff.mp hx))
  -- outside new regions, and in the files of committed ones, nothing changes
  have hsame : ∀ n x, (inStore addr bytes x = true → (e.mrm.regionAt x).map Region.fileName ≠ some n) →
      (e.store addr bytes).files.cache n x = e.files.cache n x := fun n x hx => by
    by_cases hin : inStore addr bytes x = true
    · exact store_cache_of_ne (hx hin)
    · exact store_cache_of_not_inStore (Bool.eq_false_iff.mpr hin) n
  refine ⟨hcov, h.tiled, h.outside, h.backed, h.backedOld, h.fresh, h.kind, ?_, ?_, ?_, ?_, ?_⟩
  · intro r hr x hx
    have hcache := hsame r.fileName x fun hin => by
      obtain ⟨hx1, hx2⟩ := inStore_iff.mp hin
      obtain ⟨i, rfl⟩ : ∃ i, x = addr + i := ⟨x - addr, by omega⟩
      obtain ⟨q, hq, hxq⟩ := hm i (by omega)
      rw [(regionAt_iff h.wf.tiled).mpr ⟨hq, hxq⟩, Option.map_some, Ne, Option.some.injEq]
      rcases h.kind q hq with hk | hk
      · exact (hk.file r hr).symm
      · have hn := hk.newly _ hxq
        rw [hnew _ hin] at hn
        cases hn
    have hold : Restores I e.log (e.files.cache r.fileName) x := h.cache r hr x hx
    unfold Restores at hold ⊢
    rw [hold, hlog]
    exact congrArg some (Journal.replay_congr (Or.inr hcache.symm))
  · intro r hr x hx
    rw [hlog]
    exact h.pm r hr x hx
  · intro q hq hk x hx
    have hcache := hsame q.fileName x fun hin => by
      have hn := hk.newly _ hx
      rw [show (e.store addr bytes).newly = e.newly from rfl, hnew _ hin] at hn
      cases hn
    have hold : Restores I e.log (e.files.cache q.fileName) x := h.current q hq hk x hx
    unfold Restores at hold ⊢
    rw [hold, hlog]
    exact congrArg some (Journal.replay_congr (Or.inr hcache.symm))
  · rw [hlog]
    exact h.entries
  · exact h.clean_store

/-- A store that is logged: what its blocks held goes to the log. -/
theorem undone_store_logged (h : Undone I e) {addr : ℕ} {bytes : List ℕ}
    (hen : (Op.store addr bytes).Enabled e) (hm : StoresManaged e (.store addr bytes))
    (hcov : DirtyCovered (e.store addr bytes)) (hf : e.fresh.find addr bytes.length = false)
    (hold : ∀ i < bytes.length, e.newly (addr + i) = false) :
    Undone I (e.store addr bytes) := by
  have hlog : (e.store addr bytes).log =
      e.log ++ (blocks addr bytes.length).map (Entry.save e.view) := by
    simp [Epoch.store, undoLogRecord, hf]
  have hmod : ∀ p ∈ blocks addr bytes.length, p % 32 = 0 := fun p hp => blocks_mod hp
  -- a byte outside the recorded blocks is not stored
  have hkey : ∀ r ∈ I.regions, ∀ x ∈ r.pts, ∀ content content' : ℕ → ℕ,
      Restores I e.log content x →
      (blkStart x ∉ blocks addr bytes.length → content' x = content x) →
      Restores I (e.store addr bytes).log content' x := by
    intro r hr x hx content content' hres hsame
    unfold Restores at hres ⊢
    rw [hlog, replay_recorded hmod]
    split_ifs with hblk
    · exact h.restores_block hen hm hold hr hx hblk
    · rw [hres]
      exact congrArg some (Journal.replay_congr (Or.inr (hsame hblk).symm))
  have hcache : ∀ n x, blkStart x ∉ blocks addr bytes.length →
      (e.store addr bytes).files.cache n x = e.files.cache n x := fun n x hblk => by
    refine store_cache_of_not_inStore (Bool.eq_false_iff.mpr fun hin => hblk ?_) n
    obtain ⟨hx1, hx2⟩ := inStore_iff.mp hin
    exact blkStart_mem_blocks hx1 hx2
  refine ⟨hcov, h.tiled, h.outside, h.backed, h.backedOld, h.fresh, h.kind, ?_, ?_, ?_, ?_, ?_⟩
  · exact fun r hr x hx => hkey r hr x hx _ _ (h.cache r hr x hx) (hcache r.fileName x)
  · exact fun r hr x hx => hkey r hr x hx _ _ (h.pm r hr x hx) fun _ => rfl
  · intro q hq hk x hx
    obtain ⟨r, hr, h1, h2, -⟩ := hk.inside
    have hxr : x ∈ r.pts := ⟨le_trans h1 hx.1, lt_of_lt_of_le hx.2 h2⟩
    exact hkey r hr x hxr _ _ (h.current q hq hk x hx) (hcache q.fileName x)
  · intro en hen'
    rw [hlog, List.mem_append] at hen'
    rcases hen' with hen' | hen'
    · exact h.entries en hen'
    obtain ⟨p, hp, rfl⟩ := List.mem_map.mp hen'
    refine ⟨rfl, hmod p hp, ?_⟩
    obtain ⟨z, hz1, hz2, rfl⟩ := exists_of_mem_blocks (List.length_pos_of_ne_nil hen.1) hp
    obtain ⟨i, rfl⟩ : ∃ i, z = addr + i := ⟨z - addr, by omega⟩
    obtain ⟨q, hq, hzq⟩ := hm i (by omega)
    have hk : IsOld I e.newly q := (h.kind q hq).resolve_left fun hnew => by
      have hn := hnew.newly _ hzq
      rw [hold i (by omega)] at hn
      cases hn
    obtain ⟨r, hr, h1, h2, -⟩ := hk.inside
    have hal := h.tiled.aligned r hr
    rw [Region.mem_pts] at hzq
    refine ⟨r, hr, Region.mem_pts.mpr ?_⟩
    rw [Entry.save_addr]
    unfold blkStart
    omega
  · exact h.clean_store

/-- What an operation leaves new, or old, where it maps nothing. -/
theorem IsNew.congr {newly newly' : ℕ → Bool} {q : Region} (h : IsNew I newly q)
    (hs : ∀ x ∈ q.pts, newly' x = newly x) : IsNew I newly' q :=
  ⟨fun x hx => (hs x hx).trans (h.newly x hx), h.file⟩

theorem IsOld.congr {newly newly' : ℕ → Bool} {q : Region} (h : IsOld I newly q)
    (hs : ∀ x ∈ q.pts, newly' x = newly x) : IsOld I newly' q :=
  ⟨fun x hx => (hs x hx).trans (h.newly x hx), h.inside⟩

/-- A region with bytes is not both. -/
theorem IsOld.absurd_newly {newly : ℕ → Bool} {q : Region} (h : IsOld I newly q) (hn : 0 < q.size)
    (hall : ∀ x ∈ q.pts, newly x = true) : False := by
  have hbase : q.base ∈ q.pts := Region.mem_pts.mpr ⟨le_refl _, Nat.lt_add_of_pos_right hn⟩
  have hfalse := h.newly _ hbase
  rw [hall _ hbase] at hfalse
  cases hfalse

/-- A file that is not there yet is none of a committed region. -/
theorem Undone.ne_fileName (h : Undone I e) {q : Region} (hfree : e.files.made q.fileName = false) :
    ∀ r ∈ I.regions, r.fileName ≠ q.fileName := by
  intro r hr hne
  have hmade := h.backedOld r hr
  rw [hne, hfree] at hmade
  cases hmade

/-- What an `munmap` leaves of an old region is old. -/
theorem IsOld.rest {newly : ℕ → Bool} {p q : Region} {addr size : ℕ} {o : RemoveOutcome}
    (h : IsOld I newly p) (h1 : p.base ≤ addr) (h2 : addr + size ≤ p.stop) (hal : addr % 4096 = 0)
    (hq : q ∈ rests p addr size o) : IsOld I newly q := by
  obtain ⟨r, hr, hb, hs, hend⟩ := h.inside
  have hin := rests_inside h1 h2 hq
  refine ⟨fun x hx => h.newly x ⟨le_trans hin.1 hx.1, lt_of_lt_of_le hx.2 hin.2.1⟩,
    r, hr, le_trans hb hin.1, le_trans hin.2.1 hs, ?_⟩
  rw [rests, List.mem_append, mem_restOf, mem_restOf] at hq
  rcases hq with ⟨-, rfl⟩ | ⟨-, rfl⟩
  · -- the right remainder ends where the region ended
    rw [show (⟨addr + size, p.stop - (addr + size), _⟩ : Region).stop = p.stop from
      Nat.add_sub_cancel' h2]
    exact hend
  · right
    rw [show (⟨p.base, addr - p.base, _⟩ : Region).stop = addr from Nat.add_sub_cancel' h1]
    exact hal

/-- Regions that give way to others in new files: the log stays, and so do the files of the
    committed regions. -/
theorem undone_remap (h : Undone I e) (rs : List Region) (mem : ℕ → ℕ) (hcov : DirtyCovered e')
    (hfiles : e'.files = e.files.createAll rs mem)
    (hfree : ∀ p ∈ rs, e.files.made p.fileName = false) (hlog : e'.log = e.log)
    (hbacked : Backed e'.files e'.mrm.regions) (hfresh : ∀ x ∈ e'.fresh.pts, e'.newly x = true)
    (hkind : ∀ q ∈ e'.mrm.regions, IsNew I e'.newly q ∨ IsOld I e'.newly q)
    (hkept : ∀ q ∈ e'.mrm.regions, q ∈ rs ∨ q ∈ e.mrm.regions ∧ ∀ x ∈ q.pts,
      e'.newly x = e.newly x ∧ (e'.dirty x = false → e.dirty x = false))
    (hmem : ∀ q ∈ rs, IsOld I e'.newly q → ∃ p ∈ e.mrm.regions, IsOld I e.newly p ∧
      ∀ x ∈ q.pts, x ∈ p.pts ∧ mem x = e.files.cache p.fileName x) : Undone I e' := by
  have hI : ∀ r ∈ I.regions, e'.files.cache r.fileName = e.files.cache r.fileName ∧
      e'.files.pm r.fileName = e.files.pm r.fileName := fun r hr => by
    rw [hfiles]
    exact createAll_old (h.backedOld r hr) hfree
  refine ⟨hcov, h.tiled, h.outside, hbacked, fun r hr => ?_, hfresh, hkind, fun r hr x hx => ?_,
    fun r hr x hx => ?_, fun q hq hk x hx => ?_, ?_, fun q hq x hx hd => ?_⟩
  · rw [hfiles, createAll_made]
    exact Or.inr (h.backedOld r hr)
  · rw [hlog, (hI r hr).1]
    exact h.cache r hr x hx
  · rw [hlog, (hI r hr).2]
    exact h.pm r hr x hx
  · rcases hkept q hq with hin | ⟨hin, hsame⟩
    · obtain ⟨p, hp, hpk, hsub⟩ := hmem q hin hk
      obtain ⟨hxp, hmx⟩ := hsub x hx
      have hres : Restores I e.log (e.files.cache p.fileName) x := h.current p hp hpk x hxp
      unfold Restores at hres ⊢
      rw [hlog, hfiles, (createAll_new hin).1, hres]
      exact congrArg some (Journal.replay_congr (Or.inr hmx.symm))
    · have hk' : IsOld I e.newly q := hk.congr fun y hy => (hsame y hy).1.symm
      rw [hlog, hfiles, (createAll_old (h.backed q hin) hfree).1]
      exact h.current q hin hk' x hx
  · rw [hlog]
    exact h.entries
  · rcases hkept q hq with hin | ⟨hin, hsame⟩
    · rw [hfiles, (createAll_new hin).1, (createAll_new hin).2]
    · rw [hfiles, (createAll_old (h.backed q hin) hfree).1, (createAll_old (h.backed q hin) hfree).2]
      exact h.clean q hin x hx ((hsame x hx).2 hd)

theorem undone_mmap (h : Undone I e) {ret size fileId : ℕ} (hcov : DirtyCovered e')
    (hs : e.apply (.mmap ret size fileId) = some e') : Undone I e' := by
  have hbacked := backed_apply h.wf h.backed hs
  obtain ⟨⟨hal, hpos, hn, hle, -, hnew⟩, hap, he⟩ := apply_mmap hs
  have hregs : e'.mrm.regions = e.mrm.regions ++ [⟨ret, size, fileId⟩] := by rw [he]
  have hnewly : ∀ x, e'.newly x = (decide (ret ≤ x) && decide (x < ret + size) || e.newly x) := by
    intro x
    rw [he]
  -- no old region meets the new one
  have hout : ∀ q ∈ e.mrm.regions, ∀ x ∈ q.pts, ¬ (ret ≤ x ∧ x < ret + size) := by
    intro q hq x hx hin
    have hapq := hap q hq
    rw [Region.mem_pts] at hx
    unfold Region.Apart Region.stop at hapq
    unfold Region.stop at hx
    simp only at hapq
    omega
  have hsame : ∀ q ∈ e.mrm.regions, ∀ x ∈ q.pts, e'.newly x = e.newly x := by
    intro q hq x hx
    have hno := hout q hq x hx
    rw [hnewly]
    by_cases h1 : ret ≤ x
    · have h2 : ¬ x < ret + size := fun h2 => hno ⟨h1, h2⟩
      simp [h2]
    · simp [h1]
  have hall : ∀ x ∈ (⟨ret, size, fileId⟩ : Region).pts, e'.newly x = true := fun x hx => by
    have hx' : ret ≤ x ∧ x < ret + size := hx
    simp [hnewly, hx'.1, hx'.2]
  refine undone_remap h [⟨ret, size, fileId⟩] (fun _ => 0) hcov (by rw [he]; rfl)
    (fun p hp => by rw [List.mem_singleton.mp hp]; exact hnew) (by rw [he]) hbacked ?_ ?_ ?_ ?_
  · intro x hx
    have hsz := toUint_le size
    rw [he] at hx
    simp only [Ranges.pts_insert h.wf.fresh (show ret + toUint size < 2 ^ 64 by omega)] at hx
    rcases hx with hx | hx
    · simp [hnewly, h.fresh x hx]
    · rw [Set.mem_Ico] at hx
      exact hall x (Region.mem_pts.mpr ⟨hx.1, lt_of_lt_of_le hx.2 (Nat.add_le_add_left hsz ret)⟩)
  · intro q hq
    rw [hregs] at hq
    rcases List.mem_append.mp hq with hq | hq
    · exact (h.kind q hq).imp (fun hk => hk.congr (hsame q hq)) fun hk => hk.congr (hsame q hq)
    · obtain rfl := List.mem_singleton.mp hq
      exact Or.inl ⟨hall, h.ne_fileName hnew⟩
  · intro q hq
    rw [hregs] at hq
    rcases List.mem_append.mp hq with hq | hq
    · refine Or.inr ⟨hq, fun x hx => ⟨hsame q hq x hx, fun hd => ?_⟩⟩
      have hpage : inPages ret size (x / 4096) = false :=
        h.wf.tiled.not_inPages hal (fun y ⟨p, hp, hy⟩ => hout p hp y hy) ⟨q, hq, hx⟩
      rw [he] at hd
      simpa [hpage] using hd
    · exact Or.inl hq
  · intro q hq hk
    obtain rfl := List.mem_singleton.mp hq
    exact (hk.absurd_newly hn hall).elim

theorem undone_munmap (h : Undone I e) {addr size rightId leftId : ℕ} (hcov : DirtyCovered e')
    (hs : e.apply (.munmap addr size rightId leftId) = some e') : Undone I e' := by
  have hbacked := backed_apply h.wf h.backed hs
  obtain ⟨⟨hal, hn, hle, -⟩, ht', hpts, he⟩ := apply_munmap h.wf.tiled hs
  obtain ⟨-, hcases⟩ := munmap_regions h.wf hs
  have hnewly : e'.newly = e.newly := by rw [he]
  have hlog : e'.log = e.log := by rw [he]
  have hfresh : ∀ x ∈ e'.fresh.pts, e'.newly x = true := by
    intro x hx
    have hsz := toUint_le size
    rw [show e'.fresh = e.fresh.remove addr (toUint size) by rw [he]] at hx
    rw [hnewly]
    exact h.fresh x (Ranges.remove_subset h.wf.fresh.bound (by omega) hx).1
  -- a region that stays keeps its stored bytes
  have hdirty : ∀ q ∈ e.mrm.regions, q ∈ e'.mrm.regions → ∀ x ∈ q.pts,
      e'.newly x = e.newly x ∧ (e'.dirty x = false → e.dirty x = false) := by
    intro q hq hq' x hx
    refine ⟨by rw [hnewly], fun hd => ?_⟩
    have hpage : inPages addr size (x / 4096) = false :=
      ht'.not_inPages hal (fun y hy => ((hpts y).mp hy).2) ⟨q, hq', hx⟩
    rw [he] at hd
    simpa [hpage, (regionAt_iff h.wf.tiled).mpr ⟨hq, hx⟩, (regionAt_iff ht').mpr ⟨hq', hx⟩] using hd
  rcases hcases with ⟨hr, hf⟩ | ⟨p, rs, hp, h1, h2, hrs, hf, hfree, hr⟩
  · refine undone_remap h [] (fun _ => 0) hcov hf
      (fun _ hq => absurd hq List.not_mem_nil) hlog hbacked hfresh ?_ ?_
      fun _ hq => absurd hq List.not_mem_nil
    · rw [hr, hnewly]
      exact h.kind
    · intro q hq
      rw [hr] at hq
      exact Or.inr ⟨hq, hdirty q hq (hr ▸ hq)⟩
  · have hsub : ∀ q ∈ rs, ∀ x ∈ q.pts, x ∈ p.pts := fun q hq x hx => by
      have hin := rests_inside h1 h2 (hrs ▸ hq)
      exact ⟨le_trans hin.1 hx.1, lt_of_lt_of_le hx.2 hin.2.1⟩
    have hview : ∀ q ∈ rs, ∀ x ∈ q.pts, x ∈ p.pts ∧ e.view x = e.files.cache p.fileName x :=
      fun q hq x hx => ⟨hsub q hq x hx, view_eq h.wf.tiled hp (hsub q hq x hx)⟩
    refine undone_remap h rs e.view hcov hf hfree hlog hbacked hfresh ?_ ?_ ?_
    · intro q hq
      rw [hnewly]
      rcases (hr q).mp hq with ⟨hq, -⟩ | hq
      · exact h.kind q hq
      · exact (h.kind p hp).imp
          (fun hk => ⟨fun x hx => hk.newly x (hsub q hq x hx), h.ne_fileName (hfree q hq)⟩)
          fun hk => hk.rest h1 h2 hal (hrs ▸ hq)
    · intro q hq
      rcases (hr q).mp hq with ⟨hq', -⟩ | hq'
      · exact Or.inr ⟨hq', hdirty q hq' hq⟩
      · exact Or.inl hq'
    · intro q hq hk
      refine ⟨p, hp, (h.kind p hp).resolve_left fun hnew => ?_, hview q hq⟩
      have hpos := (rests_inside h1 h2 (hrs ▸ hq)).2.2.1
      exact hk.absurd_newly hpos fun x hx => by rw [hnewly]; exact hnew.newly x (hsub q hq x hx)

/-- **Every operation leaves the epoch undoable.** -/
theorem undone_apply {op : Op} (h : Undone I e) (hok : Recoverable e op)
    (hs : e.apply op = some e') : Undone I e' := by
  obtain ⟨hm, hlogs, hk⟩ := hok
  have hcov := dirtyCovered_apply h.covered hk hs
  cases op with
  | store addr bytes =>
      obtain ⟨hen, rfl⟩ := apply_store hs
      by_cases hf : e.fresh.find addr bytes.length = true
      · exact undone_store_fresh h hen hm hcov hf
      · exact undone_store_logged h hen hm hcov (Bool.eq_false_iff.mpr hf) (hlogs.resolve_left hf)
  | mmap ret size fileId => exact undone_mmap h hcov hs
  | munmap addr size rightId leftId => exact undone_munmap h hcov hs

end Undone

/-! ## 3. Where an epoch starts, and what the hardware does meanwhile -/

/-- **An epoch that has just begun**: its image is persistent, and nothing has happened. -/
structure Persisted (e : Epoch) : Prop where
  wf : e.Wf
  start : e.Fresh
  backed : Backed e.files e.mrm.regions
  pm : imageOf e.mrm.regions e.files.pm = e.image

theorem Persisted.undone {e : Epoch} (h : Persisted e) : Undone e.image e := by
  have ht : Tiled e.mrm.regions := h.wf.tiled
  have hcache : ∀ r ∈ e.mrm.regions, ∀ x ∈ r.pts,
      Restores e.image e.log (e.files.cache r.fileName) x := fun r hr x hx => by
    rw [Restores, h.start.log]
    exact imageOf_mem_of ht hr hx
  have hsame : ∀ r ∈ e.mrm.regions, ∀ x ∈ r.pts,
      e.files.pm r.fileName x = e.files.cache r.fileName x :=
    fun r hr x hx => imageOf_mem_inj ht h.pm hr hx
  refine ⟨⟨h.wf, fun x hx => ?_⟩, ht, fun x hx => ?_, h.backed, h.backed, fun x hx => ?_,
    fun q hq => Or.inr ⟨fun x _ => h.start.newly x, q, hq, le_refl _, le_refl _, Or.inl rfl⟩,
    hcache, fun r hr x hx => ?_, fun q hq _ => hcache q hq, fun en hen => ?_,
    fun q hq x hx _ => hsame q hq x hx⟩
  · rw [h.start.dirty x] at hx
    cases hx
  · refine Option.eq_none_iff_forall_ne_some.mpr fun v hv => hx ?_
    obtain ⟨r, hr, hxr, -⟩ := (imageOf_mem ht).mp hv
    exact ⟨r, hr, hxr⟩
  · rw [h.start.fresh, Ranges.pts_empty] at hx
    exact absurd hx (Set.notMem_empty x)
  · have hres : Restores e.image e.log (e.files.cache r.fileName) x := hcache r hr x hx
    unfold Restores at hres ⊢
    rw [hres]
    exact congrArg some (Journal.replay_congr (Or.inr (hsame r hr x hx).symm))
  · rw [h.start.log] at hen
    exact absurd hen List.not_mem_nil

/-- The hardware writes one line of a file back. -/
def Files.evict (d : Files) (n : FileName) (l : ℕ) : Files :=
  { d with pm := fun m x => if m = n ∧ cacheLine x = l then d.cache m x else d.pm m x }

def Epoch.evict (e : Epoch) (n : FileName) (l : ℕ) : Epoch := { e with files := e.files.evict n l }

/-- **A write-back leaves the epoch undoable.** -/
theorem Undone.evict {I : Image} {e : Epoch} (h : Undone I e) (n : FileName) (l : ℕ) :
    Undone I (e.evict n l) := by
  refine ⟨⟨⟨h.wf.tiled, h.wf.mapped, h.wf.user, h.wf.fresh⟩, h.covered.2⟩, h.tiled, h.outside,
    h.backed, h.backedOld, h.fresh, h.kind, h.cache, fun r hr x hx => ?_, h.current, h.entries,
    fun q hq x hx hd => ?_⟩
  · have hcases : (e.files.evict n l).pm r.fileName x = e.files.cache r.fileName x ∨
        (e.files.evict n l).pm r.fileName x = e.files.pm r.fileName x := by
      simp only [Files.evict]
      split_ifs
      · exact Or.inl rfl
      · exact Or.inr rfl
    rcases hcases with heq | heq
    · have hres : Restores I e.log (e.files.cache r.fileName) x := h.cache r hr x hx
      unfold Restores at hres ⊢
      rw [hres]
      exact congrArg some (Journal.replay_congr (Or.inr heq.symm))
    · have hres : Restores I e.log (e.files.pm r.fileName) x := h.pm r hr x hx
      unfold Restores at hres ⊢
      rw [hres]
      exact congrArg some (Journal.replay_congr (Or.inr heq.symm))
  · have hclean : e.files.pm q.fileName x = e.files.cache q.fileName x := h.clean q hq x hx hd
    simp only [Epoch.evict, Files.evict]
    split_ifs
    · rfl
    · exact hclean

/-! ## 4. After a commit, and after a rollback -/

/-- The flushes of `undo_log_commit` and the drain behind them: a flushed line of managed memory is
    persistent. -/
def Files.flushLines (d : Files) (m : Manager) (qs : List ℕ) : Files :=
  { d with pm := fun n x =>
      if (m.regionAt x).map Region.fileName = some n ∧ ∃ q ∈ qs, cacheLine q = cacheLine x then
        d.cache n x
      else d.pm n x }

/-- **After the flushes of a commit the image is persistent.** -/
theorem Undone.commit_image {I : Image} {e : Epoch} (h : Undone I e) :
    imageOf e.mrm.regions (e.files.flushLines e.mrm (undoLogCommitFlushes e.log e.fresh)).pm =
      e.image := by
  refine imageOf_congr h.wf.tiled fun q hq x hx => ?_
  have hat : (e.mrm.regionAt x).map Region.fileName = some q.fileName := by
    rw [(regionAt_iff h.wf.tiled).mpr ⟨hq, hx⟩]
    rfl
  simp only [Files.flushLines, hat, true_and]
  split_ifs with hfl
  · rfl
  · refine h.clean q hq x hx (Bool.eq_false_iff.mpr fun hd => hfl ?_)
    exact exists_commitFlush (h.covered.2 x hd)

theorem foldr_memcpyBlk_pm {m : Manager} {n : FileName} {x : ℕ}
    (hx : (m.regionAt x).map Region.fileName = some n) (es : List Entry) (d : Files) :
    (es.foldr (Files.memcpyBlk m) d).pm n x = es.foldr memcpyBlk (d.pm n) x := by
  induction es with
  | nil => rfl
  | cons e es ih => simp only [List.foldr_cons, Files.memcpyBlk, memcpyBlk, hx, and_true, ih]

theorem foldr_memcpyBlk_made (m : Manager) (es : List Entry) (d : Files) :
    (es.foldr (Files.memcpyBlk m) d).made = d.made := by
  induction es with
  | nil => rfl
  | cons e es ih => exact ih

/-- **After a rollback the image is the one the epoch began in.** -/
theorem Undone.rollback_image {I : Image} {e : Epoch} (h : Undone I e) :
    imageOf I.regions (e.log.foldr (Files.memcpyBlk (Manager.ofTable I.regions)) e.files).pm = I := by
  refine Image.ext_some rfl fun x v => ?_
  rw [imageOf_mem h.tiled]
  have hbyte : ∀ r ∈ I.regions, x ∈ r.pts → I.mem x =
      some ((e.log.foldr (Files.memcpyBlk (Manager.ofTable I.regions)) e.files).pm r.fileName x) := by
    intro r hr hx
    have hat : ((Manager.ofTable I.regions).regionAt x).map Region.fileName = some r.fileName := by
      rw [(regionAt_iff (m := Manager.ofTable I.regions) h.tiled).mpr ⟨hr, hx⟩]
      rfl
    rw [foldr_memcpyBlk_pm hat, foldr_memcpyBlk fun en hen => (h.entries en hen).aligned]
    exact h.pm r hr x hx
  constructor
  · intro ⟨r, hr, hx, hv⟩
    rw [hbyte r hr hx, hv]
  · intro hv
    by_cases hx : x ∈ regionPts I.regions
    · obtain ⟨r, hr, hxr⟩ := hx
      rw [hbyte r hr hxr] at hv
      exact ⟨r, hr, hxr, Option.some.inj hv⟩
    · rw [h.outside x hx] at hv
      cases hv

/-! ## 5. What recovery makes of it -/

theorem logArray_clear (log : List Entry) : undoLogClear (logArray log) log.length = logArray [] := by
  funext i
  unfold undoLogClear
  split_ifs with hi
  · rfl
  · exact logArray_beyond (not_lt.mp hi)

/-- **Recovery completes, in the image `I` and with the tail `tail`.** -/
structure RecoversTo (p : Persistent) (I : Image) (tail : ℕ) (p' : Persistent) : Prop where
  run : recoverAll p = some (p', Manager.ofTable I.regions)
  tables : p'.tables = ⟨I.regions, none⟩
  memory : imageOf I.regions p'.files.pm = I
  log : p'.log = logArray []
  tail : p'.tail = tail
  backed : Backed p'.files I.regions

section Recovers

variable {I : Image} {e : Epoch} {p : Persistent}

/-- **A crash before the commit record**: recovery goes back to the image the epoch began in. -/
theorem Undone.recovers (h : Undone I e) (hfiles : p.files = e.files) (hlog : p.log = logArray e.log)
    (htab : p.tables.table = I.regions) (hroom : e.log.length < undoNumEntries) :
    ∃ p', RecoversTo p I p.tail p' := by
  have hpos : ∀ en ∈ e.log, 0 < en.addr := fun en hen => by
    obtain ⟨r, hr, hx⟩ := (h.entries en hen).managed
    exact lt_of_lt_of_le (h.tiled.pos r hr).1 hx.1
  have hmem : ∀ i < e.log.length, logArray e.log i ∈ e.log := fun i hi => by
    rw [logArray_getElem hi]
    exact List.getElem_mem hi
  have hinit : undoLogInit p.log = some e.log.length := by
    rw [hlog]
    refine undoLogInit_eq hroom (by rw [logArray_beyond (le_refl _)]; rfl) fun i hi => ?_
    have hi' := hmem i hi
    refine ⟨Bool.eq_false_iff.mpr fun hn => ?_, Or.inl (h.entries _ hi').data⟩
    exact absurd (Entry.isNull_iff.mp hn).1 (hpos _ hi').ne'
  have hmade : ∀ r ∈ p.tables.table, p.files.made r.fileName = true := by
    rw [htab, hfiles]
    exact h.backedOld
  have happ : ∀ i < e.log.length,
      Applicable (Manager.ofTable p.tables.table).doesManage (p.log i) := fun i hi => by
    rw [hlog]
    have hi' := hmem i hi
    have hlt : (logArray e.log i).addr < 2 ^ 64 := by
      obtain ⟨r, hr, hx⟩ := (h.entries _ hi').managed
      exact lt_of_lt_of_le hx.2 (le_trans (h.tiled.user r hr) (by decide))
    refine ⟨(h.entries _ hi').data, (hpos _ hi').ne', ?_⟩
    rw [recover_doesManage (fun r hr => h.tiled.stop_lt (htab ▸ hr))
      (recover_ofTable (d := p.files) (t := p.tables) hmade) hlt, htab]
    exact (h.entries _ hi').managed
  have hrun := recoverAll_rollback hinit hmade happ
  rw [htab, hlog, logArray_map_range, logArray_clear, hfiles] at hrun
  refine ⟨_, hrun, rfl, h.rollback_image, rfl, rfl, fun r hr => ?_⟩
  rw [foldr_memcpyBlk_made]
  exact h.backedOld r hr

/-- **A crash after the commit record**: recovery stays in the image that was committed. -/
theorem recovers_commit {tail : ℕ} {data : List Entry} (hdata : ∀ en ∈ data, Undoes I en)
    (ht : Tiled I.regions) (hlog : p.log = logArray (data ++ [Entry.commit tail]))
    (hroom : data.length + 1 < undoNumEntries) {J : Image}
    (htab : committedTable p.tables = J.regions) (hmem : imageOf J.regions p.files.pm = J)
    (hbacked : Backed p.files J.regions) : ∃ p', RecoversTo p J tail p' := by
  have hlen : (data ++ [Entry.commit tail]).length = data.length + 1 := by simp
  have hlast : logArray (data ++ [Entry.commit tail]) data.length = Entry.commit tail := by
    simp [logArray]
  have hends : EndsInCommit p.log data.length tail := by
    rw [hlog]
    refine ⟨fun i hi => ?_, by rw [hlast]; rfl, by rw [hlast]; rfl, fun i hi => ?_, hroom⟩
    · have hi' : logArray (data ++ [Entry.commit tail]) i = data[i] := by
        simp [logArray, List.getElem?_append_left hi, hi]
      rw [hi']
      have hen := hdata _ (List.getElem_mem hi)
      refine ⟨Bool.eq_false_iff.mpr fun hn => ?_, Or.inl hen.data⟩
      obtain ⟨r, hr, hx⟩ := hen.managed
      have hpos := (ht.pos r hr).1
      rw [(Entry.isNull_iff.mp hn).1] at hx
      exact absurd hx.1 (not_le.mpr hpos)
    · rw [logArray_beyond (by omega)]
      rfl
  have hmade : ∀ r ∈ committedTable p.tables, p.files.made r.fileName = true := by
    rw [htab]
    exact hbacked
  have hrun := recoverAll_commit hends hmade
  rw [htab] at hrun
  refine ⟨_, hrun, ?_, hmem, ?_, rfl, hbacked⟩
  · simp only [Persistent.switched, htab]
  · show undoLogClear p.log (data.length + 1) = logArray []
    rw [hlog, ← hlen, logArray_clear]

end Recovers

end Persimmon
