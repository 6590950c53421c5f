/-
  File:      Persimmon/FastPath.lean
  Subject:   THE INLINED FAST PATH of an instrumented store, with `OPTIMIZE_DEDUPLICATE` and
             `OPTIMIZE_SKIP_RECORD` on (src/undo/undo_log.h: `undo_insert_fast_path`,
             src/undo/instrument.cc: `insert_instrumentation`).

  The code looks into one slot of the index of the logged blocks. It skips the call of
  `undo_log_record` when the block of the store is there; everything else is left to the call. The
  address of the index goes into the code as a displacement of 32 bits.

  * `undoInsertFastPath`, `reached` -- the instructions, and the label the control comes to, if any;
  * `reached_eq` -- which one it is, over any memory; `reached_skip_iff` -- with an index below 2^31,
    skipped exactly when the store lies in one block and its home slot holds this block;
  * `RecordState`, `RecordStep` -- the calls since the last clear; `Sound` -- what the index holds is
    logged, and a log beyond the threshold has been reported;
  * `FastPathAgrees` -- a skipped call would have done nothing, and reported nothing new;
  * `fastPath_agrees_iff` -- it does exactly where the index lies below 2^31; the assertion of
    `undo_log_init` admits the double of that.
-/
import Persimmon.Dedup
import Persimmon.Lib.Transition
import Persimmon.Lib.X86

namespace Persimmon

open OpenAddressing Transition X86

/-! ## 1. The code -/

/-- `reg_dst`, which holds the destination of the store, and `reg_t1`. -/
inductive Reg where
  | dst
  | t1
  deriving DecidableEq, Repr

inductive Label where
  | slowPath
  | skip
  deriving DecidableEq, Repr

/-- `log2`, of a power of two. -/
def log2 (value : ℕ) : ℕ := if value ≤ 1 then 0 else 1 + log2 (value >>> 1)
termination_by value
decreasing_by
  rw [Nat.shiftRight_eq_div_pow]
  omega

/-- The slow path is used when the store straddles blocks. -/
def alignmentCheck (size : ℕ) : List (Instr Reg Label) :=
  [.lea .t1 .dst (BitVec.ofNat 32 (size - 1)),
    .xor .t1 .dst,
    .cmp .t1 (BitVec.ofNat 8 (32 - 1)),
    .ja .slowPath]

/-- The hash table, with no probing. `loggedAddrsHash` is the address of its first slot, of which the
    displacement of the operand, an `int`, takes the low half. -/
def tableCheck (loggedAddrsHash : Word) : List (Instr Reg Label) :=
  [.mov .t1 .dst,
    .shr .t1 (BitVec.ofNat 8 (log2 32 - log2 8)),
    .and .t1 (BitVec.ofNat 32 ((loggedAddrHashSize - 1) * 8)),
    .load .t1 .t1 (loggedAddrsHash.setWidth 32),
    .xor .t1 .dst,
    .cmp .t1 (BitVec.ofNat 8 32),
    .jb .skip]

/-- **`undo_insert_fast_path`**: the instructions it inserts. None when its assertion fails. -/
def undoInsertFastPath (loggedAddrsHash : Word) (size : ℕ) : Option (List (Instr Reg Label)) :=
  if 32 < size then some []
  else if 0 < size ∧ size &&& (size - 1) = 0 then
    some ((if 1 < size then alignmentCheck size else []) ++ tableCheck loggedAddrsHash)
  else none

/-- The label the control comes to; none after a fault. `insert_instrumentation` puts that of the
    slow path right behind the fast path. -/
def reached (out : State Reg × Exit Label) : Option Label :=
  match out.2 with
  | .next => some .slowPath
  | .jump target => some target
  | .fault => none

/-- The memory holds the index. -/
def HoldsTable (mem : Word → Option Word) (loggedAddrsHash : Word) (t : AddrTable) : Prop :=
  ∀ i, mem (BitVec.ofNat 64 (8 * i.val) + loggedAddrsHash) = some (BitVec.ofNat 64 (t i))

/-- The assertion of `undo_log_init` on the address of the index. -/
def HashAddrOk (loggedAddrsHash : Word) : Prop := loggedAddrsHash.toNat < 0xFFFFFFFF

instance (h : Word) : Decidable (HashAddrOk h) := inferInstanceAs (Decidable (_ < _))

/-! ## 2. What the code decides -/

theorem log2_ptr_shift : log2 32 - log2 8 = 2 := by
  simp [log2]

/-- **Shift and mask compute the offset of the home slot.** -/
theorem home_offset (w : Word) :
    (w >>> 2) &&& (BitVec.ofNat 32 ((loggedAddrHashSize - 1) * 8)).signExtend 64 =
      BitVec.ofNat 64 (8 * (slot (w.toNat / 32)).val) := by
  have hmask : (BitVec.ofNat 32 ((loggedAddrHashSize - 1) * 8)).signExtend 64 =
      BitVec.ofNat 64 (16383 <<< 3) := by decide
  have hlt : 8 * (w.toNat / 32 % 16384) < 2 ^ 64 := by omega
  rw [hmask, ← BitVec.toNat_inj, BitVec.toNat_and, BitVec.toNat_ushiftRight, BitVec.toNat_ofNat,
    BitVec.toNat_ofNat, Nat.mod_eq_of_lt (a := 16383 <<< 3) (by decide), and_shiftLeft,
    ← Nat.shiftRight_add, Nat.shiftRight_eq_div_pow, Nat.shiftLeft_eq]
  show (w.toNat / 2 ^ 5 &&& (2 ^ 14 - 1)) * 2 ^ 3 = 8 * (w.toNat / 32 % 16384) % 2 ^ 64
  rw [Nat.and_two_pow_sub_one_eq_mod, Nat.mod_eq_of_lt hlt]
  omega

/-- `xor` with the destination is below 32 exactly for the addresses of its block. -/
theorem xor_dst_lt {x w : Word} :
    x ^^^ w < (BitVec.ofNat 8 32).signExtend 64 ↔ x.toNat / 32 = w.toNat / 32 := by
  have himm : ((BitVec.ofNat 8 32).signExtend 64).toNat = 2 ^ 5 := by decide
  rw [BitVec.lt_def, himm, BitVec.toNat_xor]
  exact xor_lt_iff _ _ 5

/-- The last byte of the store, seen from the first. -/
theorem xor_last_lt {w : Word} {size : ℕ} (hs : 0 < size) (hle : size ≤ 32)
    (hw : w.toNat + size - 1 < 2 ^ 64) :
    (BitVec.ofNat 8 (32 - 1)).signExtend 64 < (w + (BitVec.ofNat 32 (size - 1)).signExtend 64) ^^^ w ↔
      (w.toNat + size - 1) / 32 ≠ w.toNat / 32 := by
  have himm : ((BitVec.ofNat 8 (32 - 1)).signExtend 64).toNat = 31 := by decide
  have hdisp : ((BitVec.ofNat 32 (size - 1)).signExtend 64).toNat = size - 1 := by
    have hmsb : (BitVec.ofNat 32 (size - 1)).msb = false := by
      rw [BitVec.msb_eq_false_iff_two_mul_lt, BitVec.toNat_ofNat]
      omega
    rw [BitVec.signExtend_eq_setWidth_of_msb_false hmsb, BitVec.toNat_setWidth, BitVec.toNat_ofNat]
    omega
  have hsum : (w + (BitVec.ofNat 32 (size - 1)).signExtend 64).toNat = w.toNat + size - 1 := by
    rw [BitVec.toNat_add, hdisp]
    omega
  rw [BitVec.lt_def, himm, BitVec.toNat_xor, hsum, ← not_iff_not, not_lt, ne_eq, not_not]
  exact Nat.lt_succ_iff.symm.trans (xor_lt_iff _ _ 5)

/-- Where the code reads: at the home slot of the store's block, or, with an index from 2^31 on,
    elsewhere. -/
def slotAddr (loggedAddrsHash dst : Word) : Word :=
  BitVec.ofNat 64 (8 * (slot (dst.toNat / 32)).val) + (loggedAddrsHash.setWidth 32).signExtend 64

section

variable {mem : Word → Option Word} {base : Word} {t : AddrTable} {s : State Reg}

/-- The check jumps when the word it reads is an address of the block of the store. -/
theorem run_tableCheck :
    (run mem (tableCheck base) s).1.reg .dst = s.reg .dst ∧
      reached (run mem (tableCheck base) s) = (mem (slotAddr base (s.reg .dst))).map fun x =>
        if x.toNat / 32 = (s.reg .dst).toNat / 32 then .skip else .slowPath := by
  have hne : Reg.dst ≠ Reg.t1 := by decide
  have hshift : (BitVec.ofNat 8 (log2 32 - log2 8)).toNat % 64 = 2 := by
    rw [log2_ptr_shift]
    decide
  unfold tableCheck
  rw [run_cons rfl, run_cons rfl, run_cons rfl, run_load]
  simp only [State.set_reg, State.logicFlags_reg, State.shiftFlags_reg, Function.update_self,
    hshift, home_offset]
  rw [← slotAddr]
  cases mem (slotAddr base (s.reg .dst)) with
  | none => exact ⟨rfl, rfl⟩
  | some x =>
      rw [Option.elim_some, run_cons rfl, run_cmp_jb]
      simp only [State.set_reg, State.logicFlags_reg, State.shiftFlags_reg, Function.update_self,
        Function.update_of_ne hne, xor_dst_lt, Option.map_some]
      split <;> exact ⟨rfl, rfl⟩

/-- The check hands straddling stores to the slow path, and lets the others through. -/
theorem run_alignmentCheck {size : ℕ} {code : List (Instr Reg Label)} (hs : 0 < size)
    (hle : size ≤ 32) (hw : (s.reg .dst).toNat + size - 1 < 2 ^ 64) :
    ((s.reg .dst).toNat + size - 1) / 32 ≠ (s.reg .dst).toNat / 32 ∧
        (run mem (alignmentCheck size ++ code) s).1.reg .dst = s.reg .dst ∧
        (run mem (alignmentCheck size ++ code) s).2 = .jump .slowPath ∨
      ((s.reg .dst).toNat + size - 1) / 32 = (s.reg .dst).toNat / 32 ∧
        ∃ s', s'.reg .dst = s.reg .dst ∧
          run mem (alignmentCheck size ++ code) s = run mem code s' := by
  have hne : Reg.dst ≠ Reg.t1 := by decide
  rw [alignmentCheck, List.cons_append, List.cons_append, List.cons_append, List.cons_append,
    List.nil_append, run_cons rfl, run_cons rfl, run_cmp_ja]
  simp only [State.set_reg, State.logicFlags_reg, Function.update_self,
    Function.update_of_ne hne, xor_last_lt hs hle hw]
  by_cases h : ((s.reg .dst).toNat + size - 1) / 32 = (s.reg .dst).toNat / 32
  · rw [if_neg (not_not.mpr h)]
    refine Or.inr ⟨h, _, ?_, rfl⟩
    rfl
  · rw [if_pos h]
    exact Or.inl ⟨h, rfl, rfl⟩

/-- **What the fast path decides**, over any memory. The destination stays in its register. -/
theorem reached_eq {size : ℕ} {code : List (Instr Reg Label)}
    (hcode : undoInsertFastPath base size = some code) (hle : size ≤ 32)
    (hw : (s.reg .dst).toNat + size - 1 < 2 ^ 64) :
    (run mem code s).1.reg .dst = s.reg .dst ∧
      reached (run mem code s) =
        if ((s.reg .dst).toNat + size - 1) / 32 = (s.reg .dst).toNat / 32 then
          (mem (slotAddr base (s.reg .dst))).map fun x =>
            if x.toNat / 32 = (s.reg .dst).toNat / 32 then .skip else .slowPath
        else some .slowPath := by
  unfold undoInsertFastPath at hcode
  rw [if_neg (by omega)] at hcode
  split at hcode
  swap
  · cases hcode
  rename_i hsize
  obtain rfl := Option.some.inj hcode
  by_cases hone : 1 < size
  · rw [if_pos hone]
    rcases @run_alignmentCheck mem s size (tableCheck base) hsize.1 hle hw with
      ⟨hstraddle, h1, h2⟩ | ⟨hblock, s', hs', he⟩
    · refine ⟨h1, ?_⟩
      rw [if_neg hstraddle, reached, h2]
    · obtain ⟨h1, h2⟩ := @run_tableCheck mem base s'
      rw [hs'] at h1 h2
      rw [he, if_pos hblock]
      exact ⟨h1, h2⟩
  · have hblock : ((s.reg .dst).toNat + size - 1) / 32 = (s.reg .dst).toNat / 32 := by
      congr 1
      omega
    rw [if_neg hone, List.nil_append, if_pos hblock]
    exact run_tableCheck

/-- An index below 2^31 is read where it is. -/
theorem mem_slotAddr_low {dst : Word} (hbase : base.toNat < 2 ^ 31) (hmem : HoldsTable mem base t) :
    mem (slotAddr base dst) = some (BitVec.ofNat 64 (t (slot (dst.toNat / 32)))) := by
  rw [slotAddr, signExtend_setWidth_low hbase, hmem]

/-- **With an index below 2^31** the call is skipped exactly when the store lies in one block and the
    home slot holds an address of it, and otherwise the control comes to the slow path. -/
theorem reached_skip_iff {size : ℕ} {code : List (Instr Reg Label)}
    (hcode : undoInsertFastPath base size = some code) (hle : size ≤ 32)
    (hw : (s.reg .dst).toNat + size - 1 < 2 ^ 64) (hbase : base.toNat < 2 ^ 31)
    (hmem : HoldsTable mem base t) (ht : ∀ i, t i < 2 ^ 64) :
    (reached (run mem code s) = some .skip ↔
        ((s.reg .dst).toNat + size - 1) / 32 = (s.reg .dst).toNat / 32 ∧
          t (slot ((s.reg .dst).toNat / 32)) / 32 = (s.reg .dst).toNat / 32) ∧
      (reached (run mem code s) ≠ some .skip → reached (run mem code s) = some .slowPath) := by
  rw [(@reached_eq mem base s size code hcode hle hw).2, mem_slotAddr_low hbase hmem,
    Option.map_some, BitVec.toNat_ofNat, Nat.mod_eq_of_lt (ht _)]
  split_ifs <;> simp_all

end

/-! ## 3. The calls since the last clear -/

/-- The undo log with its index, the fresh set, and whether a call of `undo_log_record` has returned
    `true` since the last clear. -/
structure RecordState where
  undo : DedupLog
  fresh : Ranges
  returned : Bool

def RecordState.cleared : RecordState := ⟨DedupLog.cleared, Ranges.empty, false⟩

inductive RecordAct where
  | record (mem : ℕ → ℕ) (addr size : ℕ)
  | setFresh (fresh : Ranges)

/-- A call of `undo_log_record` that ends, over any memory; or a call that changes the fresh set, to
    whatever set. -/
def RecordStep (s : RecordState) : RecordAct → RecordState → Prop
  | .record mem addr size, s' => addr < 2 ^ 64 ∧
      ∃ undo ret, undoLogRecordDedup s.fresh mem s.undo addr size = some (undo, ret) ∧
        s' = ⟨undo, s.fresh, s.returned || ret⟩
  | .setFresh fresh, s' => s' = { s with fresh := fresh }

/-- **What is in the index is in the log**, and not the last block of the address space. -/
def Indexed (u : DedupLog) : Prop :=
  ∀ i, u.table i ≠ 0 →
    u.table i % 32 = 0 ∧ u.table i + 64 ≤ 2 ^ 64 ∧ u.table i ∈ savedAddrs u.log

theorem Indexed.recordBlk {u : DedupLog} {mem : ℕ → ℕ} {p : ℕ} (h : Indexed u) (hmod : p % 32 = 0)
    (hlt : p + 64 ≤ 2 ^ 64) : Indexed (recordBlk mem u p) := by
  unfold Persimmon.recordBlk
  rw [insertLoggedAddr_eq]
  rcases insertAlong_cases 0 p (probes p) u.table with ⟨he, -⟩ | ⟨_, j, _, -, -, -, -, he⟩ | ⟨he, -⟩
  · rw [he]
    exact h
  · rw [he]
    intro i hi
    rw [if_pos rfl] at hi ⊢
    dsimp only at hi ⊢
    rw [mem_savedAddrs_append]
    by_cases hij : i = j
    · rw [hij, Function.update_self]
      exact ⟨hmod, hlt, Or.inr rfl⟩
    · rw [Function.update_of_ne hij] at hi ⊢
      obtain ⟨h1, h2, h3⟩ := h i hi
      exact ⟨h1, h2, Or.inl h3⟩
  · rw [he]
    intro i hi
    obtain ⟨h1, h2, h3⟩ := h i hi
    exact ⟨h1, h2, mem_savedAddrs_append.mpr (Or.inl h3)⟩

theorem Indexed.foldl {u : DedupLog} {mem : ℕ → ℕ} {ps : List ℕ} (h : Indexed u)
    (hps : ∀ p ∈ ps, p % 32 = 0 ∧ p + 64 ≤ 2 ^ 64) :
    Indexed (ps.foldl (Persimmon.recordBlk mem) u) := by
  induction ps generalizing u with
  | nil => exact h
  | cons p ps ih =>
      rw [List.forall_mem_cons] at hps
      exact ih (h.recordBlk hps.1.1 hps.1.2) hps.2

theorem Indexed.table_lt {u : DedupLog} (h : Indexed u) (i : Fin loggedAddrHashSize) :
    u.table i < 2 ^ 64 := by
  by_cases hi : u.table i = 0
  · rw [hi]
    exact Nat.two_pow_pos 64
  · have hlast := (h i hi).2.1
    omega

/-- Where the home slot holds an address of the block of `d`, it holds the start of this block. -/
theorem Indexed.home {u : DedupLog} {d : ℕ} (h : Indexed u) (hd : 32 ≤ d)
    (hdiv : u.table (slot (d / 32)) / 32 = d / 32) :
    u.table (slot (d / 32)) = blkStart d ∧ blkStart d + 64 ≤ 2 ^ 64 ∧
      blkStart d ∈ savedAddrs u.log := by
  -- the slot is not empty: the null block is not stored to
  have hne : u.table (slot (d / 32)) ≠ 0 := by
    intro h0
    rw [h0] at hdiv
    omega
  obtain ⟨hmod, hlast, hlogged⟩ := h _ hne
  have hhome : u.table (slot (d / 32)) = blkStart d := by
    rw [eq_blkStart_iff hmod]
    omega
  rw [hhome] at hlast hlogged
  exact ⟨hhome, hlast, hlogged⟩

/-- **What holds between two calls.** -/
structure Sound (s : RecordState) : Prop where
  indexed : Indexed s.undo
  reported : commitThreshold < s.undo.log.length → s.returned = true

theorem sound_cleared : Sound RecordState.cleared where
  indexed _ hi := absurd rfl hi
  reported h := absurd h (by decide)

theorem Sound.step {s s' : RecordState} {a : RecordAct} (h : Sound s) (hs : RecordStep s a s') :
    Sound s' := by
  cases a with
  | record mem addr size =>
      obtain ⟨haddr, undo, ret, hrec, rfl⟩ := hs
      rcases undoLogRecordDedup_cases haddr hrec with ⟨rfl, rfl⟩ | ⟨⟨ps, hps, rfl⟩, rfl⟩
      · exact ⟨h.indexed, fun hlen => by rw [h.reported hlen]; rfl⟩
      · refine ⟨h.indexed.foldl hps, fun hlen => ?_⟩
        dsimp only at hlen ⊢
        rw [decide_eq_true hlen, Bool.or_true]
  | setFresh fresh =>
      obtain rfl := hs
      exact ⟨h.indexed, h.reported⟩

/-! ## 4. A skipped call -/

/-- A block in its home slot is skipped by `undo_log_record`. -/
theorem recordBlk_home {mem : ℕ → ℕ} {u : DedupLog} {p : ℕ} (hp : p ≠ 0)
    (hhome : u.table (slot (p / 32)) = p) : recordBlk mem u p = u := by
  have hfound : undoLogInsertLoggedAddr p u.table = (u.table, false) := by
    unfold undoLogInsertLoggedAddr
    rw [insertLoop, if_neg (by rwa [hhome]), if_pos hhome]
  unfold recordBlk
  rw [hfound]
  rfl

/-- A store that lies in one block. -/
theorem blocks_single {d size : ℕ} (hsize : 0 < size) (hblock : (d + size - 1) / 32 = d / 32) :
    blocks d size = [blkStart d] := by
  have hlt : blkStart d < d + size := Nat.lt_of_le_of_lt (blkStart_le d) (by omega)
  have hend : ¬ blkStart d + 32 < d + size := by
    unfold blkStart
    omega
  rw [blocks, blocksFrom, if_pos hlt, blocksFrom, if_neg hend]

/-- **A call for a store to one block, this being in its home slot, changes nothing.** -/
theorem undoLogRecordDedup_home {fresh : Ranges} {mem : ℕ → ℕ} {u : DedupLog} {d size : ℕ}
    (hd : 32 ≤ d) (hblock : (d + size - 1) / 32 = d / 32) (hlast : blkStart d + 64 ≤ 2 ^ 64)
    (hsize : 0 < size) (hhome : u.table (slot (d / 32)) = blkStart d) :
    undoLogRecordDedup fresh mem u d size = some (u, false) ∨
      undoLogRecordDedup fresh mem u d size =
        some (u, decide (commitThreshold < u.log.length)) := by
  have hdiv : blkStart d / 32 = d / 32 := by
    unfold blkStart
    omega
  by_cases hf : fresh.find d size = true
  · refine Or.inl ?_
    rw [undoLogRecordDedup, if_pos hf]
  · refine Or.inr ?_
    have hne : blkStart d ≠ 0 := by
      unfold blkStart
      omega
    have hsame : (blocks d size).foldl (recordBlk mem) u = u := by
      rw [blocks_single hsize hblock, List.foldl_cons, List.foldl_nil]
      exact recordBlk_home hne (by rwa [hdiv])
    have hstop : d + size ≤ 2 ^ 64 - 32 := by
      unfold blkStart at hlast
      omega
    rw [undoLogRecordDedup_eq (Bool.eq_false_iff.mpr hf) hstop, hsame]

/-- The sizes code is emitted for. -/
theorem undoInsertFastPath_two_pow {base : Word} {size k : ℕ} (hk : k ≤ 5) (hsize : size = 2 ^ k) :
    (0 < size ∧ size ≤ 32) ∧ ∃ code, undoInsertFastPath base size = some code := by
  have hpos : 0 < size := by
    rw [hsize]
    exact Nat.two_pow_pos k
  have hle : size ≤ 32 := by
    rw [hsize]
    exact Nat.pow_le_pow_right (by decide) hk
  have hpow : size &&& (size - 1) = 0 := by
    rw [hsize, Nat.and_two_pow_sub_one_eq_mod, Nat.mod_self]
  refine ⟨⟨hpos, hle⟩, ?_⟩
  unfold undoInsertFastPath
  rw [if_neg (by omega), if_pos ⟨hpos, hpow⟩]
  exact ⟨_, rfl⟩

/-- **The fast path agrees with `undo_log_record`** on a store: where the emitted code jumps to
    `skip_label`, a call would change nothing, over any memory, the only block of the store is in the
    log, and a `true` the call would return has been returned before; otherwise the control comes to
    the slow path, with the destination in its register. -/
def FastPathAgrees (st : RecordState) (mem : Word → Option Word) (loggedAddrsHash : Word)
    (regs : State Reg) (size : ℕ) : Prop :=
  ∃ code, undoInsertFastPath loggedAddrsHash size = some code ∧
    (reached (run mem code regs) = some .skip →
      (∀ contents, ∃ ret,
        undoLogRecordDedup st.fresh contents st.undo (regs.reg .dst).toNat size =
          some (st.undo, ret) ∧ (ret = true → st.returned = true)) ∧
      blocks (regs.reg .dst).toNat size = [blkStart (regs.reg .dst).toNat] ∧
      ∃ e ∈ st.undo.log, e.addr = blkStart (regs.reg .dst).toNat) ∧
    (reached (run mem code regs) ≠ some .skip → reached (run mem code regs) = some .slowPath ∧
      (run mem code regs).1.reg .dst = regs.reg .dst)

section Agreement

variable {st : RecordState} {mem : Word → Option Word} {base : Word} {regs : State Reg} {size k : ℕ}

/-- Whatever calls were made since the last clear, an index below 2^31 is enough. -/
theorem fastPathAgrees_low (hbase : base.toNat < 2 ^ 31)
    (hst : Runs RecordStep Always RecordState.cleared st) (hmem : HoldsTable mem base st.undo.table)
    (hk : k ≤ 5) (hsize : size = 2 ^ k) (hdst : 32 ≤ (regs.reg .dst).toNat)
    (hwrap : (regs.reg .dst).toNat + size - 1 < 2 ^ 64) : FastPathAgrees st mem base regs size := by
  have hsound : Sound st := hst.invariant sound_cleared fun _ _ _ h _ hs => h.step hs
  obtain ⟨⟨hpos, hle⟩, code, hcode⟩ := @undoInsertFastPath_two_pow base size k hk hsize
  have hreg := (@reached_eq mem base regs size code hcode hle hwrap).1
  obtain ⟨hskip, helse⟩ :=
    reached_skip_iff (s := regs) hcode hle hwrap hbase hmem hsound.indexed.table_lt
  refine ⟨code, hcode, fun h => ?_, fun h => ⟨helse h, hreg⟩⟩
  obtain ⟨hblock, hdiv⟩ := hskip.mp h
  obtain ⟨hhome, hlast, hlogged⟩ := hsound.indexed.home hdst hdiv
  refine ⟨fun contents => ?_, blocks_single hpos hblock, List.mem_map.mp hlogged⟩
  rcases @undoLogRecordDedup_home st.fresh contents _ _ _ hdst hblock hlast hpos hhome with he | he
  · exact ⟨false, he, fun hf => absurd hf Bool.false_ne_true⟩
  · exact ⟨_, he, fun hret => hsound.reported (of_decide_eq_true hret)⟩

/-- **A fault**: the store lies in one block, and the code reads where there is no memory. -/
theorem reached_fault (hk : k ≤ 5) (hsize : size = 2 ^ k)
    (hwrap : (regs.reg .dst).toNat + size - 1 < 2 ^ 64)
    (hblock : ((regs.reg .dst).toNat + size - 1) / 32 = (regs.reg .dst).toNat / 32)
    (hfault : mem (slotAddr base (regs.reg .dst)) = none) :
    ∃ code, undoInsertFastPath base size = some code ∧ reached (run mem code regs) = none := by
  obtain ⟨⟨-, hle⟩, code, hcode⟩ := @undoInsertFastPath_two_pow base size k hk hsize
  refine ⟨code, hcode, ?_⟩
  rw [(@reached_eq mem base regs size code hcode hle hwrap).2, if_pos hblock, hfault,
    Option.map_none]

/-- The control then comes to neither label. -/
theorem not_fastPathAgrees_of_fault
    (hfault : ∃ code, undoInsertFastPath base size = some code ∧ reached (run mem code regs) = none) :
    ¬ FastPathAgrees st mem base regs size := by
  rintro ⟨code, hcode, -, helse⟩
  obtain ⟨code', hcode', hnone⟩ := hfault
  obtain rfl := Option.some.inj (hcode.symm.trans hcode')
  rw [hnone] at helse
  cases (helse (by decide)).1

end Agreement

/-! ## 5. Where the index lies -/

/-- A memory that is mapped where the index lies, and nowhere else. -/
def tableImage (loggedAddrsHash : Word) (t : AddrTable) (a : Word) : Option Word :=
  let i := (a - loggedAddrsHash).toNat / 8
  if 8 * i = (a - loggedAddrsHash).toNat ∧ i < loggedAddrHashSize then
    some (BitVec.ofNat 64 (t (slot i)))
  else none

theorem holdsTable_image (base : Word) (t : AddrTable) : HoldsTable (tableImage base t) base t := by
  intro i
  have hi : i.val < 16384 := i.isLt
  have hoff : (BitVec.ofNat 64 (8 * i.val) + base - base).toNat = 8 * i.val := by
    rw [BitVec.add_sub_cancel, BitVec.toNat_ofNat]
    omega
  have hdiv : 8 * i.val / 8 = i.val := Nat.mul_div_cancel_left _ (by decide)
  have hslot : slot i.val = i := Fin.ext (Nat.mod_eq_of_lt i.isLt)
  simp only [tableImage, hoff, hdiv, hslot]
  exact if_pos ⟨trivial, i.isLt⟩

/-- **An index from 2^31 on is read 2^32 lower**, where it does not lie. -/
theorem tableImage_slotAddr_high {base dst : Word} {t : AddrTable} (hlow : 2 ^ 31 ≤ base.toNat)
    (hhigh : base.toNat < 2 ^ 32) : tableImage base t (slotAddr base dst) = none := by
  have hi : (slot (dst.toNat / 32)).val < 16384 := (slot (dst.toNat / 32)).isLt
  have hoff : (slotAddr base dst - base).toNat =
      2 ^ 64 - 2 ^ 32 + 8 * (slot (dst.toNat / 32)).val := by
    rw [slotAddr, signExtend_setWidth_high hlow hhigh, BitVec.toNat_sub, BitVec.toNat_add,
      BitVec.toNat_sub, BitVec.toNat_ofNat, BitVec.toNat_ofNat]
    omega
  refine if_neg fun h => ?_
  have hlt := h.2
  rw [hoff] at hlt
  exact absurd hlt (by unfold loggedAddrHashSize; omega)

/-- **The fast path agrees with `undo_log_record` exactly when the index lies below 2^31**, of the
    addresses that the assertion of `undo_log_init` admits. -/
theorem fastPath_agrees_iff {base : Word} (hok : HashAddrOk base) :
    (∀ (st : RecordState) (mem : Word → Option Word) (regs : State Reg) (size k : ℕ),
      Runs RecordStep Always RecordState.cleared st → HoldsTable mem base st.undo.table → k ≤ 5 →
      size = 2 ^ k → 32 ≤ (regs.reg .dst).toNat → (regs.reg .dst).toNat + size - 1 < 2 ^ 64 →
      FastPathAgrees st mem base regs size) ↔ base.toNat < 2 ^ 31 := by
  constructor
  · intro h
    by_contra hlow
    have hhigh : base.toNat < 2 ^ 32 := lt_trans hok (by decide)
    refine not_fastPathAgrees_of_fault (reached_fault (k := 3) (by decide) rfl (by decide) (by decide)
      (tableImage_slotAddr_high (not_lt.mp hlow) hhigh))
      (h .cleared (tableImage base AddrTable.cleared) ⟨fun _ => 4096, false, false⟩ 8 3 .start
        (holdsTable_image base _) (by decide) rfl (by decide) (by decide))
  · intro hbase st mem regs size k hst hmem hk hsize hdst hwrap
    exact fastPathAgrees_low hbase hst hmem hk hsize hdst hwrap

/-- The index at 2^28, and a store of 8 bytes at 72 after the block at 64 has been recorded: the call
    is skipped, and would do nothing. An index at 2^31 is too high. -/
theorem fastPath_agrees_recorded :
    let t : AddrTable := Function.update AddrTable.cleared (slot 2) 64
    let st : RecordState := ⟨⟨[Entry.save (fun _ => 0) 64], t⟩, Ranges.empty, false⟩
    FastPathAgrees st (tableImage 0x10000000 t) 0x10000000 ⟨fun _ => 72, false, false⟩ 8 ∧
      ¬ ∀ (st : RecordState) (mem : Word → Option Word) (regs : State Reg) (size k : ℕ),
        Runs RecordStep Always RecordState.cleared st → HoldsTable mem 0x80000000 st.undo.table →
        k ≤ 5 → size = 2 ^ k → 32 ≤ (regs.reg .dst).toNat →
        (regs.reg .dst).toNat + size - 1 < 2 ^ 64 → FastPathAgrees st mem 0x80000000 regs size := by
  intro t st
  have hrec : undoLogRecordDedup Ranges.empty (fun _ => 0) DedupLog.cleared 64 8 =
      some (st.undo, false) := by
    rw [undoLogRecordDedup_eq (by decide) (by decide), blocks_single (by decide) (by decide)]
    rfl
  have hst : Runs RecordStep Always RecordState.cleared st :=
    .step (.record (fun _ => 0) 64 8) .start trivial ⟨by decide, _, _, hrec, rfl⟩
  refine ⟨(@fastPath_agrees_iff 0x10000000 (by decide)).mpr (by decide) st _ _ 8 3 hst
    (holdsTable_image _ t) (by decide) rfl (by decide) (by decide), fun h => ?_⟩
  exact absurd ((@fastPath_agrees_iff 0x80000000 (by decide)).mp h) (by decide)

/-- **An index at 2^31**, nothing recorded, and a store of 8 bytes at 4096: the code faults. -/
theorem fastPath_faults :
    HashAddrOk 0x80000000 ∧
      HoldsTable (tableImage 0x80000000 AddrTable.cleared) 0x80000000 AddrTable.cleared ∧
      (∃ code, undoInsertFastPath 0x80000000 8 = some code ∧
        reached (run (tableImage 0x80000000 AddrTable.cleared) code ⟨fun _ => 4096, false, false⟩) =
          none) ∧
      ¬ FastPathAgrees RecordState.cleared (tableImage 0x80000000 AddrTable.cleared) 0x80000000
        ⟨fun _ => 4096, false, false⟩ 8 := by
  have hfault : ∃ code, undoInsertFastPath 0x80000000 8 = some code ∧
      reached (run (tableImage 0x80000000 AddrTable.cleared) code ⟨fun _ => 4096, false, false⟩) =
        none :=
    reached_fault (k := 3) (by decide) rfl (by decide) (by decide)
      (tableImage_slotAddr_high (by decide) (by decide))
  exact ⟨by decide, holdsTable_image _ _, hfault, not_fastPathAgrees_of_fault hfault⟩

end Persimmon
