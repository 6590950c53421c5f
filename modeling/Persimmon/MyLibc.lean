/-
  File:      Persimmon/MyLibc.lean
  Subject:   `memcpy`, `memmove` AND `memset` OF THE BACKGROUND (src/undo/my_libc/musl/memcpy.s,
             memmove.s, memset.s).

  The background cannot use libc while it is instrumented, so it has these three of its own. A
  register is a natural number below 2^64, a memory gives a byte for an address. The stores of
  `memset` are those of `Memset.lean`: every byte written is the low byte of `c`.

  * `Copying`, `movs`, `repMovs` -- the registers of a copy and its instructions; `memcpyFwd`,
    `memmove` -- the functions;
  * `Copied` -- the invariant of a copy from the front; `memcpyFwd_eq` -- what it leaves;
  * `memmove_moves` -- `memmove` copies right whether or not the two intervals overlap;
  * `memsetStores`, `memsetStores_exact` -- `memset` writes exactly what it is asked to.
-/
import Mathlib.Logic.Function.Iterate
import Persimmon.Lib.MemoryCopy
import Persimmon.Memset

namespace Persimmon

open MemoryCopy

/-! ## 1. Copies -/

/-- The registers of a copy, and the memory. -/
structure Copying where
  rdi : ℕ
  rsi : ℕ
  rdx : ℕ
  mem : ℕ → ℕ

/-- `movsb`, `movsq`: `w` bytes are read, then written, and both pointers advance. -/
def Copying.movs (w : ℕ) (s : Copying) : Copying :=
  { s with rdi := s.rdi + w, rsi := s.rsi + w, mem := moved s.rdi s.rsi w s.mem }

/-- `rep movsb`, `rep movsq` -/
def Copying.repMovs (w : ℕ) : ℕ → Copying → Copying
  | 0, s => s
  | rcx + 1, s => (s.movs w).repMovs w rcx

/-- `2: movsb; dec %rdx; test $7,%edi; jnz 2b`. One unit of fuel for each pass; it never runs out
    (`Copied.align`). -/
def Copying.align : ℕ → Copying → Copying
  | 0, s => s
  | fuel + 1, s =>
      let s' := { s.movs 1 with rdx := s.rdx - 1 }
      if s'.rdi % 8 ≠ 0 then s'.align fuel else s'

/-- **`memcpy`**: byte by byte to an address aligned to 8, then eight bytes at a time, then the
    rest. The loop over the rest ends when `%edx`, the length modulo 8, is 0. -/
def memcpyFwd (dest src n : ℕ) (mem : ℕ → ℕ) : Copying :=
  let s : Copying := ⟨dest, src, n, mem⟩
  let s := if n < 8 ∨ dest % 8 = 0 then s else s.align 8
  let s := s.repMovs 8 (s.rdx / 8)
  s.repMovs 1 (s.rdx % 8)

/-- `movsb` with the direction flag set: both pointers go down. -/
def Copying.movsDown (s : Copying) : Copying :=
  { s with rdi := sub64 s.rdi 1, rsi := sub64 s.rsi 1, mem := moved s.rdi s.rsi 1 s.mem }

/-- `std; rep movsb` -/
def Copying.repMovsDown (rcx : ℕ) (s : Copying) : Copying := Copying.movsDown^[rcx] s

/-- **`memmove`**: the memory it leaves, and what it returns. -/
def memmove (dest src n : ℕ) (mem : ℕ → ℕ) : (ℕ → ℕ) × ℕ :=
  if n ≤ sub64 dest src then ((memcpyFwd dest src n mem).mem, dest)
  else
    let s := Copying.repMovsDown n
      ⟨sub64 (add64 dest n) 1, sub64 (add64 src n) 1, n, mem⟩
    (s.mem, add64 s.rdi 1)

/-! ## 2. From the front -/

/-- **`k` of the `n` bytes are copied**, and the pointers stand behind them. -/
structure Copied (dest src n : ℕ) (mem : ℕ → ℕ) (k : ℕ) (s : Copying) : Prop where
  le : k ≤ n
  rdi : s.rdi = dest + k
  rsi : s.rsi = src + k
  mem : s.mem = moved dest src k mem

section Front

variable {dest src n k : ℕ} {mem : ℕ → ℕ} {s : Copying}

theorem Copied.movs (h : Copied dest src n mem k s) (hap : dest ≤ src ∨ src + n ≤ dest) {w : ℕ}
    (hw : k + w ≤ n) : Copied dest src n mem (k + w) (s.movs w) where
  le := hw
  rdi := by rw [Copying.movs, h.rdi, Nat.add_assoc]
  rsi := by rw [Copying.movs, h.rsi, Nat.add_assoc]
  mem := by rw [Copying.movs, h.rdi, h.rsi, h.mem, moved_front hap hw]

theorem Copied.repMovs (h : Copied dest src n mem k s) (hap : dest ≤ src ∨ src + n ≤ dest)
    {w rcx : ℕ} (hw : k + w * rcx ≤ n) : Copied dest src n mem (k + w * rcx) (s.repMovs w rcx) := by
  induction rcx generalizing k s with
  | zero => exact h
  | succ rcx ih =>
      rw [Nat.mul_succ] at hw
      have hend := ih (h.movs hap (w := w) (by omega)) (by omega)
      rwa [show k + w + w * rcx = k + w * (rcx + 1) by rw [Nat.mul_succ]; omega] at hend

theorem repMovs_rdx (w rcx : ℕ) (s : Copying) : (s.repMovs w rcx).rdx = s.rdx := by
  induction rcx generalizing s with
  | zero => rfl
  | succ rcx ih => exact ih (s.movs w)

/-- The loop up to an aligned address. -/
theorem Copied.align (h : Copied dest src n mem k s) (hap : dest ≤ src ∨ src + n ≤ dest)
    (hrdx : s.rdx = n - k) {fuel : ℕ} (hne : s.rdi % 8 ≠ 0) (hf : 8 - s.rdi % 8 ≤ fuel)
    (hk : k + (8 - s.rdi % 8) ≤ n) :
    ∃ k', Copied dest src n mem k' (s.align fuel) ∧ (s.align fuel).rdx = n - k' := by
  induction fuel generalizing k s with
  | zero => omega
  | succ fuel ih =>
      have hstep := h.movs hap (w := 1) (by omega)
      have hstep' : Copied dest src n mem (k + 1) { s.movs 1 with rdx := s.rdx - 1 } :=
        ⟨hstep.le, hstep.rdi, hstep.rsi, hstep.mem⟩
      have hrdi : (s.movs 1).rdi = s.rdi + 1 := rfl
      unfold Copying.align
      simp only [hrdi]
      split_ifs with hmod
      · exact ih hstep' (by dsimp only; omega) (by dsimp only; omega) (by dsimp only; omega)
          (by dsimp only; omega)
      · exact ⟨k + 1, hstep', by dsimp only; omega⟩

/-- **`memcpy`** copies when the destination lies below the source or apart from it. -/
theorem memcpyFwd_eq (hap : dest ≤ src ∨ src + n ≤ dest) :
    (memcpyFwd dest src n mem).mem = moved dest src n mem := by
  have hstart : Copied dest src n mem 0 ⟨dest, src, n, mem⟩ :=
    ⟨Nat.zero_le n, rfl, rfl, (moved_zero _ _ _).symm⟩
  obtain ⟨k, hk, hrdx⟩ : ∃ k, Copied dest src n mem k
      (if n < 8 ∨ dest % 8 = 0 then (⟨dest, src, n, mem⟩ : Copying)
        else Copying.align 8 ⟨dest, src, n, mem⟩) ∧
      (if n < 8 ∨ dest % 8 = 0 then (⟨dest, src, n, mem⟩ : Copying)
        else Copying.align 8 ⟨dest, src, n, mem⟩).rdx = n - k := by
    split_ifs with hskip
    · exact ⟨0, hstart, rfl⟩
    · exact hstart.align hap rfl (by dsimp only; omega) (by dsimp only; omega) (by dsimp only; omega)
  have hle := hk.le
  have hquads := hk.repMovs hap (show k + 8 * ((n - k) / 8) ≤ n by omega)
  have hrest := hquads.repMovs hap (show k + 8 * ((n - k) / 8) + 1 * ((n - k) % 8) ≤ n by omega)
  unfold memcpyFwd
  simp only [hrdx, repMovs_rdx]
  rw [hrest.mem]
  congr 1
  omega

end Front

/-! ## 3. From the back -/

section Back

variable {dest src n k : ℕ} {mem : ℕ → ℕ} {s : Copying}

theorem sub64_one {a : ℕ} (h : a < 2 ^ 64) : sub64 (a + 1) 1 = a := by
  unfold sub64
  omega

/-- The loop downwards, with `k` bytes left to copy. -/
theorem repMovsDown_spec (h : src ≤ dest) (hd : dest + n ≤ 2 ^ 64) (hk : k ≤ n)
    (hrdi : s.rdi = sub64 (dest + k) 1) (hrsi : s.rsi = sub64 (src + k) 1)
    (hmem : s.mem = moved (dest + k) (src + k) (n - k) mem) :
    (s.repMovsDown k).mem = moved dest src n mem ∧ (s.repMovsDown k).rdi = sub64 dest 1 := by
  induction k generalizing s with
  | zero => exact ⟨hmem, hrdi⟩
  | succ k ih =>
      have hdi : s.rdi = dest + k := by
        rw [hrdi, ← Nat.add_assoc]
        exact sub64_one (by omega)
      have hsi : s.rsi = src + k := by
        rw [hrsi, ← Nat.add_assoc]
        exact sub64_one (by omega)
      have hpiece : moved (dest + k) (src + k) 1
          (moved (dest + k + 1) (src + k + 1) (n - (k + 1)) mem) =
            moved (dest + k) (src + k) (n - k) mem := by
        rw [moved_back (by omega), show 1 + (n - (k + 1)) = n - k by omega]
      rw [Copying.repMovsDown, Function.iterate_succ_apply]
      refine ih (by omega) ?_ ?_ ?_
      · simp only [Copying.movsDown, hdi]
      · simp only [Copying.movsDown, hsi]
      · simp only [Copying.movsDown, hdi, hsi, hmem]
        exact hpiece

/-- **`memmove` copies**, also when the two intervals overlap, and returns its destination. -/
theorem memmove_moves (hd : dest + n ≤ 2 ^ 64) (hs : src + n ≤ 2 ^ 64) (hdest : dest < 2 ^ 64)
    (hsrc : src < 2 ^ 64) : memmove dest src n mem = (moved dest src n mem, dest) := by
  unfold memmove
  by_cases hfront : n ≤ sub64 dest src
  · rw [if_pos hfront, memcpyFwd_eq (by unfold sub64 at hfront; omega)]
  · rw [if_neg hfront]
    have hle : src ≤ dest := by
      unfold sub64 at hfront
      omega
    have hwrap : ∀ a, a + n ≤ 2 ^ 64 → sub64 (add64 a n) 1 = sub64 (a + n) 1 := fun a ha => by
      unfold sub64 add64
      omega
    obtain ⟨hmem, hrdi⟩ := @repMovsDown_spec dest src n n mem
      ⟨sub64 (add64 dest n) 1, sub64 (add64 src n) 1, n, mem⟩ hle hd (le_refl n)
      (hwrap dest hd) (hwrap src hs) (by simp)
    have hret : add64 (sub64 dest 1) 1 = dest := by
      unfold sub64 add64
      omega
    simp only [hmem, hrdi, hret]

end Back

/-- Sixteen bytes moved up by eight: the last one is the sixteenth of those that were there. -/
theorem memmove_moves_overlap :
    (memmove 4104 4096 16 (· - 4096)).1 4119 = 15 ∧ (memmove 4104 4096 16 (· - 4096)).2 = 4104 := by
  rw [memmove_moves (by decide) (by decide) (by decide) (by decide)]
  exact ⟨rfl, rfl⟩

/-! ## 4. `memset` -/

/-- `rep stosq` -/
def stosq (rdi rcx : ℕ) : List Put := (List.range rcx).map fun i => ⟨false, rdi + 8 * i, 8⟩

/-- **`memset`**: its stores, of the bytes of the word that holds eight times the low byte of `c`. -/
def memsetStores (rdi rdx : ℕ) : List Put :=
  if 126 < rdx then
    ⟨false, rdi + rdx - 8, 8⟩ ::
      if rdi % 16 = 0 then stosq rdi (rdx / 8)
      else
        let edx := (2 ^ 32 - rdi % 2 ^ 32) % 16
        ⟨false, rdi, 8⟩ :: ⟨false, rdi + 8, 8⟩ :: stosq (rdi + edx) ((rdx - edx) / 8)
  else if rdx = 0 then []
  else [⟨false, rdi, 1⟩, ⟨false, rdi + rdx - 1, 1⟩] ++
    if rdx ≤ 2 then []
    else [⟨false, rdi + 1, 2⟩, ⟨false, rdi + rdx - 3, 2⟩] ++
      if rdx ≤ 6 then []
      else [⟨false, rdi + 3, 4⟩, ⟨false, rdi + rdx - 7, 4⟩] ++
        if rdx ≤ 14 then []
        else [⟨false, rdi + 7, 8⟩, ⟨false, rdi + rdx - 15, 8⟩] ++
          if rdx ≤ 30 then []
          else [⟨false, rdi + 15, 8⟩, ⟨false, rdi + 23, 8⟩, ⟨false, rdi + rdx - 31, 8⟩,
              ⟨false, rdi + rdx - 23, 8⟩] ++
            if rdx ≤ 62 then []
            else [⟨false, rdi + 31, 8⟩, ⟨false, rdi + 39, 8⟩, ⟨false, rdi + 47, 8⟩,
              ⟨false, rdi + 55, 8⟩, ⟨false, rdi + rdx - 63, 8⟩, ⟨false, rdi + rdx - 55, 8⟩,
              ⟨false, rdi + rdx - 47, 8⟩, ⟨false, rdi + rdx - 39, 8⟩]

/-- `movzbq %sil,%rax; imul %r8,%rax` -/
def memsetWord (c : ℕ) : ℕ := c % 256 * 0x101010101010101 % 2 ^ 64

/-- Every byte of the word is the low byte of `c`, as `fill` has it. -/
theorem memsetWord_byte (c : ℕ) {i : ℕ} (h : i < 8) : memsetWord c / 256 ^ i % 256 = c % 256 := by
  have hall : ∀ b < 256, ∀ i < 8, b * 0x101010101010101 % 2 ^ 64 / 256 ^ i % 256 = b := by
    decide +kernel
  exact hall _ (Nat.mod_lt _ (by decide)) i h

/-- The stores reach `a` bytes from both ends, and no byte besides. -/
def BothEnds (ps : List Put) (rdi rdx a : ℕ) : Prop :=
  ∀ x, (∃ p ∈ ps, p.Writes x) ↔ rdi ≤ x ∧ x < rdi + rdx ∧ (x < rdi + a ∨ rdi + rdx ≤ x + a)

/-- The two ends meet. -/
theorem BothEnds.meet {ps : List Put} {rdi rdx a : ℕ} (h : BothEnds ps rdi rdx a)
    (ha : rdx ≤ 2 * a) (x : ℕ) : (∃ p ∈ ps, p.Writes x) ↔ rdi ≤ x ∧ x < rdi + rdx := by
  rw [h x]
  omega

/-- Each step writes as much at both ends as the steps before it together, and one byte more. -/
theorem BothEnds.append {ps qs : List Put} {rdi rdx a m : ℕ} (h : BothEnds ps rdi rdx a)
    (hm : m = 2 * a) (hlt : m < rdx)
    (hq : ∀ x, (∃ q ∈ qs, q.Writes x) ↔ rdi + a ≤ x ∧ x < rdi + (m + 1) ∨
      rdi + rdx ≤ x + (m + 1) ∧ x + a < rdi + rdx) : BothEnds (ps ++ qs) rdi rdx (m + 1) := by
  intro x
  have hsplit : (∃ p ∈ ps ++ qs, p.Writes x) ↔ (∃ p ∈ ps, p.Writes x) ∨ ∃ q ∈ qs, q.Writes x := by
    simp only [List.mem_append, or_and_right, exists_or]
  rw [hsplit, h x, hq x]
  omega

/-- **One `cmp $m,%edx; jbe 1f` and the stores behind it**: the ends have met, or the step is made
    and the rest is left. -/
theorem BothEnds.step {ps qs rest : List Put} {rdi rdx a m : ℕ} (h : BothEnds ps rdi rdx a)
    (hm : m = 2 * a)
    (hq : m < rdx → ∀ x, (∃ q ∈ qs, q.Writes x) ↔ rdi + a ≤ x ∧ x < rdi + (m + 1) ∨
      rdi + rdx ≤ x + (m + 1) ∧ x + a < rdi + rdx)
    (hrest : BothEnds (ps ++ qs) rdi rdx (m + 1) →
      ∀ x, (∃ p ∈ ps ++ qs ++ rest, p.Writes x) ↔ rdi ≤ x ∧ x < rdi + rdx) (x : ℕ) :
    (∃ p ∈ ps ++ if rdx ≤ m then [] else qs ++ rest, p.Writes x) ↔ rdi ≤ x ∧ x < rdi + rdx := by
  by_cases hle : rdx ≤ m
  · rw [if_pos hle, List.append_nil]
    exact h.meet (by omega) x
  · have hlt : m < rdx := by omega
    rw [if_neg hle, ← List.append_assoc]
    exact hrest (h.append hm hlt (hq hlt)) x

theorem writes_stosq (rdi rcx x : ℕ) :
    (∃ p ∈ stosq rdi rcx, p.Writes x) ↔ rdi ≤ x ∧ x < rdi + 8 * rcx := by
  simp only [stosq, List.mem_map, List.mem_range, Put.Writes]
  constructor
  · rintro ⟨_, ⟨i, hi, rfl⟩, h1, h2⟩
    dsimp only at h1 h2
    omega
  · rintro ⟨h1, h2⟩
    exact ⟨_, ⟨(x - rdi) / 8, by omega, rfl⟩, by dsimp only; omega, by dsimp only; omega⟩

/-- **`memset` writes exactly `[rdi, rdi + rdx)`**, also when that is empty. -/
theorem memsetStores_exact (rdi rdx c : ℕ) (mem : ℕ → ℕ) :
    fill c (memsetStores rdi rdx) mem =
      fun x => if rdi ≤ x ∧ x < rdi + rdx then c % 256 else mem x := by
  funext x
  unfold fill
  refine if_congr ?_ rfl rfl
  unfold memsetStores
  by_cases hbig : 126 < rdx
  · rw [if_pos hbig]
    by_cases hal : rdi % 16 = 0
    · simp only [hal, if_true, List.mem_cons, exists_eq_or_imp, writes_stosq]
      simp only [Put.Writes]
      omega
    · simp only [hal, if_false, List.mem_cons, exists_eq_or_imp, writes_stosq]
      simp only [Put.Writes]
      omega
  rw [if_neg hbig]
  by_cases h0 : rdx = 0
  · simp only [h0, if_true, List.not_mem_nil, false_and, exists_false, false_iff]
    omega
  rw [if_neg h0]
  have h1 : BothEnds [⟨false, rdi, 1⟩, ⟨false, rdi + rdx - 1, 1⟩] rdi rdx 1 := fun y => by
    simp only [List.mem_cons, List.not_mem_nil, or_false, exists_eq_or_imp, exists_eq_left,
      Put.Writes]
    omega
  refine h1.step rfl (fun hlt y => ?_) (fun h3 => h3.step rfl (fun hlt y => ?_) fun h7 =>
    h7.step rfl (fun hlt y => ?_) fun h15 => h15.step rfl (fun hlt y => ?_) fun h31 y => ?_) x
  case refine_5 =>
    by_cases hle62 : rdx ≤ 62
    · rw [if_pos hle62, List.append_nil]
      exact h31.meet hle62 y
    · rw [if_neg hle62]
      refine (h31.append (m := 62) rfl (by omega) fun z => ?_).meet (by omega) y
      simp only [List.mem_cons, List.not_mem_nil, or_false, exists_eq_or_imp, exists_eq_left,
        Put.Writes]
      omega
  all_goals
    simp only [List.mem_cons, List.not_mem_nil, or_false, exists_eq_or_imp, exists_eq_left,
      Put.Writes]
    omega

end Persimmon
