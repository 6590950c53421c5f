/-
  File:      Persimmon/Memset.lean
  Subject:   `pmem_memset`, WHICH CLEARS THE UNDO LOG (src/undo/memset_nt_avx.cc:
             `memset_movnt_avx`; src/undo/flush.h).

  The destination is filled by stores of 1 to 32 bytes: ordinary ones up to the first line boundary
  and for an odd rest, non-temporal ones in between, which the processor takes only at addresses
  aligned to their size. All of them write the low byte of `c`.

  * `Put`, `fill` -- a store, and what a list of them leaves;
  * `memsetSmallAvx`, `memsetMovnt`, `memsetMovntAvx` -- the functions of the file;
  * `Filled` -- the invariant of the function: what is written so far is what lies behind `dest`;
  * `memsetMovntAvx_exact` -- no assertion fails, no non-temporal store is misaligned, and exactly
    `[dest, dest + len)` is written, unless `len` is 0 and `dest` is not aligned to a line;
  * `memsetMovntAvx_lines` -- a sequence of whole lines: two non-temporal stores for each.
-/
import Mathlib.Data.List.Range
import Persimmon.Word

namespace Persimmon

/-! ## 1. Stores -/

/-- A store of `size` bytes, all of them the low byte of `c`. -/
structure Put where
  nt : Bool
  addr : ℕ
  size : ℕ
  deriving DecidableEq, Repr

/-- The address is one of those the store writes. -/
def Put.Writes (p : Put) (x : ℕ) : Prop := p.addr ≤ x ∧ x < p.addr + p.size

instance (p : Put) (x : ℕ) : Decidable (p.Writes x) := inferInstanceAs (Decidable (_ ∧ _))

/-- A non-temporal store of a width there is an instruction for, aligned to it; the processor faults
    on a misaligned one. -/
def Put.Aligned (p : Put) : Prop :=
  p.nt = true → p.size ∈ [4, 8, 16, 32] ∧ p.addr % p.size = 0

/-- A memory after some stores. -/
def fill (c : ℕ) (ps : List Put) (mem : ℕ → ℕ) : ℕ → ℕ :=
  fun x => if ∃ p ∈ ps, p.Writes x then c % 256 else mem x

/-! ## 2. `memset_movnt_avx` -/

/-- **`memset_small_avx`**; no result when its assertion fails. -/
def memsetSmallAvx (dest len : ℕ) : Option (List Put) :=
  if 64 < len then none
  else some <|
    if len ≤ 8 then
      if len ≤ 2 then
        if len = 2 then [⟨false, dest, 2⟩] else [⟨false, dest, 1⟩]
      else if 4 < len then [⟨false, dest, 4⟩, ⟨false, dest + len - 4, 4⟩]
      else [⟨false, dest, 2⟩, ⟨false, dest + len - 2, 2⟩]
    else if len ≤ 32 then
      if 16 < len then [⟨false, dest, 16⟩, ⟨false, dest + len - 16, 16⟩]
      else [⟨false, dest, 8⟩, ⟨false, dest + len - 8, 8⟩]
    else [⟨false, dest, 32⟩, ⟨false, dest + len - 32, 32⟩]

/-- `memset_movnt8x64b`, `memset_movnt4x64b`, `memset_movnt2x64b` and `memset_movnt1x64b`: two
    non-temporal stores for each of `k` lines. -/
def memsetMovnt (k dest : ℕ) : List Put := (List.range (2 * k)).map fun i => ⟨true, dest + 32 * i, 32⟩

def utilIsPow2 (v : ℕ) : Bool := decide (v ≠ 0) && decide (v &&& (v - 1) = 0)

/-- The variables of `memset_movnt_avx`, and what it has stored so far. -/
structure Filling where
  dest : ℕ
  len : ℕ
  puts : List Put

/-- `memset_movntkx64b(dest, ymm); dest += k * 64; len -= k * 64;` -/
def Filling.movnt (k : ℕ) (s : Filling) : Filling :=
  ⟨s.dest + k * 64, s.len - k * 64, s.puts ++ memsetMovnt k s.dest⟩

/-- Up to the first line boundary. -/
def Filling.head (s : Filling) : Option Filling :=
  let cnt := s.dest % 64
  if 0 < cnt then
    let cnt := if s.len < 64 - cnt then s.len else 64 - cnt
    (memsetSmallAvx s.dest cnt).map fun ps => ⟨s.dest + cnt, s.len - cnt, s.puts ++ ps⟩
  else some s

/-- The loop. One unit of fuel for each pass; it never runs out (`Filling.loop_len`). -/
def Filling.loop : ℕ → Filling → Filling
  | 0, s => s
  | fuel + 1, s => if 8 * 64 ≤ s.len then (s.movnt 8).loop fuel else s

/-- One of the three `if`s behind the loop. -/
def Filling.movntIf (k : ℕ) (s : Filling) : Filling := if k * 64 ≤ s.len then s.movnt k else s

/-- The rest, less than a line. -/
def Filling.rest (s : Filling) : Option (List Put) :=
  if s.len = 0 then some s.puts
  else if utilIsPow2 s.len = true ∧ (s.len = 32 ∨ s.len = 16 ∨ s.len = 8 ∨ s.len = 4) then
    -- `memset_movnt1x32b`, `memset_movnt1x16b`, `memset_movnt1x8b`, `memset_movnt1x4b`
    some (s.puts ++ [⟨true, s.dest, s.len⟩])
  else (memsetSmallAvx s.dest s.len).map (s.puts ++ ·)

/-- **`memset_movnt_avx`**: its stores; no result when an assertion fails. -/
def memsetMovntAvx (dest len : ℕ) : Option (List Put) :=
  (Filling.head ⟨dest, len, []⟩).bind fun s =>
    ((((s.loop (s.len / 512)).movntIf 4).movntIf 2).movntIf 1).rest

/-! ## 3. What the pieces write -/

/-- The stores write exactly `[a, b)`, and no non-temporal one is misaligned. -/
structure Writes (ps : List Put) (a b : ℕ) : Prop where
  writes : ∀ x, (∃ p ∈ ps, p.Writes x) ↔ a ≤ x ∧ x < b
  aligned : ∀ p ∈ ps, p.Aligned

theorem Writes.nil (a : ℕ) : Writes [] a a :=
  ⟨fun x => ⟨fun ⟨p, hp, _⟩ => absurd hp List.not_mem_nil, fun h => absurd h.2 (by omega)⟩,
    fun p hp => absurd hp List.not_mem_nil⟩

theorem Writes.append {ps qs : List Put} {a b c : ℕ} (hp : Writes ps a b) (hq : Writes qs b c)
    (hab : a ≤ b) (hbc : b ≤ c) : Writes (ps ++ qs) a c where
  writes x := by
    have h : (∃ p ∈ ps ++ qs, p.Writes x) ↔ (∃ p ∈ ps, p.Writes x) ∨ ∃ p ∈ qs, p.Writes x := by
      simp only [List.mem_append, or_and_right, exists_or]
    rw [h, hp.writes, hq.writes]
    omega
  aligned p h := (List.mem_append.mp h).elim (hp.aligned p) (hq.aligned p)

theorem Writes.single {p : Put} (h : p.Aligned) : Writes [p] p.addr (p.addr + p.size) :=
  ⟨fun x => by simp [Put.Writes], fun q hq => List.mem_singleton.mp hq ▸ h⟩

/-- Two ordinary stores that meet or overlap. -/
theorem Writes.pair {a n w : ℕ} (h1 : w ≤ n) (h2 : n ≤ 2 * w) :
    Writes [⟨false, a, w⟩, ⟨false, a + n - w, w⟩] a (a + n) where
  writes x := by
    simp only [List.mem_cons, List.not_mem_nil, or_false, exists_eq_or_imp, exists_eq_left,
      Put.Writes]
    omega
  aligned p hp hnt := by
    simp only [List.mem_cons, List.not_mem_nil, or_false] at hp
    rcases hp with rfl | rfl <;> cases hnt

/-- **`memset_small_avx`** writes what it is asked to, and one byte when asked for none. -/
theorem memsetSmallAvx_writes (dest : ℕ) {len : ℕ} (h : len ≤ 64) :
    ∃ ps, memsetSmallAvx dest len = some ps ∧ Writes ps dest (dest + max len 1) := by
  unfold memsetSmallAvx
  rw [if_neg (by omega)]
  refine ⟨_, rfl, ?_⟩
  rcases Nat.eq_zero_or_pos len with rfl | hpos
  · exact Writes.single fun h => Bool.noConfusion h
  rw [Nat.max_eq_left hpos]
  split_ifs with h8 h2 he h4 h32 h16
  · subst he
    exact Writes.single fun h => Bool.noConfusion h
  · obtain rfl : len = 1 := by omega
    exact Writes.single fun h => Bool.noConfusion h
  all_goals exact Writes.pair (by omega) (by omega)

/-- The lines of `memset_movntkx64b`. -/
theorem memsetMovnt_writes (k : ℕ) {dest : ℕ} (h : dest % 64 = 0) :
    Writes (memsetMovnt k dest) dest (dest + k * 64) where
  writes x := by
    simp only [memsetMovnt, List.mem_map, List.mem_range, Put.Writes]
    constructor
    · rintro ⟨_, ⟨i, hi, rfl⟩, h1, h2⟩
      dsimp only at h1 h2
      omega
    · rintro ⟨h1, h2⟩
      exact ⟨_, ⟨(x - dest) / 32, by omega, rfl⟩, by dsimp only; omega, by dsimp only; omega⟩
  aligned p hp _ := by
    obtain ⟨i, -, rfl⟩ := List.mem_map.mp hp
    exact ⟨by simp, by dsimp only; omega⟩

/-! ## 4. The invariant of the function -/

/-- **What is written so far** of `[a, b)` is what lies behind `dest`, which is aligned to a line
    while anything is left. -/
structure Filled (a b : ℕ) (s : Filling) : Prop where
  le : a ≤ s.dest
  left : s.dest + s.len = b
  puts : Writes s.puts a s.dest
  boundary : s.len = 0 ∨ s.dest % 64 = 0

theorem Filled.movnt {a b : ℕ} {s : Filling} (h : Filled a b s) {k : ℕ} (hk : k * 64 ≤ s.len) :
    Filled a b (s.movnt k) := by
  obtain ⟨hle, hleft, hputs, hb⟩ := h
  rcases Nat.eq_zero_or_pos k with rfl | hpos
  · simpa [Filling.movnt, memsetMovnt] using Filled.mk hle hleft hputs hb
  have hal : s.dest % 64 = 0 := hb.resolve_left (by omega)
  exact ⟨by simp only [Filling.movnt]; omega, by simp only [Filling.movnt]; omega,
    hputs.append (memsetMovnt_writes k hal) hle (by simp only [Filling.movnt]; omega),
    Or.inr (by simp only [Filling.movnt]; omega)⟩

theorem Filled.loop {a b : ℕ} {s : Filling} (h : Filled a b s) (fuel : ℕ) :
    Filled a b (s.loop fuel) := by
  induction fuel generalizing s with
  | zero => exact h
  | succ fuel ih =>
      unfold Filling.loop
      split_ifs with hlen
      · exact ih (h.movnt hlen)
      · exact h

theorem Filled.movntIf {a b : ℕ} {s : Filling} (h : Filled a b s) (k : ℕ) :
    Filled a b (s.movntIf k) := by
  unfold Filling.movntIf
  split_ifs with hlen
  · exact h.movnt hlen
  · exact h

/-- The loop ends when less than eight lines are left. -/
theorem Filling.loop_len (s : Filling) {fuel : ℕ} (h : s.len / 512 ≤ fuel) :
    (s.loop fuel).len = s.len % 512 := by
  induction fuel generalizing s with
  | zero =>
      show s.len = s.len % 512
      omega
  | succ fuel ih =>
      unfold Filling.loop
      split_ifs with hlen
      · rw [ih (s.movnt 8) (by simp only [Filling.movnt]; omega)]
        simp only [Filling.movnt]
        omega
      · omega

theorem Filling.movntIf_len (s : Filling) {k : ℕ} (hk : s.len < 2 * k * 64) :
    (s.movntIf k).len < k * 64 := by
  unfold Filling.movntIf
  split_ifs with hlen
  · simp only [Filling.movnt]
    omega
  · omega

/-- The head leaves the invariant, unless there was nothing to write and no boundary. -/
theorem Filling.head_filled {dest len : ℕ} (h : len ≠ 0 ∨ dest % 64 = 0) :
    ∃ s, Filling.head ⟨dest, len, []⟩ = some s ∧ Filled dest (dest + len) s := by
  unfold Filling.head
  by_cases hcnt : 0 < dest % 64
  · simp only [hcnt, if_true]
    have hle : (if len < 64 - dest % 64 then len else 64 - dest % 64) ≤ 64 := by split_ifs <;> omega
    obtain ⟨ps, hps, hw⟩ := memsetSmallAvx_writes dest hle
    rw [hps]
    refine ⟨_, rfl, ?_⟩
    rw [Nat.max_eq_left (by split_ifs <;> omega)] at hw
    refine ⟨by dsimp only; omega, ?_, hw, ?_⟩
    · dsimp only
      split_ifs <;> omega
    · dsimp only
      split_ifs <;> omega
  · simp only [hcnt, if_false]
    exact ⟨_, rfl, le_refl _, rfl, Writes.nil _, Or.inr (by dsimp only; omega)⟩

/-- The rest completes the work. -/
theorem Filled.rest {a b : ℕ} {s : Filling} (h : Filled a b s) (hlen : s.len < 64) :
    ∃ ps, s.rest = some ps ∧ Writes ps a b := by
  obtain ⟨hle, hleft, hputs, hb⟩ := h
  unfold Filling.rest
  split_ifs with h0 hpow
  · exact ⟨_, rfl, by rwa [← hleft, h0]⟩
  · have hal : s.dest % 64 = 0 := hb.resolve_left h0
    have hput : (⟨true, s.dest, s.len⟩ : Put).Aligned := fun _ => by
      rcases hpow.2 with e | e | e | e <;> dsimp only <;> rw [e] <;> exact ⟨by decide, by omega⟩
    refine ⟨_, rfl, hleft ▸ hputs.append (Writes.single hput) hle ?_⟩
    exact Nat.le_add_right _ _
  · obtain ⟨ps, hps, hw⟩ := memsetSmallAvx_writes s.dest (Nat.le_of_lt hlen)
    rw [Nat.max_eq_left (by omega), hleft] at hw
    exact ⟨_, by rw [hps]; rfl, hputs.append hw hle (by omega)⟩

/-- **With something to write, or from a line boundary on, the function writes `[dest, dest + len)`**
    and nothing else. -/
theorem memsetMovntAvx_writes {dest len : ℕ} (h : len ≠ 0 ∨ dest % 64 = 0) :
    ∃ ps, memsetMovntAvx dest len = some ps ∧ Writes ps dest (dest + len) := by
  obtain ⟨s, hs, hf⟩ := Filling.head_filled h
  unfold memsetMovntAvx
  rw [hs]
  have h8 := s.loop_len (le_refl _)
  have h4 := Filling.movntIf_len (s.loop (s.len / 512)) (k := 4) (by omega)
  have h2 := Filling.movntIf_len _ (k := 2) h4
  exact (((hf.loop _).movntIf 4).movntIf 2 |>.movntIf 1).rest
    (Filling.movntIf_len _ (k := 1) h2)

/-- With nothing to write and no boundary it writes a byte. -/
theorem memsetMovntAvx_zero {dest : ℕ} (h : dest % 64 ≠ 0) :
    memsetMovntAvx dest 0 = some [⟨false, dest, 1⟩] := by
  have hpos : 0 < dest % 64 := Nat.pos_of_ne_zero h
  have hlt : 0 < 64 - dest % 64 := by omega
  simp [memsetMovntAvx, Filling.head, hpos, hlt, memsetSmallAvx, Filling.loop, Filling.movntIf,
    Filling.rest]

/-- **`pmem_memset` writes exactly what it is asked to**, unless it is asked for nothing at an address
    that is not aligned to a line; its assertions never fail and no non-temporal store is
    misaligned. -/
theorem memsetMovntAvx_exact (dest len : ℕ) :
    ∃ ps, memsetMovntAvx dest len = some ps ∧ (∀ p ∈ ps, p.Aligned) ∧
      ((∀ c mem x, fill c ps mem x = if dest ≤ x ∧ x < dest + len then c % 256 else mem x) ↔
        len ≠ 0 ∨ dest % 64 = 0) := by
  by_cases h : len ≠ 0 ∨ dest % 64 = 0
  · obtain ⟨ps, hps, hw⟩ := memsetMovntAvx_writes h
    refine ⟨ps, hps, hw.aligned, iff_of_true (fun c mem x => ?_) h⟩
    unfold fill
    exact if_congr (hw.writes x) rfl rfl
  · obtain ⟨rfl, hal⟩ := not_or.mp h |>.imp_left not_not.mp
    refine ⟨_, memsetMovntAvx_zero hal, fun p hp hnt => ?_, iff_of_false (fun hall => ?_) h⟩
    · rw [List.mem_singleton.mp hp] at hnt
      cases hnt
    · have := hall 1 (fun _ => 0) dest
      rw [if_neg (by omega)] at this
      simp [fill, Put.Writes] at this

/-! ## 5. Whole lines -/

/-- The stores of `n` lines. -/
def linePuts (dest n : ℕ) : List Put :=
  (List.range n).flatMap fun i => [⟨true, dest + 64 * i, 32⟩, ⟨true, dest + 64 * i + 32, 32⟩]

theorem linePuts_add (dest k n : ℕ) :
    linePuts dest (k + n) = linePuts dest k ++ linePuts (dest + k * 64) n := by
  unfold linePuts
  rw [List.range_add, List.flatMap_append, List.flatMap_map]
  congr 2
  funext i
  rw [show dest + 64 * (k + i) = dest + k * 64 + 64 * i by omega]

theorem memsetMovnt_eq (k dest : ℕ) : memsetMovnt k dest = linePuts dest k := by
  induction k with
  | zero => rfl
  | succ k ih =>
      rw [linePuts_add, ← ih]
      unfold memsetMovnt
      rw [show 2 * (k + 1) = 2 * k + 1 + 1 by omega, List.range_succ, List.range_succ]
      simp [linePuts]
      omega

/-- The work left, as a number of lines. -/
structure LinesLeft (dest n : ℕ) (s : Filling) (m : ℕ) : Prop where
  le : m ≤ n
  done : s.dest = dest + (n - m) * 64
  left : s.len = 64 * m
  puts : s.puts = linePuts dest (n - m)

theorem LinesLeft.movnt {dest n m k : ℕ} {s : Filling} (h : LinesLeft dest n s m) (hk : k ≤ m) :
    LinesLeft dest n (s.movnt k) (m - k) := by
  obtain ⟨hle, hdest, hlen, hputs⟩ := h
  have hadd : n - (m - k) = n - m + k := by omega
  refine ⟨by omega, ?_, ?_, ?_⟩
  · simp only [Filling.movnt, hdest, hadd]
    omega
  · simp only [Filling.movnt, hlen]
    omega
  · simp only [Filling.movnt, hputs, memsetMovnt_eq, hdest, hadd, linePuts_add]

theorem LinesLeft.loop {dest n m : ℕ} {s : Filling} (h : LinesLeft dest n s m) {fuel : ℕ}
    (hf : m / 8 ≤ fuel) : LinesLeft dest n (s.loop fuel) (m % 8) := by
  induction fuel generalizing s m with
  | zero =>
      rw [Nat.mod_eq_of_lt (by omega)]
      exact h
  | succ fuel ih =>
      unfold Filling.loop
      by_cases hm : 8 ≤ m
      · rw [if_pos (by rw [h.left]; omega), Nat.mod_eq_sub_mod hm]
        exact ih (h.movnt hm) (by omega)
      · rw [if_neg (by rw [h.left]; omega), Nat.mod_eq_of_lt (by omega)]
        exact h

theorem LinesLeft.movntIf {dest n m k : ℕ} {s : Filling} (h : LinesLeft dest n s m)
    (hm : m < 2 * k) : LinesLeft dest n (s.movntIf k) (m % k) := by
  unfold Filling.movntIf
  by_cases hk : k ≤ m
  · rw [if_pos (by rw [h.left]; omega), Nat.mod_eq_sub_mod hk, Nat.mod_eq_of_lt (by omega)]
    exact h.movnt hk
  · rw [if_neg (by rw [h.left]; omega), Nat.mod_eq_of_lt (by omega)]
    exact h

/-- **Whole lines from a boundary on**: each is written by two non-temporal stores, in order. -/
theorem memsetMovntAvx_lines {dest : ℕ} (h : dest % 64 = 0) (n : ℕ) :
    memsetMovntAvx dest (64 * n) = some (linePuts dest n) := by
  have hstart : LinesLeft dest n ⟨dest, 64 * n, []⟩ n :=
    ⟨le_refl _, by simp, rfl, by simp [linePuts]⟩
  have hhead : Filling.head ⟨dest, 64 * n, []⟩ = some ⟨dest, 64 * n, []⟩ := by
    simp [Filling.head, h]
  have hend := ((hstart.loop (show n / 8 ≤ 64 * n / 512 by omega)).movntIf (k := 4) (by omega)
    |>.movntIf (k := 2) (by omega)).movntIf (k := 1) (by omega)
  unfold memsetMovntAvx
  rw [hhead, Option.bind_some]
  unfold Filling.rest
  rw [if_pos (by rw [hend.left]; omega), hend.puts]
  congr 2
  omega

end Persimmon
