/-
  File:      Persimmon/PersistRegion.lean
  Subject:   `persist_region`: WRITING A REGION TO ITS FILE (src/undo/mem_region/mem_region.cc,
             src/undo/my_libc/my_libc.cc).

  The system calls are raw: a result below zero is an error. Their results are arguments here, for
  `write` one for each call. An address stands for the byte it holds when the region is written.

  * `myWrite`, `writeLoop`, `persistRegion` -- the function;
  * `writeLoop_spec` -- the loop ends, whatever the calls return; what it has written is a prefix of
    the region, and all of it exactly when the series of results `Covers` the region;
  * `persistRegion_iff` -- a descriptor is returned exactly when the region is on disk, unless the
    `fsync` of the file is the only call that fails: `int ret = my_fsync(fd) < 0` is never below 0;
  * `replaceOutcome`, `persisted_unsynced` -- `replace_region` then records the region.
-/
import Mathlib.Data.List.Range
import Persimmon.MemRegion

namespace Persimmon

/-! ## 1. The function -/

/-- What one `write` can transfer at most on Linux. -/
def maxRwCount : ℕ := 0x7ffff000

/-- `my_write` of `count` bytes, when the kernel has `result` to say: never more than it was asked
    for, and an error number of at most 4095. -/
def myWrite (result : ℤ) (count : ℕ) : ℤ := max (-4095) (min result (min count maxRwCount : ℕ))

/-- **The write loop**, from its `i`-th call on: whether it has come to its end without an error, and
    the addresses written. No result when the fuel runs out. -/
def writeLoop (writes : ℕ → ℤ) : ℕ → ℕ → ℕ → ℕ → Option (Bool × List ℕ)
  | 0, _, _, toWrite => if 0 < toWrite then none else some (true, [])
  | fuel + 1, i, writeFrom, toWrite =>
      if 0 < toWrite then
        let written := myWrite (writes i) toWrite
        let nb := toInt written
        if nb ≤ 0 then some (false, [])
        else
          (writeLoop writes fuel (i + 1) (writeFrom + nb.toNat) (toWrite - nb.toNat)).map fun r =>
            (r.1, List.range' writeFrom written.toNat ++ r.2)
      else some (true, [])

/-- The results of the other system calls. -/
structure PersistCalls where
  openat : ℤ
  writes : ℕ → ℤ
  fsyncFd : ℤ
  fsyncDir : ℤ

/-- What `persist_region` returns, the bytes it has written to the file, and whether it has closed
    the descriptor. -/
structure PersistResult where
  ret : ℤ
  bytes : List ℕ
  closed : Bool
  deriving DecidableEq, Repr

/-- **`persist_region`**. No result when the write loop does not end. -/
def persistRegion (c : PersistCalls) (base size : ℕ) : Option PersistResult :=
  let fd := c.openat
  if fd < 0 then some ⟨-1, [], false⟩
  else
    match writeLoop c.writes size 0 base size with
    | none => none
    | some (false, bytes) => some ⟨-1, bytes, true⟩
    | some (true, bytes) =>
        -- `int ret = my_fsync(fd) < 0`: the comparison binds before the initialisation
        let ret : ℤ := if c.fsyncFd < 0 then 1 else 0
        if ret < 0 then some ⟨-1, bytes, true⟩
        else if c.fsyncDir < 0 then some ⟨-1, bytes, true⟩
        else some ⟨fd, bytes, false⟩

/-! ## 2. The write loop -/

/-- The bytes one call can transfer. -/
def amount (result : ℤ) : ℕ := min result.toNat maxRwCount

/-- The bytes `k` calls from the `i`-th on can transfer. -/
def amounts (writes : ℕ → ℤ) (i : ℕ) : ℕ → ℕ
  | 0 => 0
  | k + 1 => amount (writes i) + amounts writes (i + 1) k

/-- **The results from the `i`-th on add up to `size` bytes** before a zero or an error comes. -/
def Covers (writes : ℕ → ℤ) (i size : ℕ) : Prop :=
  ∃ k, (∀ j < k, 0 < writes (i + j)) ∧ size ≤ amounts writes i k

theorem covers_zero (writes : ℕ → ℤ) (i : ℕ) : Covers writes i 0 :=
  ⟨0, fun _ hj => absurd hj (Nat.not_lt_zero _), Nat.zero_le _⟩

theorem covers_succ {writes : ℕ → ℤ} {i size : ℕ} (hs : 0 < size) :
    Covers writes i size ↔
      0 < writes i ∧ Covers writes (i + 1) (size - min (amount (writes i)) size) := by
  constructor
  · intro hex
    obtain ⟨k, hk, hle⟩ := hex
    cases k with
    | zero => exact absurd hle (by simp only [amounts]; omega)
    | succ k =>
        refine ⟨hk 0 (Nat.succ_pos k), k, fun j hj => ?_, ?_⟩
        · have := hk (j + 1) (by omega)
          rwa [show i + (j + 1) = i + 1 + j by omega] at this
        · simp only [amounts] at hle
          omega
  · intro hboth
    obtain ⟨hpos, k, hk, hle⟩ := hboth
    refine ⟨k + 1, fun j hj => ?_, ?_⟩
    · cases j with
      | zero => exact hpos
      | succ j =>
          rw [show i + (j + 1) = i + 1 + j by omega]
          exact hk j (by omega)
    · simp only [amounts]
      omega

theorem toInt_myWrite (result : ℤ) (count : ℕ) : toInt (myWrite result count) = myWrite result count := by
  unfold toInt myWrite maxRwCount
  rw [Int.bmod_def]
  omega

theorem toNat_myWrite (result : ℤ) (count : ℕ) :
    (myWrite result count).toNat = min (amount result) count := by
  unfold myWrite amount maxRwCount
  omega

theorem myWrite_nonpos {result : ℤ} {count : ℕ} (hc : 0 < count) :
    myWrite result count ≤ 0 ↔ ¬ 0 < result := by
  unfold myWrite maxRwCount
  omega

/-- **The write loop ends.** What it has written is a prefix of the region, and the whole of it exactly
    when the results cover it. -/
theorem writeLoop_spec {writes : ℕ → ℤ} {fuel i writeFrom toWrite : ℕ} (hf : toWrite ≤ fuel) :
    ∃ ok n, writeLoop writes fuel i writeFrom toWrite = some (ok, List.range' writeFrom n) ∧
      n ≤ toWrite ∧ (ok = true ↔ Covers writes i toWrite) ∧ (ok = true ↔ n = toWrite) := by
  induction fuel generalizing i writeFrom toWrite with
  | zero =>
      obtain rfl : toWrite = 0 := Nat.le_zero.mp hf
      exact ⟨true, 0, rfl, le_refl _, by simp [covers_zero], by simp⟩
  | succ fuel ih =>
      unfold writeLoop
      by_cases hpos : 0 < toWrite
      swap
      · obtain rfl : toWrite = 0 := Nat.eq_zero_of_not_pos hpos
        exact ⟨true, 0, rfl, le_refl _, by simp [covers_zero], by simp⟩
      rw [if_pos hpos]
      simp only [toInt_myWrite]
      by_cases hres : 0 < writes i
      swap
      · rw [if_pos ((myWrite_nonpos hpos).mpr hres)]
        refine ⟨false, 0, rfl, Nat.zero_le _, ?_, ?_⟩
        · rw [covers_succ hpos]
          exact ⟨nofun, fun h => absurd h.1 hres⟩
        · exact ⟨nofun, fun h => absurd h (by omega)⟩
      rw [if_neg fun h => (myWrite_nonpos hpos).mp h hres, toNat_myWrite]
      have ha : 0 < amount (writes i) := by
        unfold amount maxRwCount
        omega
      obtain ⟨ok, n, he, hn, hcov, hall⟩ := @ih (i + 1)
        (writeFrom + min (amount (writes i)) toWrite)
        (toWrite - min (amount (writes i)) toWrite) (by omega)
      refine ⟨ok, min (amount (writes i)) toWrite + n, ?_, by omega, ?_, ?_⟩
      · rw [he]
        simp only [Option.map_some, List.range'_append_1]
      · rw [hcov, covers_succ hpos]
        exact ⟨fun h => ⟨hres, h⟩, fun h => h.2⟩
      · rw [hall]
        omega

/-! ## 3. What a success means -/

/-- **The region is on disk**: the file is open, exactly the bytes of the region have been written to
    it in order, and both `fsync`s have succeeded. -/
def OnDisk (c : PersistCalls) (base size : ℕ) (r : PersistResult) : Prop :=
  0 ≤ c.openat ∧ r.bytes = List.range' base size ∧ 0 ≤ c.fsyncFd ∧ 0 ≤ c.fsyncDir

/-- **A descriptor is returned exactly when the region is on disk**; else -1, with no descriptor left
    open. -/
def Truthful (c : PersistCalls) (base size : ℕ) (r : PersistResult) : Prop :=
  (0 ≤ r.ret ↔ OnDisk c base size r) ∧
    (¬ OnDisk c base size r → r.ret = -1 ∧ (0 ≤ c.openat → r.closed = true))

/-- What `persist_region` comes to, once its file is open: `n` bytes are written. -/
theorem persistRegion_eq (c : PersistCalls) (base size : ℕ) (hopen : 0 ≤ c.openat) :
    ∃ n, (Covers c.writes 0 size ↔ n = size) ∧
      persistRegion c base size = some
        (if n = size ∧ 0 ≤ c.fsyncDir then ⟨c.openat, List.range' base n, false⟩
          else ⟨-1, List.range' base n, true⟩) := by
  obtain ⟨ok, n, he, -, hcov, hall⟩ := @writeLoop_spec c.writes size 0 base size (le_refl size)
  refine ⟨n, hcov.symm.trans hall, ?_⟩
  unfold persistRegion
  rw [if_neg (not_lt.mpr hopen), he]
  cases ok with
  | false =>
      have hn : ¬ (n = size ∧ 0 ≤ c.fsyncDir) := fun h => absurd (hall.mpr h.1) nofun
      rw [if_neg hn]
  | true =>
      have hret : ¬ (if c.fsyncFd < 0 then 1 else 0 : ℤ) < 0 := by split_ifs <;> decide
      simp only [hret, if_false, hall.mp rfl, true_and]
      by_cases hd : c.fsyncDir < 0
      · rw [if_pos hd, if_neg (by omega)]
      · rw [if_neg hd, if_pos (by omega)]

theorem range'_eq_iff {base n size : ℕ} : List.range' base n = List.range' base size ↔ n = size :=
  ⟨fun h => by simpa using congrArg List.length h, fun h => by rw [h]⟩

/-- **`persist_region` ends, and it tells the truth exactly when the `fsync` of the file succeeds or
    something else fails.** -/
theorem persistRegion_iff (c : PersistCalls) (base size : ℕ) :
    ∃ r, persistRegion c base size = some r ∧
      (Truthful c base size r ↔
        0 ≤ c.fsyncFd ∨ c.openat < 0 ∨ ¬ Covers c.writes 0 size ∨ c.fsyncDir < 0) := by
  by_cases hopen : c.openat < 0
  · refine ⟨⟨-1, [], false⟩, by rw [persistRegion, if_pos hopen], ?_⟩
    have hno : ¬ OnDisk c base size ⟨-1, [], false⟩ := fun h => by
      have := h.1
      omega
    refine ⟨fun _ => Or.inr (Or.inl hopen), fun _ => ⟨⟨fun h => absurd h (by decide),
      fun h => absurd h hno⟩, fun _ => ⟨rfl, fun h => absurd h (by omega)⟩⟩⟩
  · obtain ⟨n, hcov, he⟩ := persistRegion_eq c base size (not_lt.mp hopen)
    refine ⟨_, he, ?_⟩
    by_cases hgood : n = size ∧ 0 ≤ c.fsyncDir
    · rw [if_pos hgood]
      simp only [Truthful, OnDisk, range'_eq_iff]
      constructor
      · intro hboth
        obtain ⟨h, -⟩ := hboth
        exact Or.inl (h.mp (not_lt.mp hopen)).2.2.1
      · intro hcase
        rcases hcase with h | h | h | h
        · have hdisk : 0 ≤ c.openat ∧ n = size ∧ 0 ≤ c.fsyncFd ∧ 0 ≤ c.fsyncDir :=
            ⟨not_lt.mp hopen, hgood.1, h, hgood.2⟩
          exact ⟨⟨fun _ => hdisk, fun _ => hdisk.1⟩, fun hno => absurd hdisk hno⟩
        · exact absurd h hopen
        · exact absurd (hcov.mpr hgood.1) h
        · have := hgood.2
          omega
    · rw [if_neg hgood]
      simp only [Truthful, OnDisk, range'_eq_iff]
      have hno : ¬ (0 ≤ c.openat ∧ n = size ∧ 0 ≤ c.fsyncFd ∧ 0 ≤ c.fsyncDir) := fun h =>
        hgood ⟨h.2.1, h.2.2.2⟩
      refine ⟨fun _ => ?_, fun _ => ⟨⟨fun h => absurd h (by decide), fun h => absurd h hno⟩,
        fun _ => ⟨trivial, fun _ => trivial⟩⟩⟩
      by_cases hc : Covers c.writes 0 size
      · exact Or.inr (Or.inr (Or.inr (by
          by_contra hd
          exact hgood ⟨hcov.mp hc, by omega⟩)))
      · exact Or.inr (Or.inr (Or.inl hc))

/-- The page at 4096 is written in one call; the `fsync` of its file returns `-EIO`. -/
def unsyncedCalls : PersistCalls := ⟨3, fun _ => 4096, -5, 0⟩

theorem unsyncedCalls_covers : Covers unsyncedCalls.writes 0 4096 :=
  ⟨1, fun _ _ => show (0 : ℤ) < 4096 by decide, by decide⟩

/-- **A failed `fsync` of the file is taken for a success.** -/
theorem persistRegion_unsynced :
    ¬ ∀ (c : PersistCalls) (base size : ℕ),
      ∃ r, persistRegion c base size = some r ∧ Truthful c base size r := by
  intro H
  obtain ⟨r, hr, htrue, -⟩ := H unsyncedCalls 4096 4096
  obtain ⟨n, hcov, he⟩ := persistRegion_eq unsyncedCalls 4096 4096 (by decide)
  rw [he, if_pos ⟨hcov.mp unsyncedCalls_covers, by decide⟩] at hr
  cases hr
  exact absurd (htrue.mp (show (0 : ℤ) ≤ 3 by decide)).2.2.1 (by decide)

/-! ## 4. What `replace_region` makes of it -/

/-- The outcome `replace_region` sees. -/
def replaceOutcome (c : PersistCalls) (base size fileId : ℕ) (mapped closed : Bool) :
    Option ReplaceOutcome :=
  (persistRegion c base size).map fun r => ⟨fileId, decide (r.ret ≠ -1), mapped, closed⟩

/-- **A region whose file has not been made durable is recorded** like any other. -/
theorem persisted_unsynced {c : PersistCalls} {base size : ℕ} (hopen : 0 ≤ c.openat)
    (hcov : Covers c.writes 0 size) (hdir : 0 ≤ c.fsyncDir) (fileId : ℕ) :
    replaceOutcome c base size fileId true true = some (ReplaceOutcome.ok fileId) := by
  obtain ⟨n, hall, he⟩ := persistRegion_eq c base size hopen
  rw [if_pos ⟨hall.mp hcov, hdir⟩] at he
  have hne : c.openat ≠ -1 := by omega
  simp [replaceOutcome, he, hne, ReplaceOutcome.ok]

end Persimmon
