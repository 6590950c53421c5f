/-
  File:      Persimmon/LoggedAddrs.lean
  Subject:   `logged_addrs_hash`: THE INDEX OF THE LOGGED BLOCKS that `OPTIMIZE_DEDUPLICATE` turns
             on (src/undo/undo_log.h).

  An array of `LOGGED_ADDR_HASH_SIZE` pointers, null where a slot is empty. A block is looked for
  at `i = 5 i + perturb + 1`, where `perturb` starts as the hash and loses five bits a step.

  * `undoLogInsertLoggedAddr` -- the function; `insertLoop_eq` -- its loop is the search of
    `Lib/OpenAddressing.lean` along `probes`;
  * `mem_probesFrom_zero` -- once `perturb` is 0, the probes are a sequence of full period
    (`Lib/FullPeriod.lean`); `mem_probes` -- `LOGGED_ADDR_HASH_SIZE + 13` probes visit every slot;
  * `insertAll_exact`, `insertLoggedAddr_exact` -- after any insertions, the index is an exact set.
-/
import Mathlib.Data.Fintype.Card
import Persimmon.Lib.FullPeriod
import Persimmon.Lib.OpenAddressing
import Persimmon.Word

namespace Persimmon

open FullPeriod OpenAddressing

/-- `LOGGED_ADDR_HASH_SIZE` -/
abbrev loggedAddrHashSize : ℕ := 16384

/-- `logged_addrs_hash`. 0 is the null pointer. -/
abbrev AddrTable := Fin loggedAddrHashSize → ℕ

namespace AddrTable

/-- What `undo_log_clear` leaves of it. -/
def cleared : AddrTable := fun _ => 0

end AddrTable

/-- `i % LOGGED_ADDR_HASH_SIZE` -/
def slot (i : ℕ) : Fin loggedAddrHashSize := ⟨i % loggedAddrHashSize, Nat.mod_lt _ (by decide)⟩

/-- `i = 5 * i + perturb + 1` -/
def nextProbe (i perturb : ℕ) : ℕ := (5 * i + perturb + 1) % 2 ^ 64

/-- The loop of `undo_log_insert_logged_addr`, for `count` more probes. -/
def insertLoop (addr : ℕ) : ℕ → ℕ → ℕ → AddrTable → AddrTable × Bool
  | 0, _, _, t => (t, true)
  | count + 1, i, perturb, t =>
      if t (slot i) = 0 then (Function.update t (slot i) addr, true)
      else if t (slot i) = addr then (t, false)
      else insertLoop addr count (nextProbe i perturb) (perturb >>> 5) t

/-- **`undo_log_insert_logged_addr`** -/
def undoLogInsertLoggedAddr (addr : ℕ) (t : AddrTable) : AddrTable × Bool :=
  insertLoop addr (loggedAddrHashSize + 13) (addr / 32) (addr / 32) t

/-- An address the index may hold: a block of the address space other than the null block. -/
structure BlockAddr (a : ℕ) : Prop where
  ne_zero : a ≠ 0
  mod : a % 32 = 0
  lt : a < 2 ^ 64

/-! ## 1. The probes -/

/-- The slots the loop looks at. -/
def probesFrom : ℕ → ℕ → ℕ → List (Fin loggedAddrHashSize)
  | 0, _, _ => []
  | count + 1, i, perturb => slot i :: probesFrom count (nextProbe i perturb) (perturb >>> 5)

def probes (addr : ℕ) : List (Fin loggedAddrHashSize) :=
  probesFrom (loggedAddrHashSize + 13) (addr / 32) (addr / 32)

theorem insertLoop_eq (addr count i perturb : ℕ) (t : AddrTable) :
    insertLoop addr count i perturb t = insertAlong 0 addr (probesFrom count i perturb) t := by
  induction count generalizing i perturb with
  | zero => rfl
  | succ count ih => rw [insertLoop, probesFrom, insertAlong, ih]

theorem insertLoggedAddr_eq (addr : ℕ) (t : AddrTable) :
    undoLogInsertLoggedAddr addr t = insertAlong 0 addr (probes addr) t :=
  insertLoop_eq _ _ _ _ _

theorem slot_eq {i j : ℕ} (h : i ≡ j [MOD loggedAddrHashSize]) : slot i = slot j := Fin.ext h

/-- A step with nothing left of `perturb` is one of the sequence `5 x + 1`. -/
theorem nextProbe_modEq {i j : ℕ} (h : i ≡ j [MOD loggedAddrHashSize]) :
    nextProbe i 0 ≡ next 1 1 j [MOD loggedAddrHashSize] := by
  have hwrap : nextProbe i 0 ≡ next 1 1 i [MOD loggedAddrHashSize] := by
    unfold nextProbe next Nat.ModEq
    rw [Nat.mod_mod_of_dvd _ (by decide)]
  exact hwrap.trans (next_modEq h)

theorem slot_iterate_mem {count k i j : ℕ} (h : i ≡ j [MOD loggedAddrHashSize]) (hk : k < count) :
    slot ((next 1 1)^[k] j) ∈ probesFrom count i 0 := by
  induction count generalizing k i j with
  | zero => exact absurd hk (Nat.not_lt_zero k)
  | succ count ih =>
      cases k with
      | zero =>
          rw [Function.iterate_zero_apply, ← slot_eq h]
          exact List.mem_cons_self
      | succ k =>
          rw [Function.iterate_succ_apply]
          exact List.mem_cons_of_mem _ (ih (nextProbe_modEq h) (Nat.lt_of_succ_lt_succ hk))

/-- **With `perturb` gone, every slot is visited.** -/
theorem mem_probesFrom_zero {count : ℕ} (hc : loggedAddrHashSize ≤ count) (i : ℕ)
    (s : Fin loggedAddrHashSize) : s ∈ probesFrom count i 0 := by
  obtain ⟨k, hk, he⟩ := exists_iterate_modEq (m := 14) odd_one odd_one i s
  have hs : slot ((next 1 1)^[k] i) = s := by
    rw [slot_eq he]
    exact Fin.ext (Nat.mod_eq_of_lt s.isLt)
  rw [← hs]
  exact slot_iterate_mem rfl (Nat.lt_of_lt_of_le hk hc)

/-- Five bits of `perturb` go with every probe. -/
theorem mem_probesFrom {k count i perturb : ℕ} (hp : perturb < 32 ^ k)
    (hc : loggedAddrHashSize + k ≤ count) (s : Fin loggedAddrHashSize) :
    s ∈ probesFrom count i perturb := by
  induction k generalizing count i perturb with
  | zero =>
      obtain rfl : perturb = 0 := by omega
      exact mem_probesFrom_zero hc i s
  | succ k ih =>
      obtain ⟨count, rfl⟩ : ∃ n, count = n + 1 := ⟨count - 1, by omega⟩
      refine List.mem_cons_of_mem _ (ih ?_ (by omega))
      rw [Nat.shiftRight_eq_div_pow]
      rw [Nat.pow_succ] at hp
      omega

/-- **`LOGGED_ADDR_HASH_SIZE + 13` probes visit every slot**, for every address of 64 bits. -/
theorem mem_probes {addr : ℕ} (h : addr < 2 ^ 64) (s : Fin loggedAddrHashSize) :
    s ∈ probes addr := by
  have hlt : addr / 32 < 32 ^ 12 := by
    have : (32 : ℕ) ^ 12 = 2 ^ 60 := by decide
    omega
  exact mem_probesFrom hlt (by decide) s

/-! ## 2. One insertion -/

section

variable {t : AddrTable} {addr : ℕ}

theorem insertLoggedAddr_keeps (h : Exact 0 probes t) (hne : addr ≠ 0) :
    Exact 0 probes (undoLogInsertLoggedAddr addr t).1 := by
  rw [insertLoggedAddr_eq]
  exact insertAlong_exact h hne

theorem insertLoggedAddr_stored (h : Exact 0 probes t) (hne : addr ≠ 0) (hs : Stored t addr) :
    undoLogInsertLoggedAddr addr t = (t, false) := by
  rw [insertLoggedAddr_eq, insertAlong_stored h hne hs]

/-- An insertion that answers `true` stores its address, or has found the index full. -/
theorem insertLoggedAddr_absent (habs : ¬ Stored t addr) (hlt : addr < 2 ^ 64) :
    (∃ s, t s = 0 ∧ undoLogInsertLoggedAddr addr t = (Function.update t s addr, true)) ∨
      ((∀ s, t s ≠ 0) ∧ undoLogInsertLoggedAddr addr t = (t, true)) := by
  rw [insertLoggedAddr_eq]
  by_cases hspace : ∃ s, t s = 0
  · exact Or.inl (insertAlong_space (mem_probes hlt) habs hspace)
  · have hfull : ∀ s, t s ≠ 0 := fun s hs => hspace ⟨s, hs⟩
    exact Or.inr ⟨hfull, insertAlong_full habs hfull⟩

end

/-! ## 3. The index over a whole epoch -/

/-- The index after insertions of `addrs`. -/
def insertAll (addrs : List ℕ) (t : AddrTable) : AddrTable :=
  addrs.foldl (fun t a => (undoLogInsertLoggedAddr a t).1) t

theorem insertAll_exact {addrs : List ℕ} {t : AddrTable} (h : Exact 0 probes t)
    (hne : ∀ a ∈ addrs, a ≠ 0) : Exact 0 probes (insertAll addrs t) := by
  induction addrs generalizing t with
  | nil => exact h
  | cons a addrs ih =>
      rw [List.forall_mem_cons] at hne
      exact ih (insertLoggedAddr_keeps h hne.1) hne.2

/-- **The index of the logged blocks is an exact set.** After a clear and any sequence of
    insertions, the next one answers whether its address is absent; it stores an absent address
    where a slot is empty, and changes nothing where it is stored or no slot is. Its probes visit
    every slot. -/
theorem insertLoggedAddr_exact {addrs : List ℕ} {addr : ℕ} (haddrs : ∀ a ∈ addrs, BlockAddr a)
    (haddr : BlockAddr addr) :
    let t := insertAll addrs AddrTable.cleared
    ((undoLogInsertLoggedAddr addr t).2 = false ↔ Stored t addr) ∧
      (Stored t addr → (undoLogInsertLoggedAddr addr t).1 = t) ∧
      (¬ Stored t addr → (∃ s, t s = 0) →
        ∃ s, t s = 0 ∧ undoLogInsertLoggedAddr addr t = (Function.update t s addr, true)) ∧
      (¬ Stored t addr → (∀ s, t s ≠ 0) → undoLogInsertLoggedAddr addr t = (t, true)) ∧
      ∀ s, s ∈ probes addr := by
  intro t
  have hexact : Exact 0 probes t := insertAll_exact exact_vacant fun a ha => (haddrs a ha).ne_zero
  refine ⟨?_, fun h => ?_, fun habs hspace => ?_, fun habs hfull => ?_, mem_probes haddr.lt⟩
  · rw [insertLoggedAddr_eq]
    exact insertAlong_eq_false_iff hexact haddr.ne_zero
  · rw [insertLoggedAddr_stored hexact haddr.ne_zero h]
  · rcases insertLoggedAddr_absent habs haddr.lt with hs | ⟨hfull, -⟩
    · exact hs
    · obtain ⟨s, hs⟩ := hspace
      exact absurd hs (hfull s)
  · rcases insertLoggedAddr_absent habs haddr.lt with ⟨s, hs, -⟩ | ⟨-, he⟩
    · exact absurd hs (hfull s)
    · exact he

theorem insertLoggedAddr_exact_example :
    let t := insertAll [2 ^ 47 - 32, 64] AddrTable.cleared
    ((undoLogInsertLoggedAddr (64 + 32 * 16384) t).2 = false ↔ Stored t (64 + 32 * 16384)) ∧
      (Stored t (64 + 32 * 16384) → (undoLogInsertLoggedAddr (64 + 32 * 16384) t).1 = t) ∧
      (¬ Stored t (64 + 32 * 16384) → (∃ s, t s = 0) →
        ∃ s, t s = 0 ∧ undoLogInsertLoggedAddr (64 + 32 * 16384) t =
          (Function.update t s (64 + 32 * 16384), true)) ∧
      (¬ Stored t (64 + 32 * 16384) → (∀ s, t s ≠ 0) →
        undoLogInsertLoggedAddr (64 + 32 * 16384) t = (t, true)) ∧
      ∀ s, s ∈ probes (64 + 32 * 16384) :=
  insertLoggedAddr_exact
    (by
      intro a ha
      rcases List.mem_cons.mp ha with rfl | ha
      · exact ⟨by decide, by decide, by decide⟩
      · rw [List.mem_singleton.mp ha]
        exact ⟨by decide, by decide, by decide⟩)
    ⟨by decide, by decide, by decide⟩

end Persimmon
