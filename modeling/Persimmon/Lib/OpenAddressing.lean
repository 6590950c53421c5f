/-
  File:      Persimmon/Lib/OpenAddressing.lean
  Subject:   SETS BY OPEN ADDRESSING.

  A table gives every slot a key, or `vacant`. A key is looked for along a path of slots of its
  own; it is found, or stored in the first vacant slot of its path. Keys are never taken out.

  * `Exact` -- every stored key lies on its path behind occupied slots, and is stored once;
  * `insertAlong` -- the search; `insertAlong_exact` -- an insertion keeps the table exact;
  * `insertAlong_stored`, `insertAlong_space`, `insertAlong_full` -- what it does, when the path of
    the key visits every slot.
-/
import Mathlib.Logic.Function.Basic
import Mathlib.Tactic.Common

namespace OpenAddressing

variable {S K : Type*} {vacant : K} {path : K → List S}

def Stored (t : S → K) (key : K) : Prop := ∃ s, t s = key

def Occupied (vacant : K) (t : S → K) (ss : List S) : Prop := ∀ s ∈ ss, t s ≠ vacant

/-- **No vacant slot hides a stored key.** -/
structure Exact (vacant : K) (path : K → List S) (t : S → K) : Prop where
  behind : ∀ s, t s ≠ vacant → ∃ before after, path (t s) = before ++ s :: after ∧
    Occupied vacant t before
  once : ∀ s s', t s ≠ vacant → t s = t s' → s = s'

theorem exact_vacant : Exact vacant path fun _ : S => vacant :=
  ⟨fun _ h => absurd rfl h, fun _ _ h => absurd rfl h⟩

/-! ## 1. A vacant slot is taken -/

section

variable [DecidableEq S] {key : K} {t : S → K}

theorem Occupied.update {ss : List S} (hocc : Occupied vacant t ss) (hne : key ≠ vacant) (s : S) :
    Occupied vacant (Function.update t s key) ss := by
  intro x hx
  by_cases hxs : x = s
  · rw [hxs, Function.update_self]
    exact hne
  · rw [Function.update_of_ne hxs]
    exact hocc x hx

/-- What a table holds once a vacant slot is taken. -/
theorem stored_update {s : S} {q : K} (hv : t s = vacant) (hq : q ≠ vacant) :
    Stored (Function.update t s key) q ↔ q = key ∨ Stored t q := by
  constructor
  · intro hex
    obtain ⟨x, hx⟩ := hex
    by_cases hxs : x = s
    · rw [hxs, Function.update_self] at hx
      exact Or.inl hx.symm
    · rw [Function.update_of_ne hxs] at hx
      exact Or.inr ⟨x, hx⟩
  · intro hcase
    rcases hcase with rfl | ⟨x, hx⟩
    · exact ⟨s, Function.update_self _ _ _⟩
    · have hxs : x ≠ s := by
        intro heq
        subst heq
        exact hq (hx.symm.trans hv)
      exact ⟨x, by rw [Function.update_of_ne hxs, hx]⟩

/-- An absent key may be stored in a slot of its path that is behind occupied ones. -/
theorem Exact.update (h : Exact vacant path t) (hne : key ≠ vacant) (habs : ¬ Stored t key)
    {before after : List S} {s : S} (hpath : path key = before ++ s :: after)
    (hocc : Occupied vacant t before) : Exact vacant path (Function.update t s key) := by
  refine ⟨fun x hx => ?_, fun x x' hx hxx => ?_⟩
  · by_cases hxs : x = s
    · rw [hxs, Function.update_self]
      exact ⟨before, after, hpath, hocc.update hne s⟩
    · rw [Function.update_of_ne hxs] at hx ⊢
      obtain ⟨before', after', h1, h2⟩ := h.behind x hx
      exact ⟨before', after', h1, h2.update hne s⟩
  · by_cases hxs : x = s
    · by_cases hxs' : x' = s
      · rw [hxs, hxs']
      · rw [hxs, Function.update_self, Function.update_of_ne hxs'] at hxx
        exact absurd ⟨x', hxx.symm⟩ habs
    · rw [Function.update_of_ne hxs] at hx hxx
      by_cases hxs' : x' = s
      · rw [hxs', Function.update_self] at hxx
        exact absurd ⟨x, hxx⟩ habs
      · rw [Function.update_of_ne hxs'] at hxx
        exact h.once x x' hx hxx

end

/-! ## 2. The search -/

variable [DecidableEq S] [DecidableEq K]

/-- Look for a key along a path, and store it in the first vacant slot before it. The answer says
    whether the key was not found. -/
def insertAlong (vacant key : K) : List S → (S → K) → (S → K) × Bool
  | [], t => (t, true)
  | s :: rest, t =>
      if t s = vacant then (Function.update t s key, true)
      else if t s = key then (t, false)
      else insertAlong vacant key rest t

/-- **Where a search ends**: at the key, at the first vacant slot, or behind the path. -/
theorem insertAlong_cases (vacant key : K) (ss : List S) (t : S → K) :
    (insertAlong vacant key ss t = (t, false) ∧ ∃ s ∈ ss, t s = key) ∨
    (∃ before s after, ss = before ++ s :: after ∧ Occupied vacant t before ∧ t s = vacant ∧
      (∀ s' ∈ before, t s' ≠ key) ∧
      insertAlong vacant key ss t = (Function.update t s key, true)) ∨
    (insertAlong vacant key ss t = (t, true) ∧ Occupied vacant t ss ∧ ∀ s ∈ ss, t s ≠ key) := by
  induction ss with
  | nil => exact Or.inr (Or.inr ⟨rfl, fun _ h => absurd h List.not_mem_nil,
      fun _ h => absurd h List.not_mem_nil⟩)
  | cons s rest ih =>
      unfold insertAlong
      by_cases hv : t s = vacant
      · rw [if_pos hv]
        exact Or.inr (Or.inl ⟨[], s, rest, rfl, fun _ h => absurd h List.not_mem_nil, hv,
          fun _ h => absurd h List.not_mem_nil, rfl⟩)
      · rw [if_neg hv]
        by_cases hk : t s = key
        · rw [if_pos hk]
          exact Or.inl ⟨rfl, s, List.mem_cons_self, hk⟩
        · rw [if_neg hk]
          rcases ih with ⟨h1, s', h2, h3⟩ | ⟨before, s', after, h1, h2, h3, h4, h5⟩ | ⟨h1, h2, h3⟩
          · exact Or.inl ⟨h1, s', List.mem_cons_of_mem _ h2, h3⟩
          · refine Or.inr (Or.inl ⟨s :: before, s', after, by rw [h1]; rfl, ?_, h3, ?_, h5⟩)
            · exact List.forall_mem_cons.mpr ⟨hv, h2⟩
            · exact List.forall_mem_cons.mpr ⟨hk, h4⟩
          · exact Or.inr (Or.inr ⟨h1, List.forall_mem_cons.mpr ⟨hv, h2⟩,
              List.forall_mem_cons.mpr ⟨hk, h3⟩⟩)

/-- A search ends at the latest where the key lies behind occupied slots. -/
theorem insertAlong_behind {key : K} {t : S → K} {before after : List S} {s : S}
    (hne : key ≠ vacant) (hs : t s = key) (hocc : Occupied vacant t before) :
    insertAlong vacant key (before ++ s :: after) t = (t, false) := by
  induction before with
  | nil =>
      rw [List.nil_append, insertAlong, if_neg (by rwa [hs]), if_pos hs]
  | cons s' before ih =>
      rw [List.cons_append, insertAlong, if_neg (hocc s' List.mem_cons_self)]
      split
      · rfl
      · exact ih fun x hx => hocc x (List.mem_cons_of_mem _ hx)

/-! ## 3. What an insertion does -/

section

variable {key : K} {t : S → K}

/-- **A stored key is found.** -/
theorem insertAlong_stored (h : Exact vacant path t) (hne : key ≠ vacant) (hs : Stored t key) :
    insertAlong vacant key (path key) t = (t, false) := by
  obtain ⟨s, rfl⟩ := hs
  obtain ⟨before, after, hpath, hocc⟩ := h.behind s hne
  rw [hpath]
  exact insertAlong_behind hne rfl hocc

/-- **An absent key is stored where there is space.** -/
theorem insertAlong_space (hvisit : ∀ s, s ∈ path key) (habs : ¬ Stored t key)
    (hspace : ∃ s, t s = vacant) :
    ∃ s, t s = vacant ∧ insertAlong vacant key (path key) t = (Function.update t s key, true) := by
  rcases insertAlong_cases vacant key (path key) t with ⟨-, s, -, hs⟩ | ⟨_, s, _, -, -, hs, -, he⟩ |
    ⟨-, hocc, -⟩
  · exact absurd ⟨s, hs⟩ habs
  · exact ⟨s, hs, he⟩
  · obtain ⟨s, hs⟩ := hspace
    exact absurd hs (hocc s (hvisit s))

/-- **A full table does not change.** -/
theorem insertAlong_full (habs : ¬ Stored t key) (hfull : ∀ s, t s ≠ vacant) :
    insertAlong vacant key (path key) t = (t, true) := by
  rcases insertAlong_cases vacant key (path key) t with ⟨-, s, -, hs⟩ | ⟨_, s, _, -, -, hs, -⟩ |
    ⟨he, -⟩
  · exact absurd ⟨s, hs⟩ habs
  · exact absurd hs (hfull s)
  · exact he

/-- **The answer is membership.** -/
theorem insertAlong_eq_false_iff (h : Exact vacant path t) (hne : key ≠ vacant) :
    (insertAlong vacant key (path key) t).2 = false ↔ Stored t key := by
  constructor
  · intro hf
    rcases insertAlong_cases vacant key (path key) t with ⟨-, s, -, hs⟩ | ⟨_, _, _, _, _, _, _, he⟩ |
      ⟨he, -⟩
    · exact ⟨s, hs⟩
    · rw [he] at hf
      cases hf
    · rw [he] at hf
      cases hf
  · intro hs
    rw [insertAlong_stored h hne hs]

/-- **The invariant is kept.** -/
theorem insertAlong_exact (h : Exact vacant path t) (hne : key ≠ vacant) :
    Exact vacant path (insertAlong vacant key (path key) t).1 := by
  by_cases hstored : Stored t key
  · rwa [insertAlong_stored h hne hstored]
  · rcases insertAlong_cases vacant key (path key) t with ⟨he, -⟩ |
      ⟨before, s, after, hpath, hocc, -, -, he⟩ | ⟨he, -⟩
    · rwa [he]
    · rw [he]
      exact h.update hne hstored hpath hocc
    · rwa [he]

end

end OpenAddressing
