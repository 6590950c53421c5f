/-
  File:      Persimmon/Lib/Transition.lean
  Subject:   RUNS OF A SYSTEM WHOSE STEPS ARE LABELLED, under a condition on the steps.

  A system is a relation `step s a s'`; a condition `ok s a` speaks of the state before a step and
  of its label. `Runs step ok s0 s`: `s` is reached from `s0` by steps that all meet the condition.

  * `Runs.invariant` -- what holds at the start and is kept by every step holds in every state;
  * `Runs.trans` -- runs one behind the other; `RunsBy` -- a run with the labels of its steps;
  * `not_endless` -- no run is endless when a measure falls at every step;
  * `Trace`, `Trace.Leads` -- a run without an end, and what its states lead to; `leads_of_step`,
    `leads_of_measure` -- by one step that is taken at last, by a measure.
-/
import Mathlib.Tactic.Common

namespace Transition

variable {S A : Type*} {step : S → A → S → Prop} {ok : S → A → Prop}

/-- **Reached from `s0` by steps that all meet `ok`.** -/
inductive Runs (step : S → A → S → Prop) (ok : S → A → Prop) (s0 : S) : S → Prop where
  | start : Runs step ok s0 s0
  | step {s s' : S} (a : A) (h : Runs step ok s0 s) (hok : ok s a) (hs : step s a s') :
      Runs step ok s0 s'

/-- No condition on the steps. -/
def Always (_ : S) (_ : A) : Prop := True

instance (s : S) (a : A) : Decidable (Always s a) := isTrue trivial

namespace Runs

variable {s0 s : S}

/-- **The invariant rule.** -/
theorem invariant {I : S → Prop} (h : Runs step ok s0 s) (h0 : I s0)
    (hstep : ∀ s a s', I s → ok s a → step s a s' → I s') : I s := by
  induction h with
  | start => exact h0
  | step a _ hok hs ih => exact hstep _ a _ ih hok hs

theorem trans {s1 : S} (h : Runs step ok s0 s1) (h' : Runs step ok s1 s) : Runs step ok s0 s := by
  induction h' with
  | start => exact h
  | step a _ hok hs ih => exact .step a ih hok hs

end Runs

/-- **Reached by the steps of a list of labels**, each of which meets `ok`. -/
inductive RunsBy (step : S → A → S → Prop) (ok : S → A → Prop) (s0 : S) : List A → S → Prop where
  | start : RunsBy step ok s0 [] s0
  | step {as : List A} {s s' : S} (a : A) (h : RunsBy step ok s0 as s) (hok : ok s a)
      (hs : step s a s') : RunsBy step ok s0 (as ++ [a]) s'

theorem RunsBy.runs {s0 s : S} {as : List A} (h : RunsBy step ok s0 as s) : Runs step ok s0 s := by
  induction h with
  | start => exact .start
  | step a _ hok hs ih => exact .step a ih hok hs

/-- Every run is one of some labels. -/
theorem Runs.exists_labels {s0 s : S} (h : Runs step ok s0 s) : ∃ as, RunsBy step ok s0 as s := by
  induction h with
  | start => exact ⟨[], .start⟩
  | step a _ hok hs ih =>
      obtain ⟨as, h⟩ := ih
      exact ⟨as ++ [a], .step a h hok hs⟩

/-- Steps can be taken from `s0` without an end. -/
def Endless (step : S → A → S → Prop) (s0 : S) : Prop :=
  ∃ f : ℕ → S, f 0 = s0 ∧ ∀ n, ∃ a, step (f n) a (f (n + 1))

/-- **The measure rule**: the measure falls at every step from a state of the invariant. -/
theorem not_endless {I : S → Prop} {s0 : S} (measure : S → ℕ) (h0 : I s0)
    (hkeep : ∀ s a s', I s → step s a s' → I s')
    (hfall : ∀ s a s', I s → step s a s' → measure s' < measure s) : ¬ Endless step s0 := by
  rintro ⟨f, hf, hstep⟩
  have hI : ∀ n, I (f n) := by
    intro n
    induction n with
    | zero => exact hf ▸ h0
    | succ n ih =>
        obtain ⟨a, ha⟩ := hstep n
        exact hkeep _ a _ ih ha
  have hbound : ∀ n, measure (f n) + n ≤ measure (f 0) := by
    intro n
    induction n with
    | zero => exact Nat.le_refl _
    | succ n ih =>
        obtain ⟨a, ha⟩ := hstep n
        have := hfall _ a _ (hI n) ha
        omega
  have := hbound (measure (f 0) + 1)
  omega

/-! ## Runs without an end -/

/-- **A run without an end.** -/
structure Trace (step : S → A → S → Prop) (ok : S → A → Prop) where
  state : ℕ → S
  label : ℕ → A
  ok : ∀ n, ok (state n) (label n)
  step : ∀ n, step (state n) (label n) (state (n + 1))

namespace Trace

variable {t : Trace step ok} {P Q R : S → Prop}

theorem runs {s0 : S} (h : Runs step ok s0 (t.state 0)) (n : ℕ) : Runs step ok s0 (t.state n) := by
  induction n with
  | zero => exact h
  | succ n ih => exact ih.step (t.label n) (t.ok n) (t.step n)

/-- One step before a run without an end. -/
def cons (t : Trace step ok) {s : S} {a : A} (hok : ok s a) (hs : step s a (t.state 0)) :
    Trace step ok where
  state
    | 0 => s
    | n + 1 => t.state n
  label
    | 0 => a
    | n + 1 => t.label n
  ok
    | 0 => hok
    | n + 1 => t.ok n
  step
    | 0 => hs
    | n + 1 => t.step n

variable (t) in
/-- **A state of `P` is followed by one of `Q`**, or is one. -/
def Leads (P Q : S → Prop) : Prop := ∀ n, P (t.state n) → ∃ m, n ≤ m ∧ Q (t.state m)

theorem Leads.trans (h : t.Leads P Q) (h' : t.Leads Q R) : t.Leads P R := by
  intro n hn
  obtain ⟨m, hm, hq⟩ := h n hn
  obtain ⟨k, hk, hr⟩ := h' m hq
  exact ⟨k, Nat.le_trans hm hk, hr⟩

/-- What every step keeps, or leads to `Q`, is kept until there is a `Q`. -/
theorem kept (hkeep : ∀ n, P (t.state n) → P (t.state (n + 1)) ∨ Q (t.state (n + 1))) {n m : ℕ}
    (hn : P (t.state n)) (h : n ≤ m) : P (t.state m) ∨ ∃ j, n ≤ j ∧ Q (t.state j) := by
  induction h with
  | refl => exact Or.inl hn
  | @step k hk ih =>
      rcases ih with ih | ih
      · exact (hkeep k ih).imp id fun h => ⟨k + 1, Nat.le_succ_of_le hk, h⟩
      · exact Or.inr ih

/-- **One step that is taken at last**: every step from `P` stays there or comes to `Q`, and again
    and again there is one that comes to `Q`. -/
theorem leads_of_step (hkeep : ∀ n, P (t.state n) → P (t.state (n + 1)) ∨ Q (t.state (n + 1)))
    (hhelp : ∀ n, P (t.state n) → ∃ m, n ≤ m ∧ (P (t.state m) → Q (t.state (m + 1)))) :
    t.Leads P Q := by
  intro n hn
  obtain ⟨m, hm, hq⟩ := hhelp n hn
  rcases kept hkeep hn hm with hp | h
  · exact ⟨m + 1, Nat.le_succ_of_le hm, hq hp⟩
  · exact h

/-- **The measure rule**: as long as `Q` has not been met, the measure falls again. -/
theorem leads_of_measure (measure : S → ℕ)
    (h : ∀ k, t.Leads (fun s => P s ∧ measure s = k) fun s => Q s ∨ P s ∧ measure s < k) :
    t.Leads P Q := by
  intro n hn
  induction hk : measure (t.state n) using Nat.strongRecOn generalizing n with
  | _ k ih =>
      obtain ⟨m, hm, hq | ⟨hp, hlt⟩⟩ := h k n ⟨hn, hk⟩
      · exact ⟨m, hm, hq⟩
      · obtain ⟨j, hj, hq⟩ := ih _ hlt m hp rfl
        exact ⟨j, Nat.le_trans hm hj, hq⟩

end Trace

end Transition
