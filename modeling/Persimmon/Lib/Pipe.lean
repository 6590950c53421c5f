/-
  File:      Persimmon/Lib/Pipe.lean
  Subject:   PROCESSES THAT TALK THROUGH PIPES, and what each of them waits for.

  Every process may hold either end of every pipe. A read takes what has arrived and waits while
  nothing has, as long as somebody holds the write end; once nobody does it comes back empty. A
  write waits for room as long as somebody holds the read end; once nobody does it breaks. A process
  that is killed lets go of all it holds. A write of at most one pipe buffer is not torn.

  * `Act`, `Net`, `Step` -- what a process does next, the system, its steps;
  * `Step.does` -- what a step does, by the action of the process that takes it;
  * `Step.pc_other` -- a step leaves the other processes where they are;
  * `Accounts`, `held_step` -- the ends a process holds are those its place in the program says;
  * `waits_of_stuck` -- where nobody can go on, every process has come to its end or waits for a pipe
    whose other end is held.
-/
import Persimmon.Lib.Transition
import Mathlib.Data.List.Basic
import Mathlib.Logic.Function.Basic

set_option linter.unusedSectionVars false

namespace Pipe

/-- The two ends of a pipe. -/
inductive End where
  | read
  | write
  deriving DecidableEq, Repr

/-- What a process does next: pipes `P`, words `M`, places in the program `Q`. A read goes on with
    the words read, none at the end of the stream. -/
inductive Act (P M Q : Type*) where
  | close (p : P) (e : End) (next : Q)
  | write (p : P) (ms : List M) (next broken : Q)
  | read (p : P) (n : ℕ) (next : List M → Q)
  | work (next : Q)
  | exit
  | halt

/-- The processes `T` and the pipes between them. -/
structure Net (P T M Q : Type*) where
  /-- Where a process stands; none when it is gone. -/
  pc : T → Option Q
  queue : P → List M
  held : T → P → End → Bool

variable {P T M Q : Type*}

/-- Somebody holds the end. -/
def Net.Open (s : Net P T M Q) (p : P) (e : End) : Prop := ∃ t, s.held t p e = true

inductive Label (T : Type*) where
  | run (t : T)
  | kill (t : T)
  deriving DecidableEq, Repr

variable [DecidableEq P] [DecidableEq T]

namespace Net

/-- The process goes on at another place. -/
def goto (s : Net P T M Q) (t : T) (q : Q) : Net P T M Q :=
  { s with pc := Function.update s.pc t (some q) }

def close (s : Net P T M Q) (t : T) (p : P) (e : End) : Net P T M Q :=
  { s with held := fun t' p' e' => if t' = t ∧ p' = p ∧ e' = e then false else s.held t' p' e' }

def fill (s : Net P T M Q) (p : P) (ms : List M) : Net P T M Q :=
  { s with queue := Function.update s.queue p ms }

/-- The process is gone, and everything it held is closed. -/
def kill (s : Net P T M Q) (t : T) : Net P T M Q where
  pc := Function.update s.pc t none
  queue := s.queue
  held t' p e := if t' = t then false else s.held t' p e

end Net

/-- **One step.** `prog` is what each process does where, `cap` what a pipe holds. -/
inductive Step (prog : T → Q → Act P M Q) (cap : P → ℕ) :
    Net P T M Q → Label T → Net P T M Q → Prop where
  | close {s : Net P T M Q} {t : T} {q next : Q} {p : P} {e : End} (hq : s.pc t = some q)
      (ha : prog t q = .close p e next) (hh : s.held t p e = true) :
      Step prog cap s (.run t) ((s.close t p e).goto t next)
  | write {s : Net P T M Q} {t : T} {q next broken : Q} {p : P} {ms : List M}
      (hq : s.pc t = some q) (ha : prog t q = .write p ms next broken)
      (hh : s.held t p .write = true) (ho : s.Open p .read)
      (hroom : (s.queue p).length + ms.length ≤ cap p) :
      Step prog cap s (.run t) ((s.fill p (s.queue p ++ ms)).goto t next)
  | broken {s : Net P T M Q} {t : T} {q next broken : Q} {p : P} {ms : List M}
      (hq : s.pc t = some q) (ha : prog t q = .write p ms next broken)
      (hh : s.held t p .write = true) (ho : ¬ s.Open p .read) :
      Step prog cap s (.run t) (s.goto t broken)
  | read {s : Net P T M Q} {t : T} {q : Q} {p : P} {n : ℕ} {next : List M → Q}
      (hq : s.pc t = some q) (ha : prog t q = .read p n next) (hh : s.held t p .read = true)
      (hm : s.queue p ≠ []) :
      Step prog cap s (.run t) ((s.fill p ((s.queue p).drop n)).goto t (next ((s.queue p).take n)))
  | eof {s : Net P T M Q} {t : T} {q : Q} {p : P} {n : ℕ} {next : List M → Q}
      (hq : s.pc t = some q) (ha : prog t q = .read p n next) (hh : s.held t p .read = true)
      (hm : s.queue p = []) (ho : ¬ s.Open p .write) :
      Step prog cap s (.run t) (s.goto t (next []))
  | work {s : Net P T M Q} {t : T} {q next : Q} (hq : s.pc t = some q)
      (ha : prog t q = .work next) : Step prog cap s (.run t) (s.goto t next)
  | exit {s : Net P T M Q} {t : T} {q : Q} (hq : s.pc t = some q) (ha : prog t q = .exit) :
      Step prog cap s (.run t) (s.kill t)
  | kill {s : Net P T M Q} {t : T} {q : Q} (hq : s.pc t = some q) :
      Step prog cap s (.kill t) (s.kill t)

/-! ## 1. The parts of a state after a move -/

section Fields

variable {s : Net P T M Q} {t u : T} {p : P} {e : End} {q : Q} {ms : List M}

@[simp] theorem goto_self : (s.goto t q).pc t = some q := Function.update_self _ _ _

@[simp] theorem goto_other (h : u ≠ t) : (s.goto t q).pc u = s.pc u := Function.update_of_ne h _ _

@[simp] theorem goto_queue : (s.goto t q).queue = s.queue := rfl

@[simp] theorem goto_held : (s.goto t q).held = s.held := rfl

@[simp] theorem close_pc : (s.close t p e).pc = s.pc := rfl

@[simp] theorem close_queue : (s.close t p e).queue = s.queue := rfl

@[simp] theorem fill_held : (s.fill p ms).held = s.held := rfl

@[simp] theorem fill_pc : (s.fill p ms).pc = s.pc := rfl

@[simp] theorem fill_self : (s.fill p ms).queue p = ms := Function.update_self _ _ _

@[simp] theorem fill_other {p' : P} (h : p' ≠ p) : (s.fill p ms).queue p' = s.queue p' :=
  Function.update_of_ne h _ _

@[simp] theorem kill_self : (s.kill t).pc t = none := Function.update_self _ _ _

@[simp] theorem kill_other (h : u ≠ t) : (s.kill t).pc u = s.pc u := Function.update_of_ne h _ _

@[simp] theorem kill_queue : (s.kill t).queue = s.queue := rfl

end Fields

/-! ## 2. What a step does, and what it leaves alone -/

/-- What becomes of the system when a process performs an action. -/
def Act.Does (cap : P → ℕ) (s : Net P T M Q) (t : T) (s' : Net P T M Q) : Act P M Q → Prop
  | .close p e next => s.held t p e = true ∧ s' = (s.close t p e).goto t next
  | .write p ms next broken => s.held t p .write = true ∧
      ((s.Open p .read ∧ (s.queue p).length + ms.length ≤ cap p ∧
          s' = (s.fill p (s.queue p ++ ms)).goto t next) ∨
        (¬ s.Open p .read ∧ s' = s.goto t broken))
  | .read p n next => s.held t p .read = true ∧
      ((s.queue p ≠ [] ∧
          s' = (s.fill p ((s.queue p).drop n)).goto t (next ((s.queue p).take n))) ∨
        (s.queue p = [] ∧ ¬ s.Open p .write ∧ s' = s.goto t (next [])))
  | .work next => s' = s.goto t next
  | .exit => s' = s.kill t
  | .halt => False

section Frame

variable {prog : T → Q → Act P M Q} {cap : P → ℕ} {s s' : Net P T M Q}

/-- The process a step is of. -/
def Label.of : Label T → T
  | .run t => t
  | .kill t => t

/-- **A step of a process is what its action does.** -/
theorem Step.does {t : T} (h : Step prog cap s (.run t) s') :
    ∃ q, s.pc t = some q ∧ (prog t q).Does cap s t s' := by
  cases h with
  | close hq ha hh => exact ⟨_, hq, by rw [ha]; exact ⟨hh, rfl⟩⟩
  | write hq ha hh ho hroom => exact ⟨_, hq, by rw [ha]; exact ⟨hh, Or.inl ⟨ho, hroom, rfl⟩⟩⟩
  | broken hq ha hh ho => exact ⟨_, hq, by rw [ha]; exact ⟨hh, Or.inr ⟨ho, rfl⟩⟩⟩
  | read hq ha hh hm => exact ⟨_, hq, by rw [ha]; exact ⟨hh, Or.inl ⟨hm, rfl⟩⟩⟩
  | eof hq ha hh hm ho => exact ⟨_, hq, by rw [ha]; exact ⟨hh, Or.inr ⟨hm, ho, rfl⟩⟩⟩
  | work hq ha => exact ⟨_, hq, by rw [ha]; rfl⟩
  | exit hq ha => exact ⟨_, hq, by rw [ha]; rfl⟩

theorem Step.killed {t : T} (h : Step prog cap s (.kill t) s') : s' = s.kill t := by
  cases h
  rfl

/-- A step leaves the other processes where they are. -/
theorem Step.pc_other {a : Label T} {u : T} (h : Step prog cap s a s') (hu : u ≠ a.of) :
    s'.pc u = s.pc u := by
  cases h <;> first | exact goto_other hu | exact kill_other hu

end Frame

/-! ## 3. The ends a process holds -/

section Held

variable {prog : T → Q → Act P M Q} {cap : P → ℕ} {s s' : Net P T M Q}

/-- What the place of a process says it holds; nothing when it is gone. -/
def HeldBy (holds : T → Q → P → End → Bool) (s : Net P T M Q) : Prop :=
  ∀ t p e, s.held t p e = (s.pc t).elim false fun q => holds t q p e

/-- **The account of an action**, at a place that holds `mine`: the end it needs is held, a `close`
    gives up its end, everything else keeps all. -/
def Act.Accounted (holds : Q → P → End → Bool) (mine : P → End → Bool) : Act P M Q → Prop
  | .close p e next => mine p e = true ∧
      ∀ p' e', holds next p' e' = (!decide (p' = p ∧ e' = e) && mine p' e')
  | .write p _ next broken => mine p .write = true ∧ holds next = mine ∧ holds broken = mine
  | .read p _ next => mine p .read = true ∧ ∀ ms, holds (next ms) = mine
  | .work next => holds next = mine
  | .exit => True
  | .halt => True

/-- Every place of the programs is accounted for. -/
def Accounts (prog : T → Q → Act P M Q) (holds : T → Q → P → End → Bool) : Prop :=
  ∀ t q, (prog t q).Accounted (holds t) (holds t q)

variable {holds : T → Q → P → End → Bool}

theorem HeldBy.held {t : T} {q : Q} (h : HeldBy holds s) (hq : s.pc t = some q) (p : P) (e : End) :
    s.held t p e = holds t q p e := by
  rw [h t p e, hq]
  rfl

/-- The process goes on at a place that holds what the old one held. -/
theorem HeldBy.goto {t : T} {q q' : Q} (h : HeldBy holds s) (hq : s.pc t = some q)
    (hh : holds t q' = holds t q) : HeldBy holds (s.goto t q') := by
  intro u p e
  by_cases hu : u = t
  · subst hu
    rw [goto_held, goto_self, h.held hq]
    exact (congrFun (congrFun hh p) e).symm
  · rw [goto_held, goto_other hu]
    exact h u p e

/-- It has closed an end. -/
theorem HeldBy.close {t : T} {q q' : Q} {p : P} {e : End} (h : HeldBy holds s) (hq : s.pc t = some q)
    (hh : ∀ p' e', holds t q' p' e' = (!decide (p' = p ∧ e' = e) && holds t q p' e')) :
    HeldBy holds ((s.close t p e).goto t q') := by
  intro u p' e'
  by_cases hu : u = t
  · subst hu
    rw [goto_self, Option.elim_some, hh, ← h.held hq]
    simp only [goto_held, Net.close, true_and]
    by_cases hpe : p' = p ∧ e' = e
    · rw [if_pos hpe, decide_eq_true hpe, Bool.not_true, Bool.false_and]
    · rw [if_neg hpe, decide_eq_false hpe, Bool.not_false, Bool.true_and]
  · rw [goto_other hu]
    exact (if_neg fun hc => hu hc.1).trans (h u p' e')

/-- A process that is gone holds nothing. -/
theorem HeldBy.kill (h : HeldBy holds s) (t : T) : HeldBy holds (s.kill t) := by
  intro u p e
  by_cases hu : u = t
  · subst hu
    rw [kill_self]
    exact if_pos rfl
  · rw [kill_other hu]
    exact (if_neg hu).trans (h u p e)

/-- **Every step keeps the account.** -/
theorem held_step {a : Label T} (hacc : Accounts prog holds) (h : HeldBy holds s)
    (hs : Step prog cap s a s') : HeldBy holds s' := by
  cases a with
  | kill t => exact hs.killed ▸ h.kill t
  | run t =>
      obtain ⟨q, hq, hd⟩ := hs.does
      have ha := hacc t q
      cases hp : prog t q with
      | close p e next =>
          rw [hp] at hd ha
          exact hd.2 ▸ h.close hq ha.2
      | write p ms next broken =>
          rw [hp] at hd ha
          obtain ⟨-, ⟨-, -, rfl⟩ | ⟨-, rfl⟩⟩ := hd
          · exact HeldBy.goto (s := s.fill p _) h hq ha.2.1
          · exact h.goto hq ha.2.2
      | read p n next =>
          rw [hp] at hd ha
          obtain ⟨-, ⟨-, rfl⟩ | ⟨-, -, rfl⟩⟩ := hd
          · exact HeldBy.goto (s := s.fill p _) h hq (ha.2 _)
          · exact h.goto hq (ha.2 _)
      | work next =>
          rw [hp] at hd ha
          exact hd ▸ h.goto hq ha
      | exit =>
          rw [hp] at hd
          exact hd ▸ h.kill t
      | halt =>
          rw [hp] at hd
          exact hd.elim

end Held

/-! ## 4. Waiting -/

section Waiting

variable {prog : T → Q → Act P M Q} {cap : P → ℕ} {s : Net P T M Q} {t : T} {q : Q}
  {holds : T → Q → P → End → Bool}

/-- **The process waits**: for words from a pipe somebody may still write to, or for room in a pipe
    somebody may still read from. -/
def Act.Waits (cap : P → ℕ) (s : Net P T M Q) : Act P M Q → Prop
  | .read p _ _ => s.queue p = [] ∧ s.Open p .write
  | .write p ms _ _ => cap p < (s.queue p).length + ms.length ∧ s.Open p .read
  | .halt => True
  | _ => False

/-- **Nobody can go on**: no process takes a step of its own. -/
def Stuck (prog : T → Q → Act P M Q) (cap : P → ℕ) (s : Net P T M Q) : Prop :=
  ∀ t s', ¬ Step prog cap s (.run t) s'

/-- **A process that cannot go on has come to its end, or waits.** -/
theorem waits_of_stuck (h : Stuck prog cap s) (hacc : Accounts prog holds) (hh : HeldBy holds s)
    (hq : s.pc t = some q) : (prog t q).Waits cap s := by
  have ha := hacc t q
  cases hp : prog t q with
  | close p e next =>
      rw [hp] at ha
      exact h t _ (.close hq hp ((hh.held hq p e).trans ha.1))
  | write p ms next broken =>
      rw [hp] at ha
      have hw : s.held t p .write = true := (hh.held hq p .write).trans ha.1
      by_cases ho : s.Open p .read
      · exact ⟨Nat.lt_of_not_le fun hroom => h t _ (.write hq hp hw ho hroom), ho⟩
      · exact absurd (.broken hq hp hw ho) (h t _)
  | read p n next =>
      rw [hp] at ha
      have hr : s.held t p .read = true := (hh.held hq p .read).trans ha.1
      by_cases hm : s.queue p = []
      · refine ⟨hm, ?_⟩
        by_contra ho
        exact h t _ (.eof hq hp hr hm ho)
      · exact absurd (.read hq hp hr hm) (h t _)
  | work next => exact absurd (.work hq hp) (h t _)
  | exit => exact absurd (.exit hq hp) (h t _)
  | halt => exact trivial

end Waiting

end Pipe
