/-
  File:      Persimmon/Lib/UndoReplay.lean
  Subject:   UNDO JOURNALS, replayed back to front.

  An undo journal saves the contents of a block before the block is overwritten, possibly many
  times. Replaying it writes the saved contents back, the last entry first, so that the FIRST
  entry of a block decides what the block holds in the end (`replay_apply`). The rest follows:

  * `replay_of_logged` -- where a block is in the journal, the memory replayed onto is forgotten;
  * `replay_record` -- an entry that saves the present contents changes no replay;
  * `replay_prefix` -- on the blocks of a prefix, the prefix and the whole journal replay alike.
-/
import Mathlib.Data.List.Induction

set_option linter.unusedSectionVars false

namespace UndoReplay

/-- Entries `E` that save blocks `K` of a memory with addresses `A` and values `V`. -/
structure Journal (E A K V : Type*) where
  /-- The block an entry saves. -/
  key : E → K
  /-- The block an address lies in. -/
  block : A → K
  /-- What an entry holds for an address of its block. -/
  saved : E → A → V

namespace Journal

variable {E A K V : Type*} [DecidableEq K] (J : Journal E A K V)

/-- Write one entry back. -/
def undo (e : E) (m : A → V) : A → V := fun a => if J.key e = J.block a then J.saved e a else m a

/-- **Write a journal back, the last entry first.** -/
def replay (log : List E) (m : A → V) : A → V := log.foldr J.undo m

/-- The first entry of the block `a` lies in. -/
def first (log : List E) (a : A) : Option E := log.find? fun e => decide (J.key e = J.block a)

/-- The block of `a` is in the journal. -/
def Logged (log : List E) (a : A) : Prop := ∃ e ∈ log, J.key e = J.block a

@[simp] theorem replay_nil (m : A → V) : J.replay [] m = m := rfl

@[simp] theorem replay_cons (e : E) (log : List E) (m : A → V) :
    J.replay (e :: log) m = J.undo e (J.replay log m) := rfl

theorem replay_append (l₁ l₂ : List E) (m : A → V) :
    J.replay (l₁ ++ l₂) m = J.replay l₁ (J.replay l₂ m) := by
  unfold replay
  rw [List.foldr_append]

/-- **The first entry of a block decides.** -/
theorem replay_apply (log : List E) (m : A → V) (a : A) :
    J.replay log m a = (J.first log a).elim (m a) (fun e => J.saved e a) := by
  induction log with
  | nil => rfl
  | cons e log ih =>
      rw [replay_cons]
      by_cases h : J.key e = J.block a
      · simp [undo, first, h]
      · have hf : J.first (e :: log) a = J.first log a := by simp [first, h]
        rw [hf, ← ih]
        simp [undo, h]

variable {J}

theorem first_isSome {log : List E} {a : A} : (J.first log a).isSome ↔ J.Logged log a := by
  simp [first, Logged, List.find?_isSome]

theorem first_some {log : List E} {a : A} {e : E} (h : J.first log a = some e) :
    e ∈ log ∧ J.key e = J.block a :=
  ⟨List.mem_of_find?_eq_some h,
    of_decide_eq_true (List.find?_some (p := fun e => decide (J.key e = J.block a)) h)⟩

theorem first_eq_none {log : List E} {a : A} (h : ¬ J.Logged log a) : J.first log a = none := by
  rw [← Option.not_isSome_iff_eq_none, first_isSome]
  exact h

theorem logged_append {l₁ l₂ : List E} {a : A} :
    J.Logged (l₁ ++ l₂) a ↔ J.Logged l₁ a ∨ J.Logged l₂ a := by
  simp only [Logged, List.mem_append]
  constructor
  · intro hcase
    rcases hcase with ⟨e, he | he, h⟩
    · exact Or.inl ⟨e, he, h⟩
    · exact Or.inr ⟨e, he, h⟩
  · intro hcase
    rcases hcase with ⟨e, he, h⟩ | ⟨e, he, h⟩
    · exact ⟨e, Or.inl he, h⟩
    · exact ⟨e, Or.inr he, h⟩

theorem Logged.mono {l₁ l₂ : List E} {a : A} (h : J.Logged l₁ a) (hs : ∀ e ∈ l₁, e ∈ l₂) :
    J.Logged l₂ a := by
  obtain ⟨e, he, hk⟩ := h
  exact ⟨e, hs e he, hk⟩

/-- A block outside the journal keeps its contents. -/
theorem replay_of_not_logged {log : List E} {a : A} (h : ¬ J.Logged log a) (m : A → V) :
    J.replay log m a = m a := by
  rw [replay_apply, first_eq_none h]
  rfl

/-- **What a journalled block holds after the replay does not depend on the memory.** -/
theorem replay_of_logged {log : List E} {a : A} (h : J.Logged log a) (m m' : A → V) :
    J.replay log m a = J.replay log m' a := by
  obtain ⟨e, he⟩ := Option.isSome_iff_exists.mp (first_isSome.mpr h)
  rw [replay_apply, replay_apply, he]
  rfl

/-- Journals with one first entry for the block of `a` replay alike at `a`. -/
theorem replay_eq_of_first {l₁ l₂ : List E} {a : A} (h : J.first l₁ a = J.first l₂ a) (m : A → V) :
    J.replay l₁ m a = J.replay l₂ m a := by
  rw [replay_apply, replay_apply, h]

/-- The memories agree at `a`, or its block is in the journal: the replays agree at `a`. -/
theorem replay_congr {log : List E} {a : A} {m m' : A → V} (h : J.Logged log a ∨ m a = m' a) :
    J.replay log m a = J.replay log m' a := by
  rcases h with h | h
  · exact replay_of_logged h m m'
  · rw [replay_apply, replay_apply, h]

/-- **An entry that saves the present contents changes no replay.** -/
theorem replay_record {log : List E} {e : E} {m : A → V} {a : A}
    (h : J.key e = J.block a → J.saved e a = m a) :
    J.replay (log ++ [e]) m a = J.replay log m a := by
  rw [replay_append]
  refine replay_congr (Or.inr ?_)
  by_cases hk : J.key e = J.block a
  · simp [undo, hk, h hk]
  · simp [undo, hk]

/-- The same for several entries, all saving the present contents. -/
theorem replay_record_all {log es : List E} {m : A → V} {a : A}
    (h : ∀ e ∈ es, J.key e = J.block a → J.saved e a = m a) :
    J.replay (log ++ es) m a = J.replay log m a := by
  induction es using List.reverseRecOn with
  | nil => rw [List.append_nil]
  | append_singleton es e ih =>
      rw [← List.append_assoc, replay_record (h e (by simp)), ih]
      exact fun f hf => h f (List.mem_append_left _ hf)

/-- **On the blocks of a prefix, the prefix and the whole journal replay alike.** -/
theorem replay_prefix {l₁ l₂ : List E} {a : A} (h : J.Logged l₁ a) (m m' : A → V) :
    J.replay l₁ m a = J.replay (l₁ ++ l₂) m' a := by
  rw [replay_append]
  exact replay_of_logged h _ _

end Journal

end UndoReplay
