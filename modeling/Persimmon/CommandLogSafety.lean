/-
  File:      Persimmon/CommandLogSafety.lean
  Subject:   THE COMMAND LOG IS A FIFO CHANNEL, AND CAN ALWAYS BE REPLAYED, in every run of the
             foreground, the background and the hardware.

  * `slots_of_run` -- the slots are those that the calls of a run have asked for, in order, with the
    bytes that were pushed;
  * `Psm.Fifo`, `log_is_fifo` -- the callback is called on the committed entries, in order, each
    once, with their bytes; no assertion of `consume` fails; `psm_commit` returns early only when
    nothing was reserved;
  * `Psm.Replayable`, `log_is_replayable` -- whatever a crash leaves, consuming from the persistent
    tail to the persistent head meets the committed entries the tail has not passed;
  * `flushLoop` -- the flush loop of `psm_commit` by itself.
-/
import Persimmon.CommandLogInvariant

namespace Persimmon

open PersistentMemory Transition

/-- Everything committed so far, in the order of its reservation. -/
def History.entries (h : History) : List Slot := h.passed ++ h.passing ++ h.committed

/-- Every slot there has been. -/
def History.slots (h : History) : List Slot := h.entries ++ h.reserved

/-- What a call of `psm_reserve` or `psm_push` asks for: a length, and the bytes that are pushed. -/
def PsmAct.asked : PsmAct → Option (ℕ × Option (List ℕ))
  | .reserve len => some (len, none)
  | .push src => some (src.length, some src)
  | _ => none

/-- What a slot has been asked for. -/
def Slot.asked (s : Slot) : ℕ × Option (List ℕ) :=
  (s.bytes.length, if s.pushed then some s.bytes else none)

/-- The call whose slot has not been handed out. -/
def Producer.asking : Producer → List (ℕ × Option (List ℕ))
  | .reserving len src | .padding len src => [(len, src)]
  | _ => []

/-! ## 1. A FIFO channel -/

/-- **The command log is a FIFO channel.** -/
structure Psm.Fifo (s : Psm) : Prop where
  /-- The callback has been called on the first entries, and on all of them when the log is empty. -/
  called : ∃ consumed rest, s.hist.entries = consumed ++ rest ∧
    List.Forall₂ Slot.Met consumed s.hist.called ∧
    (s.consumer = .idle → s.consumerTail = s.head → rest = [])
  /-- The entries that the tail has not passed stay as they are. -/
  holds : ∀ slot ∈ s.hist.passing ++ s.hist.committed, slot.Holds s.buf
  /-- No assertion of `consume` fails, and its recursion ends. -/
  consumes : ∀ head len, s.consumer = .loaded head → s.Proper (.call len) →
    consume s.buf (fun _ => len) head 2 s.consumerTail ≠ .assertFailed ∧
      consume s.buf (fun _ => len) head 2 s.consumerTail ≠ .outOfFuel
  /-- The early return of `psm_commit`. -/
  early : s.producer = .idle → s.localHead = s.head → s.hist.reserved = []

namespace Psm

variable {s s' : Psm}

/-- **Entries are committed in the order of their reservation, and never leave.** -/
theorem entries_step {a : PsmAct} (hs : s.Step a s') :
    s'.hist.entries = s.hist.entries ∨
      s.producer = .publishingHead ∧ s'.hist.entries = s.hist.entries ++ s.hist.reserved := by
  cases hs with
  | publishHead hp => exact Or.inr ⟨hp, (List.append_assoc _ _ _).symm⟩
  | publishTail hc => exact Or.inl (by simp [History.entries])
  | call len hc he =>
      left
      unfold History.entries History.call
      split
      · rfl
      · rename_i slot rest hcommitted
        simp [hcommitted]
  | _ => exact Or.inl rfl

theorem asked_newSlot {len : ℕ} {src : Option (List ℕ)} (h : ProperCall len src) :
    (s.newSlot len src).asked = (len, src) := by
  cases src with
  | none => simp [newSlot, Slot.asked]
  | some b =>
      obtain rfl : b.length = len := h.2 b rfl
      rfl

/-- The application writes only to slots that have not been pushed. -/
theorem asked_write (w b : ℕ) (slot : Slot) : (slot.write w b).asked = slot.asked := by
  unfold Slot.write
  split
  · rename_i h
    simp [Slot.asked, h.1]
  · rfl

theorem asked_reserving {len : ℕ} {src : Option (List ℕ)} (h : s.Inv)
    (hp : s.producer = .reserving len src ∨ s.producer = .padding len src) : ProperCall len src := by
  have hres := h.reserved
  unfold ReservedInv at hres
  rcases hp with hp | hp
  · simp only [hp] at hres
    exact hres.2
  · simp only [hp] at hres
    exact hres.2.1

/-- The end of `psm_reserve` adds the slot it was called for. -/
theorem asked_take {len : ℕ} {src : Option (List ℕ)} (h : ProperCall len src) :
    (s.take len src).hist.slots.map Slot.asked ++ (s.take len src).producer.asking =
      s.hist.slots.map Slot.asked ++ [(len, src)] := by
  have hslots : (s.take len src).hist.slots = s.hist.slots ++ [s.newSlot len src] :=
    (List.append_assoc _ _ _).symm
  have hdone : (s.take len src).producer.asking = [] := by
    cases src <;> rfl
  rw [hslots, hdone, List.map_append, List.map_singleton, asked_newSlot h, List.append_nil]

/-- **A step hands out exactly what a call has asked for.** -/
theorem asked_step {a : PsmAct} (h : s.Inv) (hs : s.Step a s') :
    s'.hist.slots.map Slot.asked ++ s'.producer.asking =
      s.hist.slots.map Slot.asked ++ s.producer.asking ++ a.asked.toList := by
  cases hs with
  | reserve len hp => simp [hp, Producer.asking, PsmAct.asked]
  | push src hp => simp [hp, Producer.asking, PsmAct.asked]
  | spin hp => simp [hp, PsmAct.asked, History.slots, History.entries]
  | take hp =>
      rw [asked_take (asked_reserving h (Or.inl hp)), hp]
      simp [Producer.asking, PsmAct.asked]
  | pad hp => simp [hp, Producer.asking, PsmAct.asked]
  | flushPad hp =>
      rw [asked_take (asked_reserving h (Or.inr hp)), hp]
      simp [Producer.asking, PsmAct.asked]
  | write w b hp => simp [PsmAct.asked, History.slots, History.entries, Function.comp_def, asked_write]
  | commit pushOnly hp => cases pushOnly <;> simp [hp, Producer.asking, PsmAct.asked]
  | publishHead hp => simp [hp, Producer.asking, PsmAct.asked, History.slots, History.entries]
  | publishTail => simp [PsmAct.asked, History.slots, History.entries]
  | call len hc he =>
      unfold History.slots History.entries History.call
      split
      · simp [PsmAct.asked]
      · rename_i slot rest hcommitted
        simp [PsmAct.asked, hcommitted]
  | commitNothing | load | callNothing | storeTail | flushTail | drainTail | evict =>
      simp [PsmAct.asked]
  | copy hp | copied hp | flush hp | flushed hp | drain hp | storeHead hp | flushHead hp
  | drainHead hp => simp [hp, Producer.asking, PsmAct.asked]

/-- **The slots of a run are what its calls of `psm_reserve` and `psm_push` have asked for**, in
    order, those of `psm_push` with the bytes that were pushed; the last call may be in its spin
    loop. -/
theorem slots_of_run {as : List PsmAct} (h : RunsBy Psm.Step Psm.Proper Psm.start as s) :
    s.hist.slots.map Slot.asked ++ s.producer.asking = as.filterMap PsmAct.asked := by
  induction h with
  | start => rfl
  | @step as s s' a h hok hs ih =>
      rw [asked_step (inv_runs h.runs) hs, ih, List.filterMap_append]
      cases a <;> rfl

theorem slots_asked (h : Runs Psm.Step Psm.Proper Psm.start s) :
    ∃ as, RunsBy Psm.Step Psm.Proper Psm.start as s ∧
      s.hist.slots.map Slot.asked ++ s.producer.asking = as.filterMap PsmAct.asked := by
  obtain ⟨as, has⟩ := h.exists_labels
  exact ⟨as, has, slots_of_run has⟩

theorem fifo_of_inv (h : s.Inv) : s.Fifo where
  called := by
    refine ⟨s.hist.passed ++ s.hist.passing, s.hist.committed, rfl, h.met, fun hc he => ?_⟩
    have hcons := h.consumed
    simp only [ConsumedInv, hc] at hcons
    have hle := h.pos.le
    have heq : s.hist.consumedPos = s.hist.headPos :=
      place_inj (show s.hist.tailPos ≤ _ ∧ _ from ⟨hle.1, by omega⟩) ⟨by omega, by omega⟩
        (h.pos.consumerTail.symm.trans (he.trans h.pos.head))
    have hchain := h.pos.committed
    rw [← heq] at hchain
    exact hchain.eq_nil
  holds slot hslot := (h.stored slot hslot).holds (h.pos.mem_stored hslot).1
  consumes head len hc hok := by
    rcases consume_loaded h hc hok with ⟨-, he⟩ | ⟨slot, rest, -, -, he⟩ <;>
    · rw [he]
      exact ⟨Consumed.noConfusion, Consumed.noConfusion⟩
  early _ he := by
    have hle := h.pos.le
    have heq : s.hist.headPos = s.hist.localHeadPos :=
      place_inj (show s.hist.tailPos ≤ _ ∧ _ from ⟨by omega, by omega⟩) ⟨by omega, by omega⟩
        (h.pos.head.symm.trans (he.symm.trans h.pos.localHead))
    have hchain := h.pos.reserved
    rw [← heq] at hchain
    exact hchain.eq_nil

/-- **The command log is a FIFO channel without loss, duplication or corruption**, for every
    interleaving of a foreground and a background that use it as it asks. -/
theorem log_is_fifo (h : Runs Psm.Step Psm.Proper Psm.start s) : s.Fifo := fifo_of_inv (inv_runs h)

end Psm

/-! ## 2. The flush loop -/

/-- The flush loop of `psm_commit` from index `i` on: the indices it flushes. -/
def flushLoop (localHead : ℕ) : ℕ → ℕ → Option (List ℕ)
  | 0, _ => none
  | fuel + 1, i =>
      if i = localHead then some []
      else (flushLoop localHead fuel ((i + 64) % psmLogSizeB)).map fun is => i :: is

/-- **The flush loop ends, and flushes every line up to the local head.** -/
theorem flushLoop_covers {x q fuel : ℕ} (hx : x % 64 = 0) (hq : q % 64 = 0) (hle : x ≤ q)
    (hlt : q < x + psmLogSizeB) (hf : q < x + 64 * fuel) :
    ∃ is, flushLoop (q % psmLogSizeB) fuel (x % psmLogSizeB) = some is ∧
      ∀ y, x ≤ y → y < q → ∃ i ∈ is, i / 64 = y % psmLogSizeB / 64 := by
  induction fuel generalizing x with
  | zero => exact absurd hf (by omega)
  | succ fuel ih =>
      by_cases he : x = q
      · subst he
        exact ⟨[], if_pos rfl, fun y h1 h2 => absurd h2 (not_lt.mpr h1)⟩
      · have hne : x % psmLogSizeB ≠ q % psmLogSizeB := fun e =>
          he (place_inj (show x ≤ x ∧ _ from ⟨le_refl _, by omega⟩) ⟨hle, hlt⟩ e)
        obtain ⟨is, h1, h2⟩ := ih (show (x + 64) % 64 = 0 by omega) (by omega) (by omega) (by omega)
        refine ⟨x % psmLogSizeB :: is, ?_, fun y hy1 hy2 => ?_⟩
        · rw [flushLoop, if_neg hne, Nat.mod_add_mod, h1]
          rfl
        · by_cases hy : y < x + 64
          · refine ⟨_, List.mem_cons_self, ?_⟩
            unfold psmLogSizeB
            omega
          · obtain ⟨i, hi, hline⟩ := h2 y (not_lt.mp hy) hy2
            exact ⟨i, List.mem_cons_of_mem _ hi, hline⟩

/-! ## 3. Replaying after a crash -/

/-- `log->tail` of `update_tail` is stored, and `tail` not yet. -/
def Consumer.Storing (c : Consumer) : Prop :=
  c = .flushingTail ∨ c = .drainingTail ∨ c = .publishingTail

/-- `log->head` of `update_head` is stored, and `head` not yet. -/
def Producer.Storing (p : Producer) : Prop :=
  p = .flushingHead ∨ p = .drainingHead ∨ p = .publishingHead

/-- **What a crash leaves can be replayed.** -/
structure Psm.Replayable (s : Psm) : Prop where
  /-- Consuming from the persistent tail to the persistent head meets the committed entries that the
      tail has not passed: those being passed unless the new tail is persistent already, and those
      being committed when the new head is. -/
  walk : ∃ passing reserved,
    (passing = s.hist.passing ∨ passing = [] ∧ s.consumer.Storing) ∧
    (reserved = [] ∨ reserved = s.hist.reserved ∧ s.producer.Storing) ∧
    (∀ slot ∈ passing ++ s.hist.committed ++ reserved, slot.Holds s.pmBuf) ∧
    ∀ lens, List.Forall₂ (fun slot len => alignToCacheLineSize len =
        alignToCacheLineSize slot.bytes.length) (passing ++ s.hist.committed ++ reserved) lens →
      Persimmon.walk s.pmBuf (s.mem.pm .head) lens (s.mem.pm .tail) =
        some ((passing ++ s.hist.committed ++ reserved).map Slot.place)
  /-- The flush loop of `psm_commit` ends and flushes every line from the head to the local head. -/
  flushes : ∃ is, flushLoop s.localHead (psmLogSizeB / 64) s.head = some is ∧
    ∀ x, s.hist.headPos ≤ x → x < s.hist.localHeadPos → ∃ i ∈ is, i / 64 = x % psmLogSizeB / 64

namespace Psm

variable {s : Psm}

/-- The persistent tail, and the slots behind it that are consumed already. -/
theorem Inv.pm_tail (h : s.Inv) : ∃ p passing,
    (passing = s.hist.passing ∨ passing = [] ∧ s.consumer.Storing) ∧
      s.mem.pm .tail = p % psmLogSizeB ∧ Chain p passing s.hist.consumedPos ∧
      s.hist.tailPos ≤ p := by
  have htail := h.tail
  have hle := h.pos.le
  have hold : s.mem.pm .tail = s.hist.tailPos % psmLogSizeB → ∃ p passing,
      (passing = s.hist.passing ∨ passing = [] ∧ s.consumer.Storing) ∧
        s.mem.pm .tail = p % psmLogSizeB ∧ Chain p passing s.hist.consumedPos ∧
        s.hist.tailPos ≤ p := fun he => ⟨_, _, Or.inl rfl, he, h.pos.passing, le_refl _⟩
  have hnew : s.consumer.Storing → s.mem.pm .tail = s.hist.consumedPos % psmLogSizeB →
      ∃ p passing, (passing = s.hist.passing ∨ passing = [] ∧ s.consumer.Storing) ∧
        s.mem.pm .tail = p % psmLogSizeB ∧ Chain p passing s.hist.consumedPos ∧
        s.hist.tailPos ≤ p := fun hs he => ⟨_, [], Or.inr ⟨rfl, hs⟩, he, .nil _, hle.1⟩
  unfold TailInv at htail
  cases hc : s.consumer <;> simp only [hc] at htail hold hnew ⊢
  case flushingTail => exact htail.2.elim hold (hnew (Or.inl rfl))
  case drainingTail => exact htail.2.1.elim hold (hnew (Or.inr (Or.inl rfl)))
  case publishingTail => exact hnew (Or.inr (Or.inr rfl)) htail.2
  all_goals exact hold htail.2

/-- The persistent head, and the reserved slots before it. -/
theorem Inv.pm_head (h : s.Inv) : ∃ q reserved,
    (reserved = [] ∨ reserved = s.hist.reserved ∧ s.producer.Storing) ∧
      s.mem.pm .head = q % psmLogSizeB ∧ Chain s.hist.headPos reserved q ∧
      q ≤ s.hist.localHeadPos ∧ ∀ slot ∈ reserved, slot.Stored s.mem := by
  have hhead := h.head
  have hres := h.reserved
  have hle := h.pos.le
  have hold : s.mem.pm .head = s.hist.headPos % psmLogSizeB → ∃ q reserved,
      (reserved = [] ∨ reserved = s.hist.reserved ∧ s.producer.Storing) ∧
        s.mem.pm .head = q % psmLogSizeB ∧ Chain s.hist.headPos reserved q ∧
        q ≤ s.hist.localHeadPos ∧ ∀ slot ∈ reserved, slot.Stored s.mem := fun he =>
    ⟨_, [], Or.inl rfl, he, .nil _, hle.2.2.1, fun _ hs => absurd hs List.not_mem_nil⟩
  have hnew : s.producer.Storing → (∀ slot ∈ s.hist.reserved, slot.Stored s.mem) →
      s.mem.pm .head = s.hist.localHeadPos % psmLogSizeB → ∃ q reserved,
      (reserved = [] ∨ reserved = s.hist.reserved ∧ s.producer.Storing) ∧
        s.mem.pm .head = q % psmLogSizeB ∧ Chain s.hist.headPos reserved q ∧
        q ≤ s.hist.localHeadPos ∧ ∀ slot ∈ reserved, slot.Stored s.mem := fun hs hst he =>
    ⟨_, _, Or.inr ⟨rfl, hs⟩, he, h.pos.reserved, le_refl _, hst⟩
  unfold HeadInv at hhead
  unfold ReservedInv at hres
  cases hp : s.producer <;> simp only [hp] at hhead hres hold hnew ⊢
  case flushingHead => exact hhead.2.elim hold (hnew (Or.inl rfl) hres)
  case drainingHead => exact hhead.2.1.elim hold (hnew (Or.inr (Or.inl rfl)) hres)
  case publishingHead => exact hnew (Or.inr (Or.inr rfl)) hres hhead.2
  all_goals exact hold hhead.2

/-- **The persistent log**: the committed slots that the persistent tail has not passed, up to the
    persistent head. -/
theorem Inv.pm_log (h : s.Inv) : ∃ p q passing reserved,
    (passing = s.hist.passing ∨ passing = [] ∧ s.consumer.Storing) ∧
      (reserved = [] ∨ reserved = s.hist.reserved ∧ s.producer.Storing) ∧
      s.mem.pm .tail = p % psmLogSizeB ∧ s.mem.pm .head = q % psmLogSizeB ∧
      Chain p passing s.hist.consumedPos ∧ Chain s.hist.consumedPos (s.hist.committed ++ reserved) q ∧
      q + 64 ≤ p + psmLogSizeB ∧ ∀ slot ∈ passing ++ (s.hist.committed ++ reserved),
        slot.Holds s.pmBuf ∧ slot.bytes.getD 0 0 ≠ 0 := by
  obtain ⟨p, passing, hpassing, hp, hpc, hple⟩ := h.pm_tail
  obtain ⟨q, reserved, hreserved, hq, hqc, hqle, hst⟩ := h.pm_head
  have hle := h.pos.le
  have hchain : Chain p (passing ++ (s.hist.committed ++ reserved)) q :=
    hpc.append (h.pos.committed.append hqc)
  have hstored : ∀ slot ∈ passing ++ (s.hist.committed ++ reserved), slot.Stored s.mem := by
    intro slot hslot
    rcases List.mem_append.mp hslot with hin | hin
    · rcases hpassing with rfl | ⟨rfl, -⟩
      · exact h.stored slot (List.mem_append_left _ hin)
      · exact absurd hin List.not_mem_nil
    · rcases List.mem_append.mp hin with hin | hin
      · exact h.stored slot (List.mem_append_right _ hin)
      · exact hst slot hin
  exact ⟨p, q, passing, reserved, hpassing, hreserved, hp, hq, hpc, h.pos.committed.append hqc,
    by omega, fun slot hslot =>
      ⟨(hstored slot hslot).holds_pm (hchain.mem hslot).1, (hstored slot hslot).nul⟩⟩

theorem replayable_of_inv (h : s.Inv) : s.Replayable where
  walk := by
    obtain ⟨p, q, passing, reserved, hpassing, hreserved, hp, hq, hpc, hqc, hroom, hholds⟩ := h.pm_log
    refine ⟨passing, reserved, hpassing, hreserved, ?_, ?_⟩ <;> rw [List.append_assoc]
    · exact fun slot hslot => (hholds slot hslot).1
    · intro lens hlens
      rw [hp, hq]
      exact walk_chain (hpc.append hqc) hroom hholds hlens
  flushes := by
    have hle := h.pos.le
    have hmod := h.pos.headPos_mod
    have hmod' := h.pos.localHeadPos_mod
    rw [h.pos.head, h.pos.localHead]
    refine flushLoop_covers hmod hmod' hle.2.2.1 (by omega) ?_
    unfold psmLogSizeB at *
    omega

/-- **The persistent command log is always replayable**, wherever a crash comes and whichever lines
    the hardware has written back. -/
theorem log_is_replayable (h : Runs Psm.Step Psm.Proper Psm.start s) : s.Replayable :=
  replayable_of_inv (inv_runs h)

/-! ## 4. Two entries around the end of the buffer -/

theorem drained_evict {m : PsmMemory} {t : Side} {l : PsmLine} (h : m.pending t ⊆ {l}) :
    (m.evict psmLine l).Drained t :=
  Set.eq_empty_of_forall_notMem fun _ hx => hx.2 (h hx.1)

/-- A line that is flushed and then written back is asked for no longer. -/
theorem drained_flush_evict {m : PsmMemory} {side : Side} {l : PsmLine} (h : ∀ t, m.Drained t)
    (t : Side) : ((m.flush side l).evict psmLine l).Drained t := by
  refine drained_evict fun x hx => ?_
  by_cases ht : t = side
  · subst ht
    have hx' : x ∈ insert l (m.pending t) := by simpa [Memory.flush] using hx
    rw [h t] at hx'
    exact hx'.resolve_right (Set.notMem_empty x)
  · have hx' : x ∈ m.pending t := by simpa [Memory.flush, ht] using hx
    rw [h t] at hx'
    exact absurd hx' (Set.notMem_empty x)

/-- A cell is stored, flushed and written back: nothing is left to be asked for. -/
theorem settled {m : PsmMemory} (h : ∀ t, m.Drained t) (side : Side) (c : PsmCell) (v : ℕ) :
    let m' := ((m.store c v).flush side (psmLine c)).evict psmLine (psmLine c)
    (∀ t, m'.Drained t) ∧ m'.cache = Function.update m.cache c v ∧ m'.pm c = v ∧
      ∀ a, psmLine a ≠ psmLine c → m'.pm a = m.pm a := by
  refine ⟨drained_flush_evict (m := m.store c v) h, rfl, ?_, fun a ha => ?_⟩
  · simp [Memory.evict]
  · simp [Memory.evict, ha]

section Witness

variable {s0 : Psm}

/-- **The flush loop**, with every line written back at once. -/
theorem runs_flushLoop {x n : ℕ} (h : Runs Psm.Step Psm.Proper s0 s)
    (hp : s.producer = .flushing (x % psmLogSizeB))
    (hl : s.localHead = (x + 64 * n) % psmLogSizeB) (hn : 64 * n < psmLogSizeB)
    (hd : ∀ t, s.mem.Drained t) :
    ∃ m : PsmMemory, Runs Psm.Step Psm.Proper s0 { s with mem := m, producer := .draining } ∧
      (∀ t, m.Drained t) ∧ m.cache = s.mem.cache ∧ m.pm .head = s.mem.pm .head ∧
      m.pm .tail = s.mem.pm .tail := by
  induction n generalizing x s with
  | zero => exact ⟨s.mem, h.step PsmAct.producer trivial (.flushed hp hl.symm), hd, rfl, rfl, rfl⟩
  | succ n ih =>
      have hne : x % psmLogSizeB ≠ s.localHead := by
        rw [hl]
        unfold psmLogSizeB at *
        omega
      have h1 := h.step PsmAct.producer trivial (.flush hp hne)
      have h2 := h1.step (PsmAct.evict (.buf (x % psmLogSizeB / 64))) trivial (.evict _)
      have hnext : Producer.flushing ((x % psmLogSizeB + 64) % psmLogSizeB) =
          .flushing ((x + 64) % psmLogSizeB) := by
        rw [Nat.mod_add_mod]
      obtain ⟨m, hm, hdm, h3, h4, h5⟩ := ih h2 hnext
        (hl.trans (by rw [Nat.mul_succ, Nat.add_assoc, Nat.add_comm 64])) (by omega)
        (drained_flush_evict hd)
      exact ⟨m, hm, hdm, h3, h4, h5⟩

/-- **The `memcpy` of `psm_push`**, with every line written back at once. -/
theorem runs_copying {p i n : ℕ} {src : List ℕ} (h : Runs Psm.Step Psm.Proper s0 s)
    (hp : s.producer = .copying p src i) (hn : i + n = src.length) (hd : ∀ t, s.mem.Drained t) :
    ∃ m : PsmMemory, Runs Psm.Step Psm.Proper s0 { s with mem := m, producer := .idle } ∧
      (∀ t, m.Drained t) ∧ (∀ j, i ≤ j → j < src.length → m.cache (.buf (p + j)) = src.getD j 0) ∧
      (∀ c, (∀ j, i ≤ j → j < src.length → c ≠ .buf (p + j)) → m.cache c = s.mem.cache c) ∧
      m.pm .head = s.mem.pm .head ∧ m.pm .tail = s.mem.pm .tail := by
  induction n generalizing i s with
  | zero =>
      refine ⟨s.mem, h.step PsmAct.producer trivial (.copied hp (by omega)), hd, fun j h1 h2 => ?_,
        fun c _ => rfl, rfl, rfl⟩
      omega
  | succ n ih =>
      have h1 := h.step PsmAct.producer trivial (.copy hp (by omega))
      have h2 := h1.step (PsmAct.evict (.buf ((p + i) / 64))) trivial (.evict _)
      obtain ⟨m, hm, hdm, hnew, hold, h3, h4⟩ := ih h2 rfl (by omega) (drained_flush_evict hd)
      refine ⟨m, hm, hdm, fun j hj1 hj2 => ?_, fun c hc => ?_, h3, h4⟩
      · rcases Nat.eq_or_lt_of_le hj1 with rfl | hlt
        · rw [hold _ fun k hk _ he => by
            have := PsmCell.buf.inj he
            omega]
          exact Function.update_self _ _ _
        · exact hnew j hlt hj2
      · rw [hold c fun k hk1 hk2 => hc k (by omega) hk2]
        exact Function.update_of_ne (hc i (le_refl i) (by omega)) _ _

/-- **`update_head`** at the end of `psm_commit`. -/
theorem runs_updateHead (h : Runs Psm.Step Psm.Proper s0 s) (hp : s.producer = .draining)
    (hd : ∀ t, s.mem.Drained t) :
    ∃ m : PsmMemory, Runs Psm.Step Psm.Proper s0 { s with
        mem := m
        head := s.localHead
        producer := .idle
        hist := { s.hist with
          headPos := s.hist.localHeadPos
          committed := s.hist.committed ++ s.hist.reserved
          reserved := [] } } ∧
      (∀ t, m.Drained t) ∧ m.cache = Function.update s.mem.cache .head s.localHead ∧
      m.pm .head = s.localHead ∧ m.pm .tail = s.mem.pm .tail := by
  have h1 := h.step PsmAct.producer trivial (.drain hp (hd _))
  have h2 := h1.step PsmAct.producer trivial (.storeHead rfl)
  have h3 := h2.step PsmAct.producer trivial (.flushHead rfl)
  have h4 := h3.step (PsmAct.evict .head) trivial (.evict .head)
  obtain ⟨hd', hcache, hpm, hrest⟩ := settled hd .producer .head s.localHead
  have h5 := h4.step PsmAct.producer trivial (.drainHead rfl (hd' _))
  exact ⟨_, h5.step PsmAct.producer trivial (.publishHead rfl), hd', hcache, hpm,
    hrest .tail (by decide)⟩

/-- **A call of the callback, and `update_tail`**. -/
theorem runs_consumed {len place newTail : ℕ} (h : Runs Psm.Step Psm.Proper s0 s)
    (hc : s.consumer = .idle)
    (he : consume s.buf (fun _ => len) s.head 2 s.consumerTail = .entry place newTail)
    (hlen : s.Proper (.call len)) (hd : ∀ t, s.mem.Drained t) :
    ∃ m : PsmMemory, Runs Psm.Step Psm.Proper s0 { s with
        mem := m
        tail := newTail
        consumerTail := newTail
        consumer := .idle
        hist := { s.hist.call ⟨place, fun i => s.buf (place + i)⟩ with
          tailPos := (s.hist.call ⟨place, fun i => s.buf (place + i)⟩).consumedPos
          passed := (s.hist.call ⟨place, fun i => s.buf (place + i)⟩).passed ++
            (s.hist.call ⟨place, fun i => s.buf (place + i)⟩).passing
          passing := [] } } ∧
      (∀ t, m.Drained t) ∧ m.cache = Function.update s.mem.cache .tail newTail ∧
      m.pm .head = s.mem.pm .head ∧ m.pm .tail = newTail := by
  have h1 := h.step PsmAct.consumer trivial (.load hc)
  have h2 := h1.step (PsmAct.call len) hlen (.call len rfl he)
  have h3 := h2.step PsmAct.consumer trivial (.storeTail rfl)
  have h4 := h3.step PsmAct.consumer trivial (.flushTail rfl)
  have h5 := h4.step (PsmAct.evict .tail) trivial (.evict .tail)
  obtain ⟨hd', hcache, hpm, hrest⟩ := settled hd .consumer .tail newTail
  have h6 := h5.step PsmAct.consumer trivial (.drainTail rfl (hd' _))
  exact ⟨_, h6.step PsmAct.consumer trivial (.publishTail rfl), hd', hcache,
    hrest .head (by decide), hpm⟩

/-- **`psm_reserve`** on a log with room, and the application's store of a first byte. -/
theorem runs_reserved {len b : ℕ} (h : Runs Psm.Step Psm.Proper s0 s) (hp : s.producer = .idle)
    (hlen : ProperLen len) (hsp : s.HasSpace len) (ht : ¬ s.Truncated len)
    (hres : s.hist.reserved = []) :
    ∃ slot : Slot, Runs Psm.Step Psm.Proper s0 { s with
        mem := s.mem.store (.buf (s.hist.localHeadPos % psmLogSizeB)) b
        localHead := (s.localHead + alignToCacheLineSize len) % psmLogSizeB
        producer := .idle
        hist := { s.hist with
          localHeadPos := s.hist.localHeadPos + alignToCacheLineSize len
          reserved := [slot] } } ∧
      slot.pushed = false ∧ slot.bytes.length = len ∧ slot.bytes.getD 0 0 = b := by
  have hneed : s.needed len = alignToCacheLineSize len := if_neg ht
  have h1 := h.step (PsmAct.reserve len) hlen (.reserve len hp)
  have h2 := h1.step PsmAct.producer trivial (.take rfl hsp ht)
  let new : Slot := newSlot { s with producer := .reserving len none } len none
  have hpos : new.pos = s.hist.localHeadPos := if_neg ht
  have hsize : new.bytes.length = len := by simp [new, newSlot]
  have hplace : new.place = s.hist.localHeadPos % psmLogSizeB := by rw [Slot.place, hpos]
  have hin : new.pushed = false ∧ new.place ≤ new.place ∧
      new.place < new.place + new.bytes.length :=
    ⟨rfl, le_refl _, by rw [hsize]; exact Nat.lt_add_of_pos_right hlen.1⟩
  have hmem : new ∈ s.hist.reserved ++ [new] := List.mem_append_right _ (List.mem_singleton_self _)
  have h3 := h2.step (PsmAct.write new.place b) trivial (.write _ _ rfl ⟨new, hmem, hin⟩)
  have hwrite : new.write new.place b = { new with bytes := new.bytes.set 0 b } := by
    rw [Slot.write, if_pos hin, Nat.sub_self]
  refine ⟨new.write new.place b, ?_, ?_, ?_, ?_⟩
  · rw [← hplace, ← hneed]
    have hmap : (s.hist.reserved ++ [new]).map (Slot.write new.place b) =
        [new.write new.place b] := by
      rw [hres]
      rfl
    rw [← hmap]
    exact h3
  · rw [hwrite]
    rfl
  · rw [hwrite, List.length_set]
    exact hsize
  · have hpos' : 0 < new.bytes.length := by
      rw [hsize]
      exact hlen.1
    rw [hwrite]
    simp [List.getD, hpos']

/-- **`psm_push`** behind padding: the spin loop reads the tail once, and the bytes go to the front of
    the buffer. -/
theorem runs_pushed {src : List ℕ} (h : Runs Psm.Step Psm.Proper s0 s) (hp : s.producer = .idle)
    (hproper : s.Proper (.push src)) (hno : ¬ s.HasSpace src.length)
    (hsp : s.needed src.length ≤ (s.tail + psmLogSizeB - s.localHead - 1) % psmLogSizeB)
    (ht : s.Truncated src.length) (hin : src.length ≤ s.localHead) (hd : ∀ t, s.mem.Drained t) :
    ∃ m : PsmMemory, Runs Psm.Step Psm.Proper s0 { s with
        mem := m
        localHead := (s.localHead + s.needed src.length) % psmLogSizeB
        localTail := s.tail
        producer := .idle
        hist := { s.hist with
          localHeadPos := s.hist.localHeadPos + s.needed src.length
          localTailPos := s.hist.tailPos
          reserved := s.hist.reserved ++ [s.newSlot src.length (some src)] } } ∧
      (∀ t, m.Drained t) ∧ m.cache (.buf s.localHead) = 0 ∧
      (∀ j < src.length, m.cache (.buf j) = src.getD j 0) ∧ m.pm .tail = s.mem.pm .tail := by
  have h1 := h.step (PsmAct.push src) hproper (.push src hp)
  have h2 := h1.step PsmAct.producer trivial (.spin rfl hno)
  have h3 := h2.step PsmAct.producer trivial (.pad rfl hsp ht)
  have h4 := h3.step PsmAct.producer trivial (.flushPad rfl)
  have h5 := h4.step (PsmAct.evict (.buf (s.localHead / 64))) trivial (.evict _)
  obtain ⟨hd', hcache, -, hrest⟩ := settled hd .producer (.buf s.localHead) 0
  obtain ⟨m, h6, hdm, hnew, hold, -, htail⟩ := @runs_copying _ s0 0 0 src.length src h5
    (congrArg (fun p => Producer.copying p src 0) (if_pos ht)) (Nat.zero_add _) hd'
  refine ⟨m, h6, hdm, ?_, fun j hj => ?_, htail.trans (hrest .tail nofun)⟩
  · rw [hold _ fun j _ hj he => by
      have := PsmCell.buf.inj he
      omega]
    exact Function.update_self _ _ _
  · rw [← hnew j (Nat.zero_le j) hj, Nat.zero_add]

end Witness

/-- **One entry of `len` bytes has come through a new log**, and both sides are at rest. The
    foreground has not looked at the tail since. -/
structure OneEntry (s : Psm) (len : ℕ) : Prop where
  producer : s.producer = .idle
  consumer : s.consumer = .idle
  drained : ∀ t, s.mem.Drained t
  reserved : s.hist.reserved = []
  committed : s.hist.committed = []
  passing : s.hist.passing = []
  passed : s.hist.passed.length = 1
  called : s.hist.called.length = 1
  localTail : s.localTail = 0
  localHead : s.localHead = alignToCacheLineSize len
  head : s.head = alignToCacheLineSize len
  consumerTail : s.consumerTail = alignToCacheLineSize len
  tail : s.tail = alignToCacheLineSize len
  pmTail : s.mem.pm .tail = alignToCacheLineSize len

/-- **There is such a run**: the entry is reserved, written, committed and consumed, and the tail
    passes it. -/
theorem runs_oneEntry {len : ℕ} (hlen : ProperLen len) :
    ∃ s, Runs Psm.Step Psm.Proper Psm.start s ∧ s.OneEntry len := by
  have hpos := hlen.align_pos
  have hle := hlen.align_le
  have hmod := align_mod len
  have hsize : psmLogSizeB = 2 ^ 20 := rfl
  have hlocal : (0 + alignToCacheLineSize len) % psmLogSizeB = alignToCacheLineSize len := by
    rw [Nat.zero_add]
    exact Nat.mod_eq_of_lt (by omega)
  have hnot : ¬ Psm.start.Truncated len := by
    show ¬ psmLogSizeB < 0 + alignToCacheLineSize len
    omega
  have hspace : Psm.start.HasSpace len := by
    rw [HasSpace, needed, if_neg hnot]
    show alignToCacheLineSize len ≤ (0 + psmLogSizeB - 0 - 1) % psmLogSizeB
    rw [hsize] at hle ⊢
    omega
  obtain ⟨slot, h1, hpushed, hbytes, hfirst⟩ := runs_reserved (b := 7)
    (.start : Runs Psm.Step Psm.Proper Psm.start _) rfl hlen hspace hnot rfl
  have h2 := h1.step (PsmAct.commit false)
    (fun x hx => by
      rw [List.mem_singleton.mp hx, hfirst]
      exact ⟨by decide, fun hf => absurd hf (by decide)⟩)
    (.commit false rfl (by
      show (0 + alignToCacheLineSize len) % psmLogSizeB ≠ 0
      omega))
  obtain ⟨m1, h3, hd1, hcache1, -⟩ := runs_flushLoop (x := 0) (n := alignToCacheLineSize len / 64)
    h2 rfl
    (by
      show (0 + alignToCacheLineSize len) % psmLogSizeB = _
      rw [Nat.mul_div_cancel' (Nat.dvd_of_mod_eq_zero hmod)])
    (by omega) (fun t => rfl)
  obtain ⟨m2, h4, hd2, hcache2, -⟩ := runs_updateHead h3 rfl hd1
  have hbyte : m2.cache (.buf 0) = 7 := by
    rw [hcache2, hcache1]
    rfl
  have hcons : consume (fun i => m2.cache (.buf i)) (fun _ => len)
      ((0 + alignToCacheLineSize len) % psmLogSizeB) 2 0 = .entry 0 (alignToCacheLineSize len) := by
    rw [hlocal, consume, if_neg (by omega), hbyte, if_neg (by decide), if_neg (by decide),
      if_pos (by omega), hlocal]
  obtain ⟨m3, h5, hd3, -, -, htail3⟩ := runs_consumed h4 rfl hcons
    (fun x hx => by
      cases hx
      rw [hbytes]) hd2
  exact ⟨_, h5, {
    producer := rfl
    consumer := rfl
    drained := hd3
    reserved := rfl
    committed := rfl
    passing := rfl
    passed := rfl
    called := rfl
    localTail := rfl
    localHead := hlocal
    head := hlocal
    consumerTail := rfl
    tail := rfl
    pmTail := htail3 }⟩

/-- An entry of all lines but one has come through, and 65 bytes are pushed: they do not fit behind
    it. The last line is skipped, and the background is calling the callback on them at the front. -/
theorem runs_wrapping : ∃ s, Runs Psm.Step Psm.Proper Psm.start s ∧ s.hist.entries.length = 2 ∧
    s.hist.called.length = 2 ∧ (∃ slot ∈ s.hist.entries, slot.start ≠ slot.pos) ∧
    s.mem.pm .head = 128 ∧ s.mem.pm .tail = psmLogSizeB - 64 := by
  have hlen : ProperLen (psmLogSizeB - 64) := ⟨by decide, le_refl _⟩
  obtain ⟨s, h0, hone⟩ := runs_oneEntry hlen
  have halign : alignToCacheLineSize (psmLogSizeB - 64) = psmLogSizeB - 64 := by decide
  have hlocal : s.localHead = psmLogSizeB - 64 := hone.localHead.trans halign
  let src : List ℕ := List.replicate 65 9
  have ht : s.Truncated src.length := by
    rw [Truncated, hlocal]
    decide
  have hneed : s.needed src.length = 192 := by
    rw [needed, if_pos ht, hlocal]
    decide
  have hno : ¬ s.HasSpace src.length := by
    rw [HasSpace, hneed, hlocal, hone.localTail]
    decide
  have hproper : s.Proper (.push src) := ⟨⟨by decide, by decide⟩, by decide⟩
  obtain ⟨m1, h1, hd1, hpad, hnew, htail1⟩ := runs_pushed h0 hone.producer hproper hno
    (by
      rw [hneed, hlocal, hone.tail, halign]
      decide) ht
    (by
      rw [hlocal]
      decide) hone.drained
  have hwrap : (s.localHead + s.needed src.length) % psmLogSizeB = 128 := by
    rw [hneed, hlocal]
    decide
  rw [hwrap, hone.reserved, List.nil_append] at h1
  have h2 := h1.step (PsmAct.commit true)
    (fun x hx => by
      rw [List.mem_singleton.mp hx]
      exact ⟨show src.getD 0 0 ≠ 0 by decide, fun _ => rfl⟩)
    (.commit true rfl (by
      show 128 ≠ s.head
      rw [hone.head, halign]
      decide))
  obtain ⟨m2, h3, -, hcache2, hhead2, htail2⟩ := runs_updateHead h2 rfl hd1
  rw [hone.committed, List.nil_append] at h3
  have h4 := h3.step PsmAct.consumer trivial (.load hone.consumer)
  have hcall : consume (fun i => m2.cache (.buf i)) (fun _ => 65) 128 2 s.consumerTail =
      .entry 0 128 := by
    have hzero : m2.cache (.buf (psmLogSizeB - 64)) = 0 := by
      rw [hcache2, ← hlocal]
      exact hpad
    have hnine : m2.cache (.buf 0) = 9 := by
      rw [hcache2]
      exact hnew 0 (by decide)
    rw [hone.consumerTail, halign, consume, if_neg (by decide), hzero, if_pos rfl,
      if_pos (by decide), consume, if_neg (by decide), hnine, if_neg (by decide), if_neg (by decide), if_pos (by decide)]
    decide
  have h5 := h4.step (PsmAct.call 65) (fun x hx => by cases hx; rfl) (.call 65 rfl hcall)
  refine ⟨_, h5, ?_, ?_, ⟨s.newSlot src.length (some src), ?_, ?_⟩, hhead2, ?_⟩
  · simp [History.entries, History.call, hone.passed, hone.passing]
  · simp [History.call, hone.called]
  · simp [History.entries, History.call]
  · have hbehind : (s.newSlot src.length (some src)).pos =
        s.hist.localHeadPos + (psmLogSizeB - s.localHead) := if_pos ht
    rw [hbehind, hlocal]
    exact (Nat.lt_add_of_pos_right (by decide)).ne
  · exact htail2.trans (htail1.trans (hone.pmTail.trans halign))

theorem fifo_wrapping : ∃ s : Psm, s.hist.entries.length = 2 ∧ s.hist.called.length = 2 ∧
    (∃ slot ∈ s.hist.entries, slot.start ≠ slot.pos) ∧ s.Fifo := by
  obtain ⟨s, hrun, h1, h2, h3, -⟩ := runs_wrapping
  exact ⟨s, h1, h2, h3, log_is_fifo hrun⟩

theorem replayable_wrapping : ∃ s : Psm, (∃ slot ∈ s.hist.entries, slot.start ≠ slot.pos) ∧
    s.mem.pm .head = 128 ∧ s.mem.pm .tail = psmLogSizeB - 64 ∧ s.Replayable := by
  obtain ⟨s, hrun, -, -, h1, h2, h3⟩ := runs_wrapping
  exact ⟨s, h1, h2, h3, log_is_replayable hrun⟩

end Psm

end Persimmon
