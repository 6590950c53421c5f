/-
  File:      Persimmon/CommandLogReplay.lean
  Subject:   THE FOREGROUND AND THE BACKGROUND REPLAY THE COMMAND LOG SIDE BY SIDE after a crash
             (src/fg.cc: `psm_init`; src/bg.cc: `bg_run`, `run_consumer`; src/undo/instrument.cc:
             `dr_client_main`; src/undo/undo_fg.cc: `undo_recover_foreground`).

  The tail both begin at is the commit record's or the one in `psm_log`. The background hands it to
  the foreground through a pipe, as an `int`, and publishes it by `update_tail`, as a `size_t`, before
  `run_consumer` loads it.

  * `Crash`, `Crash.Wf` -- what a crash leaves of the log, and what `undo_log_recover` returns;
    `crash_of_inv` -- every crash of the two processes is of this kind;
  * `Crash.recover`, `Recovered.Step` -- both processes behind the hand-shake, statement by
    statement; the foreground goes on to the application when its loop has ended;
  * `Recovered.Inv`, `inv_recovered` -- the invariant; the log's own invariant is part of it;
  * `Recovered.Agrees`, `replay_agrees` -- both call their callback on the same entries, and what a
    deterministic callback makes of them is the same.
-/
import Mathlib.Data.List.GetD
import Persimmon.CommandLogSafety

namespace Persimmon

open PersistentMemory Transition

/-! ## 1. What a crash leaves -/

/-- **A crash**: persistent memory, and what `undo_log_recover` returns (`none` for -1). The rest is for
    the statements only: the positions the tail, the recovered tail and the head stand for, and the
    slots between them. -/
structure Crash where
  pm : PsmCell → ℕ
  ret : Option ℕ
  tailPos : ℕ
  recPos : ℕ
  headPos : ℕ
  passing : List Slot
  committed : List Slot

namespace Crash

def buf (c : Crash) : ℕ → ℕ := fun i => c.pm (.buf i)

/-- **The crashes considered**: between tail and head lie entries that were reserved and committed,
    none begins with a NUL byte; the tail of a commit record is between them, behind an entry. -/
structure Wf (c : Crash) : Prop where
  passing : Chain c.tailPos c.passing c.recPos
  committed : Chain c.recPos c.committed c.headPos
  aligned : c.tailPos % 64 = 0
  room : c.headPos + 64 ≤ c.tailPos + psmLogSizeB
  tail : c.pm .tail = c.tailPos % psmLogSizeB
  head : c.pm .head = c.headPos % psmLogSizeB
  ret : c.ret = some (c.recPos % psmLogSizeB) ∨ c.ret = none ∧ c.recPos = c.tailPos
  holds : ∀ slot ∈ c.passing ++ c.committed, slot.Holds c.buf ∧ slot.bytes.getD 0 0 ≠ 0

/-- `instrument_args.recovered_tail`, an `int`: `bg_run` loads it from the log, and `dr_client_main`
    overwrites it unless `undo_log_recover` has returned -1. -/
def recoveredTail (c : Crash) : ℤ :=
  let ret : ℤ :=
    match c.ret with
    | some t => toInt t
    | none => -1
  if ret ≠ -1 then ret else toInt (c.pm .tail)

/-- The calls made before the crash on the entries the recovered tail has passed. -/
def calls (c : Crash) : List Call :=
  c.passing.map fun slot => ⟨slot.place, fun i => c.buf (slot.place + i)⟩

/-- The two processes behind the hand-shake; the background is in `update_tail`. -/
def psm (c : Crash) : Psm where
  mem := Memory.start c.pm
  head := c.pm .head
  tail := c.pm .tail
  localHead := c.pm .head
  localTail := c.pm .tail
  consumerTail := toSizeT c.recoveredTail
  producer := .idle
  consumer := .storingTail
  hist := ⟨c.tailPos, c.recPos, c.headPos, c.headPos, c.tailPos, [], c.passing, c.committed, [],
    c.calls⟩

end Crash

/-! ## 2. The processes behind the hand-shake -/

/-- Where the foreground stands in `psm_init`. -/
inductive Foreground where
  /-- `undo_recover_foreground` has returned. -/
  | recovering (tail : ℤ)
  /-- The replay loop. -/
  | replaying (head : ℕ) (tail : ℤ)
  /-- `psm_init` has returned; the loop had come to `tail`. -/
  | done (head : ℕ) (tail : ℤ)
  deriving DecidableEq, Repr

/-- Both processes. `todo` is for the statements only: the entries still to be replayed. -/
structure Recovered where
  psm : Psm
  /-- The tail `run_consumer` has loaded. -/
  bgTail : Option ℕ
  /-- What the foreground has read from the pipe. -/
  fgTail : ℤ
  fg : Foreground
  /-- The calls of the foreground's callback. -/
  replayed : List Call
  todo : List Slot

/-- **The hand-shake**: no result when the assertion on the tail fails. -/
def Crash.recover (c : Crash) : Option Recovered :=
  if 0 ≤ c.recoveredTail then
    some ⟨c.psm, none, c.recoveredTail, .recovering c.recoveredTail, [], c.committed⟩
  else none

inductive RecAct where
  | psm (a : PsmAct)
  | runConsumer
  | loadHead
  | replay (len : ℕ)
  deriving DecidableEq, Repr

namespace Recovered

/-- What may happen: the application runs behind `psm_init`, the consumer's loop behind the load of
    its tail. -/
def Allows (r : Recovered) : PsmAct → Prop
  | .call _ | .consumer => r.bgTail = none → r.psm.consumer ≠ .idle
  | .evict _ => True
  | _ => ∃ head tail, r.fg = .done head tail

/-- `while ((tail = consume(..)) != -1)`, for the value `consume` returns. -/
def next (head : ℕ) (tail : ℤ) (value : ℕ) : Foreground :=
  if toInt value ≠ -1 then .replaying head (toInt value) else .done head tail

/-- **One step** of either process, or of the hardware. -/
inductive Step : Recovered → RecAct → Recovered → Prop where
  | psm {r : Recovered} {s : Psm} (a : PsmAct) (h : r.Allows a) (hs : r.psm.Step a s) :
      Step r (.psm a) { r with psm := s }
  | runConsumer {r : Recovered} (h : r.bgTail = none) (hc : r.psm.consumer = .idle) :
      Step r .runConsumer { r with
        bgTail := some r.psm.tail
        psm := { r.psm with consumerTail := r.psm.tail } }
  | loadHead {r : Recovered} {tail : ℤ} (h : r.fg = .recovering tail) :
      Step r .loadHead { r with fg := .replaying r.psm.head tail }
  | replay {r : Recovered} {head place newTail : ℕ} {tail : ℤ} (len : ℕ)
      (h : r.fg = .replaying head tail)
      (hc : consume r.psm.buf (fun _ => len) head 2 (toSizeT tail) = .entry place newTail) :
      Step r (.replay len) { r with
        fg := next head tail newTail
        replayed := r.replayed ++ [⟨place, fun i => r.psm.buf (place + i)⟩]
        todo := r.todo.tail }
  | replayed {r : Recovered} {head : ℕ} {tail : ℤ} (len : ℕ) (h : r.fg = .replaying head tail)
      (hc : consume r.psm.buf (fun _ => len) head 2 (toSizeT tail) = .none) :
      Step r (.replay len) { r with fg := next head tail (2 ^ 64 - 1) }

/-- What the program asks of its callers, and of the foreground's callback. -/
def Proper (r : Recovered) : RecAct → Prop
  | .psm a => r.psm.Proper a
  | .replay len => ∀ slot ∈ r.todo.head?,
      alignToCacheLineSize len = alignToCacheLineSize slot.bytes.length
  | _ => True

/-- The calls of the background's callback since the crash. -/
def bgCalls (c : Crash) (r : Recovered) : List Call := r.psm.hist.called.drop c.passing.length

/-- **Both processes replay the same entries.** -/
structure Agrees (c : Crash) (r : Recovered) : Prop where
  /-- They start from the same tail. -/
  starts : ∀ t, r.bgTail = some t → t = toSizeT r.fgTail
  /-- The foreground has been called on the first entries between the recovered tail and the head. -/
  replays : ∃ done, done <+: c.committed ∧ List.Forall₂ Slot.Met done r.replayed
  /-- So has the background; behind them come the entries committed since. -/
  consumes : ∃ later consumed, r.psm.hist.entries = c.passing ++ (c.committed ++ later) ∧
    c.committed ++ later = consumed ++ r.psm.hist.committed ∧
    List.Forall₂ Slot.Met consumed (r.bgCalls c)
  /-- The loop stops at the head, when every entry has been replayed, and nowhere else; no assertion
      fails. -/
  loops : ∀ head tail len, r.fg = .replaying head tail → r.Proper (.replay len) →
    head = c.pm .head ∧
      (toSizeT tail = head ∧ List.Forall₂ Slot.Met c.committed r.replayed ∧
          consume r.psm.buf (fun _ => len) head 2 (toSizeT tail) = .none ∨
        toSizeT tail ≠ head ∧ r.replayed.length < c.committed.length ∧
          ∃ place newTail, consume r.psm.buf (fun _ => len) head 2 (toSizeT tail) =
            .entry place newTail)
  stops : ∀ head tail, r.fg = .done head tail →
    head = c.pm .head ∧ toSizeT tail = head ∧ List.Forall₂ Slot.Met c.committed r.replayed
  /-- The background finds nothing only when it has passed all these entries as well. -/
  idles : ∀ head len, r.psm.consumer = .loaded head → r.psm.Proper (.call len) →
    consume r.psm.buf (fun _ => len) head 2 r.psm.consumerTail = .none ∧
        c.committed.length ≤ (r.bgCalls c).length ∨
      ∃ place newTail, consume r.psm.buf (fun _ => len) head 2 r.psm.consumerTail =
        .entry place newTail

end Recovered

/-! ## 3. The log right behind the hand-shake -/

/-- What persistent memory holds is stored, right after a start. -/
theorem Slot.Holds.stored {slot : Slot} {pm : PsmCell → ℕ} (h : slot.Holds fun i => pm (.buf i))
    (hok : slot.Ok) (hnul : slot.bytes.getD 0 0 ≠ 0) :
    slot.Stored (Memory.start pm : PsmMemory) where
  cache := by
    refine ⟨h.1, fun j hj => ?_⟩
    show pm (cellAt (slot.pos + j)) = _
    rw [cellAt, hok.place_add hj]
    exact h.2 j hj
  durable := ⟨fun _ => Synced.start _ _, fun _ _ => Synced.start _ _⟩
  nul := hnul

namespace Crash

variable {c : Crash}

theorem Wf.le (h : c.Wf) : c.tailPos ≤ c.recPos ∧ c.recPos ≤ c.headPos ∧
    c.headPos + 64 ≤ c.tailPos + psmLogSizeB := ⟨h.passing.le, h.committed.le, h.room⟩

/-- **Both routes carry the recovered tail**, the commit record's and the one from `psm_log`. -/
theorem Wf.recoveredTail_eq (h : c.Wf) : c.recoveredTail = (c.recPos % psmLogSizeB : ℕ) := by
  have hlt : ∀ x, x % psmLogSizeB < 2 ^ 31 := fun x => by
    unfold psmLogSizeB
    omega
  unfold recoveredTail
  rcases h.ret with hret | ⟨hret, he⟩
  · simp only [hret, toInt_of_lt (hlt _)]
    exact if_pos (by omega)
  · simp only [hret]
    rw [if_neg (not_not.mpr rfl), h.tail, he, toInt_of_lt (hlt _)]

theorem Wf.toSizeT_recoveredTail (h : c.Wf) : toSizeT c.recoveredTail = c.recPos % psmLogSizeB := by
  rw [h.recoveredTail_eq, toSizeT_of_lt]
  unfold psmLogSizeB
  omega

theorem Wf.slot_ok (h : c.Wf) {slot : Slot} (hs : slot ∈ c.passing ++ c.committed) : slot.Ok :=
  ((h.passing.append h.committed).mem hs).1

/-- **The log's invariant holds behind the hand-shake.** -/
theorem Wf.inv (h : c.Wf) : c.psm.Inv where
  pos := ⟨h.passing, h.committed, .nil _, h.aligned, h.aligned, le_refl _, h.room, h.head, h.tail, h.head,
    h.tail, h.toSizeT_recoveredTail⟩
  stored slot hs := (h.holds slot hs).1.stored (h.slot_ok hs) (h.holds slot hs).2
  met := by
    refine List.forall₂_map_right_iff.mpr (List.forall₂_same.mpr fun slot hs => ?_)
    have hin : slot ∈ c.passing ++ c.committed := List.mem_append_left _ hs
    exact (h.holds slot hin).1.met (h.slot_ok hin)
  reserved := fun _ hs => absurd hs List.not_mem_nil
  head := ⟨h.head, h.head⟩
  tail := ⟨h.tail, h.tail⟩
  consumed := trivial

/-- **A crash of the two processes leaves such a log**, without a commit record, or with one of the tail
    the background has consumed to. -/
theorem crash_of_inv {s : Psm} (h : s.Inv) {ret : Option ℕ}
    (hret : ret = none ∨ ret = some s.consumerTail) :
    ∃ c : Crash, c.pm = s.mem.pm ∧ c.ret = ret ∧ c.Wf := by
  obtain ⟨p, q, passing, reserved, -, -, hp, hq, hpc, hqc, hroom, hholds⟩ := h.pm_log
  have hmod : p % 64 = 0 := hpc.mod_left (h.pos.passing.mod h.pos.aligned)
  rcases hret with rfl | rfl
  · exact ⟨⟨s.mem.pm, none, p, p, q, [], passing ++ (s.hist.committed ++ reserved)⟩, rfl, rfl,
      .nil _, hpc.append hqc, hmod, hroom, hp, hq, Or.inr ⟨rfl, rfl⟩, hholds⟩
  · exact ⟨⟨s.mem.pm, some s.consumerTail, p, s.hist.consumedPos, q, passing,
      s.hist.committed ++ reserved⟩, rfl, rfl, hpc, hqc, hmod, hroom, hp, hq,
      Or.inl (congrArg some h.pos.consumerTail), hholds⟩

end Crash

/-! ## 4. The invariant -/

namespace Recovered

variable {c : Crash} {r r' : Recovered}

/-- Nothing has been pushed yet, and the buffer is what the crash left. -/
structure Untouched (c : Crash) (s : Psm) : Prop where
  producer : s.producer = .idle
  head : s.head = c.headPos % psmLogSizeB
  buf : s.buf = c.buf

/-- The foreground, by the place in `psm_init`. -/
def FgInv (c : Crash) (r : Recovered) : Prop :=
  match r.fg with
  | .recovering tail => Untouched c r.psm ∧ tail = r.fgTail ∧ r.replayed = [] ∧ r.todo = c.committed
  | .replaying head tail => Untouched c r.psm ∧ head = c.headPos % psmLogSizeB ∧ ∃ done x,
      c.committed = done ++ r.todo ∧ List.Forall₂ Slot.Met done r.replayed ∧
        Chain c.recPos done x ∧ Chain x r.todo c.headPos ∧ tail = (x % psmLogSizeB : ℕ)
  | .done head tail => head = c.headPos % psmLogSizeB ∧ tail = (c.headPos % psmLogSizeB : ℕ) ∧
      List.Forall₂ Slot.Met c.committed r.replayed

/-- The background, before and behind the load of its tail. -/
def BgInv (c : Crash) (r : Recovered) : Prop :=
  match r.bgTail with
  | none => r.psm.hist.consumedPos = c.recPos ∧ ∀ head, r.psm.consumer ≠ .loaded head
  | some t => t = c.recPos % psmLogSizeB

/-- A head the background has loaded lies behind the entries the crash left. -/
def LoadedInv (c : Crash) (s : Psm) : Prop :=
  ∀ head, s.consumer = .loaded head → ∃ l l' q, s.hist.committed = l ++ l' ∧
    Chain s.hist.consumedPos l q ∧ head = q % psmLogSizeB ∧
    c.passing ++ c.committed <+: s.hist.passed ++ s.hist.passing ++ l

/-- **The invariant.** -/
structure Inv (c : Crash) (r : Recovered) : Prop where
  psm : r.psm.Inv
  fgTail : r.fgTail = (c.recPos % psmLogSizeB : ℕ)
  fg : r.FgInv c
  bg : r.BgInv c
  loaded : LoadedInv c r.psm
  entries : c.passing ++ c.committed <+: r.psm.hist.entries
  passed : c.passing <+: r.psm.hist.passed ++ r.psm.hist.passing

/-- What has been passed stays so. -/
theorem passed_step {s s' : Psm} {a : PsmAct} (hs : s.Step a s') :
    s.hist.passed ++ s.hist.passing <+: s'.hist.passed ++ s'.hist.passing := by
  cases hs with
  | call len hc he =>
      unfold History.call
      split
      · exact List.prefix_rfl
      · simp only [← List.append_assoc]
        exact List.prefix_append _ _
  | publishTail hc => simp
  | _ => exact List.prefix_rfl

theorem entries_grow {s s' : Psm} {a : PsmAct} (hs : s.Step a s') :
    s.hist.entries <+: s'.hist.entries := by
  rcases Psm.entries_step hs with he | ⟨-, he⟩
  · exact ⟨[], by rw [he, List.append_nil]⟩
  · rw [he]
    exact List.prefix_append _ _

/-- Until `run_consumer` has loaded its tail nothing is consumed. -/
theorem bg_step {s : Psm} {a : PsmAct} (h : r.BgInv c) (ha : r.Allows a) (hs : r.psm.Step a s) :
    BgInv c { r with psm := s } := by
  unfold BgInv at h ⊢
  cases hb : r.bgTail with
  | some t =>
      simp only [hb] at h ⊢
      exact h
  | none =>
      simp only [hb] at h ⊢
      obtain ⟨hpos, hload⟩ := h
      cases hs with
      | load hc => exact absurd hc (ha hb)
      | callNothing len hc he => exact absurd hc (hload _)
      | call len hc he => exact absurd hc (hload _)
      | storeTail hc => exact ⟨hpos, nofun⟩
      | flushTail hc => exact ⟨hpos, nofun⟩
      | drainTail hc hd => exact ⟨hpos, nofun⟩
      | publishTail hc => exact ⟨hpos, nofun⟩
      | _ => exact ⟨hpos, hload⟩

theorem loaded_step {s : Psm} {a : PsmAct} (h : r.Inv c) (hs : r.psm.Step a s) : LoadedInv c s := by
  have hl := h.loaded
  cases hs with
  | load hc =>
      intro head he
      have heq : r.psm.head = head := Consumer.loaded.inj he
      exact ⟨r.psm.hist.committed, [], r.psm.hist.headPos, (List.append_nil _).symm,
        h.psm.pos.committed, heq ▸ h.psm.pos.head, h.entries⟩
  | publishHead hp =>
      intro head he
      obtain ⟨l, l', q, hsplit, hrest⟩ := hl head he
      refine ⟨l, l' ++ r.psm.hist.reserved, q, ?_, hrest⟩
      show r.psm.hist.committed ++ r.psm.hist.reserved = _
      rw [hsplit, List.append_assoc]
  | callNothing len hc he => exact nofun
  | call len hc he => exact nofun
  | storeTail hc => exact nofun
  | flushTail hc => exact nofun
  | drainTail hc hd => exact nofun
  | publishTail hc => exact nofun
  | _ => exact hl

/-- **The background does not touch the buffer**, nor the head. -/
theorem untouched_step {s : Psm} {a : PsmAct} (h : Untouched c r.psm) (ha : r.Allows a)
    (hfg : ∀ head tail, r.fg ≠ .done head tail) (hs : r.psm.Step a s) : Untouched c s := by
  have happ : ¬ ∃ head tail, r.fg = .done head tail := fun ⟨_, _, hd⟩ => hfg _ _ hd
  cases hs with
  | load hc => exact ⟨h.producer, h.head, h.buf⟩
  | callNothing len hc he => exact ⟨h.producer, h.head, h.buf⟩
  | call len hc he => exact ⟨h.producer, h.head, h.buf⟩
  | storeTail hc =>
      refine ⟨h.producer, h.head, ?_⟩
      rw [← h.buf]
      refine funext fun i => ?_
      show Function.update r.psm.mem.cache .tail r.psm.consumerTail (.buf i) = r.psm.mem.cache (.buf i)
      exact Function.update_of_ne (fun he => PsmCell.noConfusion he) _ _
  | flushTail hc => exact ⟨h.producer, h.head, h.buf⟩
  | drainTail hc hd => exact ⟨h.producer, h.head, h.buf⟩
  | publishTail hc => exact ⟨h.producer, h.head, h.buf⟩
  | evict l => exact ⟨h.producer, h.head, h.buf⟩
  | _ => exact absurd ha happ

/-- **What `consume` comes to in the replay loop**: nothing when everything is replayed, else the next
    entry. -/
theorem consume_todo (hc : c.Wf) {done todo : List Slot} {x len : ℕ}
    (hsplit : c.committed = done ++ todo) (hdone : Chain c.recPos done x)
    (htodo : Chain x todo c.headPos)
    (hlen : ∀ slot ∈ todo.head?, alignToCacheLineSize len = alignToCacheLineSize slot.bytes.length) :
    todo = [] ∧ x = c.headPos ∧ consume c.buf (fun _ => len) (c.headPos % psmLogSizeB) 2
        (x % psmLogSizeB) = .none ∨
      ∃ slot rest, todo = slot :: rest ∧ x % psmLogSizeB ≠ c.headPos % psmLogSizeB ∧
        consume c.buf (fun _ => len) (c.headPos % psmLogSizeB) 2 (x % psmLogSizeB) =
          .entry slot.place (slot.stop % psmLogSizeB) ∧
        slot.Met ⟨slot.place, fun i => c.buf (slot.place + i)⟩ ∧
        Chain c.recPos (done ++ [slot]) slot.stop ∧ Chain slot.stop rest c.headPos := by
  have hle := hc.le
  have hdle := hdone.le
  cases htodo with
  | nil p => exact Or.inl ⟨rfl, rfl, consume_empty _ _ _⟩
  | @cons p q slot rest hp hok hrest =>
      right
      have hin : slot ∈ c.passing ++ c.committed := by
        rw [hsplit]
        simp
      obtain ⟨hholds, hnul⟩ := hc.holds slot hin
      have hrle := hrest.le
      have hstart := hok.start_le
      have hpos := hok.pos_lt
      subst hp
      refine ⟨slot, rest, rfl, fun e => ?_, consume_slot hok hholds hnul (hlen slot rfl) hrle (by omega),
        hholds.met hok, hdone.append (Chain.single hok), hrest⟩
      have := place_inj (show c.tailPos ≤ slot.start ∧ _ from ⟨by omega, by omega⟩)
        ⟨by omega, by omega⟩ e
      omega

theorem toInt_place (x : ℕ) : toInt (x % psmLogSizeB : ℕ) = (x % psmLogSizeB : ℕ) :=
  toInt_of_lt (by unfold psmLogSizeB; omega)

theorem toSizeT_place (x : ℕ) : toSizeT (x % psmLogSizeB : ℕ) = x % psmLogSizeB :=
  toSizeT_of_lt (by unfold psmLogSizeB; omega)

/-- The loop goes on at the place `consume` returns. -/
theorem next_place (head x : ℕ) (tail : ℤ) :
    next head tail (x % psmLogSizeB) = .replaying head (x % psmLogSizeB : ℕ) := by
  unfold next
  rw [toInt_place]
  exact if_pos (by omega)

/-- It stops at the -1. -/
theorem next_end (head : ℕ) (tail : ℤ) : next head tail (2 ^ 64 - 1) = .done head tail := if_neg (by decide)

/-- The load of `run_consumer` changes nothing: `update_tail` has published the tail. -/
theorem runConsumer_eq {s : Psm} (h : s.Inv) (hc : s.consumer = .idle) : s.tail = s.consumerTail := by
  have hcons := h.consumed
  simp only [Psm.ConsumedInv, hc] at hcons
  have hchain := h.pos.passing
  rw [hcons] at hchain
  rw [h.pos.tail, h.pos.consumerTail, hchain.unique (.nil _)]

/-- **A step of the log's processes keeps the invariant.** -/
theorem inv_psm {s : Psm} {a : PsmAct} (h : r.Inv c) (ha : r.Allows a) (hok : r.psm.Proper a)
    (hs : r.psm.Step a s) : Inv c { r with psm := s } where
  psm := Psm.inv_step h.psm hok hs
  fgTail := h.fgTail
  bg := bg_step h.bg ha hs
  loaded := loaded_step h hs
  entries := h.entries.trans (entries_grow hs)
  passed := h.passed.trans (passed_step hs)
  fg := by
    have hfg := h.fg
    unfold FgInv at hfg ⊢
    cases hf : r.fg with
    | recovering tail =>
        simp only [hf] at hfg ⊢
        exact ⟨untouched_step hfg.1 ha (by rw [hf]; exact nofun) hs, hfg.2⟩
    | replaying head tail =>
        simp only [hf] at hfg ⊢
        exact ⟨untouched_step hfg.1 ha (by rw [hf]; exact nofun) hs, hfg.2⟩
    | done head tail =>
        simp only [hf] at hfg ⊢
        exact hfg

/-- **A pass of the replay loop keeps the invariant.** -/
theorem fg_replay (hc : c.Wf) {head len : ℕ} {tail : ℤ} (h : r.FgInv c)
    (hf : r.fg = .replaying head tail) (hok : r.Proper (.replay len)) :
    head = c.headPos % psmLogSizeB ∧
      (toSizeT tail = head ∧ List.Forall₂ Slot.Met c.committed r.replayed ∧
          consume r.psm.buf (fun _ => len) head 2 (toSizeT tail) = .none ∧
          tail = (c.headPos % psmLogSizeB : ℕ) ∨
        toSizeT tail ≠ head ∧ r.replayed.length < c.committed.length ∧ ∃ slot rest,
          consume r.psm.buf (fun _ => len) head 2 (toSizeT tail) =
            .entry slot.place (slot.stop % psmLogSizeB) ∧
          FgInv c { r with
            fg := .replaying head (slot.stop % psmLogSizeB : ℕ)
            replayed := r.replayed ++ [⟨slot.place, fun i => r.psm.buf (slot.place + i)⟩]
            todo := rest } ∧ r.todo = slot :: rest) := by
  simp only [FgInv, hf] at h
  obtain ⟨hunt, rfl, done, x, hsplit, hmet, hdone, htodo, rfl⟩ := h
  rw [toSizeT_place, hunt.buf]
  refine ⟨rfl, ?_⟩
  rcases consume_todo hc hsplit hdone htodo hok with
    ⟨hnil, rfl, he⟩ | ⟨slot, rest, htod, hne, he, hm, hdone', hrest⟩
  · refine Or.inl ⟨rfl, ?_, he, rfl⟩
    rw [hsplit, hnil, List.append_nil]
    exact hmet
  · refine Or.inr ⟨hne, ?_, slot, rest, he, ?_, htod⟩
    · rw [← hmet.length_eq, hsplit, htod, List.length_append, List.length_cons]
      omega
    · exact ⟨hunt, rfl, done ++ [slot], slot.stop, by rw [hsplit, htod, List.append_assoc]; rfl,
        List.rel_append hmet (.cons hm .nil), hdone', hrest, rfl⟩

/-- **Every step keeps the invariant.** -/
theorem inv_recovered {a : RecAct} (hc : c.Wf) (h : r.Inv c) (hok : r.Proper a) (hs : r.Step a r') :
    r'.Inv c := by
  have hfg := h.fg
  cases hs with
  | psm a ha hs => exact inv_psm h ha hok hs
  | runConsumer hb hidle =>
      have htail := runConsumer_eq h.psm hidle
      have hbg := h.bg
      simp only [BgInv, hb] at hbg
      refine ⟨?_, h.fgTail, ?_, ?_, h.loaded, h.entries, h.passed⟩
      · rw [htail]
        exact h.psm
      · rw [htail]
        exact hfg
      · show r.psm.tail = c.recPos % psmLogSizeB
        rw [htail, h.psm.pos.consumerTail, hbg.1]
  | loadHead hf =>
      simp only [FgInv, hf] at hfg
      obtain ⟨hunt, rfl, hrep, htodo⟩ := hfg
      refine ⟨h.psm, h.fgTail, ⟨hunt, hunt.head, [], c.recPos, ?_, ?_, .nil _, ?_, h.fgTail⟩, h.bg,
        h.loaded, h.entries, h.passed⟩
      · exact htodo.symm
      · show List.Forall₂ Slot.Met [] r.replayed
        rw [hrep]
        exact .nil
      · show Chain c.recPos r.todo c.headPos
        rw [htodo]
        exact hc.committed
  | replay len hf he =>
      obtain ⟨-, ⟨-, -, hnone, -⟩ | ⟨-, -, slot, rest, hent, hnew, htodo⟩⟩ := fg_replay hc hfg hf hok
      · rw [hnone] at he
        cases he
      · rw [hent, Consumed.entry.injEq] at he
        obtain ⟨rfl, rfl⟩ := he
        rw [next_place, htodo]
        exact ⟨h.psm, h.fgTail, hnew, h.bg, h.loaded, h.entries, h.passed⟩
  | replayed len hf he =>
      obtain ⟨hhead, ⟨-, hmet, -, htail⟩ | ⟨-, -, slot, rest, hent, -, -⟩⟩ := fg_replay hc hfg hf hok
      · rw [next_end]
        exact ⟨h.psm, h.fgTail, ⟨hhead, htail, hmet⟩, h.bg, h.loaded, h.entries, h.passed⟩
      · rw [hent] at he
        cases he

/-! ## 5. Both replay the same -/

/-- The calls before the crash come first: what is left are those on the entries behind them. -/
theorem consumes_of_inv (h : r.Inv c) : ∃ later consumed,
    r.psm.hist.entries = c.passing ++ (c.committed ++ later) ∧
      c.committed ++ later = consumed ++ r.psm.hist.committed ∧
      List.Forall₂ Slot.Met consumed (r.bgCalls c) := by
  obtain ⟨consumed, hconsumed⟩ := h.passed
  obtain ⟨later, hlater⟩ := h.entries
  have hall : c.passing ++ (c.committed ++ later) =
      c.passing ++ (consumed ++ r.psm.hist.committed) := by
    rw [← List.append_assoc, hlater, ← List.append_assoc, hconsumed]
    rfl
  have hmet := h.psm.met
  rw [← hconsumed] at hmet
  refine ⟨later, consumed, ?_, List.append_cancel_left hall, ?_⟩
  · rw [← hlater, List.append_assoc]
  · have hdrop := List.forall₂_drop c.passing.length hmet
    rwa [List.drop_left] at hdrop

/-- The head the background has loaded is reached: so is the one the crash left. -/
theorem idles_of_inv {head : ℕ} (h : r.Inv c) (hcons : r.psm.consumer = .loaded head)
    (he : head = r.psm.consumerTail) : c.committed.length ≤ (r.bgCalls c).length := by
  obtain ⟨l, l', q, hsplit, hl, rfl, hpre⟩ := h.loaded head hcons
  have hle := h.psm.pos.le
  have hcommitted := h.psm.pos.committed
  rw [hsplit] at hcommitted
  obtain ⟨x, hl', hx⟩ := hcommitted.split
  obtain rfl := hl.unique hl'
  have hq := hl.le
  have hqle := hx.le
  have heq : q = r.psm.hist.consumedPos :=
    place_inj (show r.psm.hist.tailPos ≤ q ∧ _ from ⟨by omega, by omega⟩) ⟨hle.1, by omega⟩
      (he.trans h.psm.pos.consumerTail)
  rw [heq] at hl
  rw [hl.eq_nil, List.append_nil] at hpre
  have hlen := hpre.length_le
  rw [h.psm.met.length_eq, List.length_append] at hlen
  rw [bgCalls, List.length_drop]
  omega

/-- The two processes call the callback on the same entries, the foreground in its replay loop. -/
theorem agrees_of_inv (hc : c.Wf) (h : r.Inv c) : r.Agrees c where
  starts t ht := by
    have hbg := h.bg
    simp only [BgInv, ht] at hbg
    rw [hbg, h.fgTail, toSizeT_place]
  replays := by
    have hfg := h.fg
    unfold FgInv at hfg
    cases hf : r.fg with
    | recovering tail =>
        simp only [hf] at hfg
        rw [hfg.2.2.1]
        exact ⟨[], List.nil_prefix, .nil⟩
    | replaying head tail =>
        simp only [hf] at hfg
        obtain ⟨-, -, done, x, hsplit, hmet, -⟩ := hfg
        exact ⟨done, ⟨r.todo, hsplit.symm⟩, hmet⟩
    | done head tail =>
        simp only [hf] at hfg
        exact ⟨c.committed, List.prefix_rfl, hfg.2.2⟩
  consumes := consumes_of_inv h
  loops head tail len hf hok := by
    obtain ⟨rfl, hcase⟩ := fg_replay hc h.fg hf hok
    refine ⟨hc.head.symm, ?_⟩
    rcases hcase with ⟨he, hmet, hnone, -⟩ | ⟨hne, hlt, slot, rest, hent, -, -⟩
    · exact Or.inl ⟨he, hmet, hnone⟩
    · exact Or.inr ⟨hne, hlt, _, _, hent⟩
  stops head tail hf := by
    have hfg := h.fg
    simp only [FgInv, hf] at hfg
    obtain ⟨rfl, rfl, hmet⟩ := hfg
    exact ⟨hc.head.symm, toSizeT_place _, hmet⟩
  idles head len hcons hok := by
    rcases Psm.consume_loaded h.psm hcons hok with ⟨he, hnone⟩ | ⟨slot, rest, -, -, hent⟩
    · exact Or.inl ⟨hnone, idles_of_inv h hcons he⟩
    · exact Or.inr ⟨_, _, hent⟩

/-- Calls that have met the same entries make the same of a state. -/
theorem foldl_met {σ : Type*} {f : σ → Call → σ} {slots : List Slot} {k k' : List Call}
    (hf : ∀ slot ∈ slots, ∀ st x x', slot.Met x → slot.Met x' → f st x = f st x')
    (h : List.Forall₂ Slot.Met slots k) (h' : List.Forall₂ Slot.Met slots k') (st : σ) :
    k.foldl f st = k'.foldl f st := by
  induction h generalizing k' st with
  | nil =>
      cases h'
      rfl
  | @cons slot x slots k hx _ ih =>
      cases h' with
      | cons hx' hrest =>
          rw [List.foldl_cons, List.foldl_cons, hf slot List.mem_cons_self st _ _ hx hx']
          exact ih (fun s hs => hf s (List.mem_cons_of_mem _ hs)) hrest _

/-- **After the same number of calls both processes are in the same state.** -/
theorem Agrees.foldl_take {σ : Type*} {f : σ → Call → σ} (h : r.Agrees c)
    (hf : ∀ slot ∈ c.committed, ∀ st x x', slot.Met x → slot.Met x' → f st x = f st x') (st : σ)
    {n : ℕ} (hn : n ≤ r.replayed.length) (hn' : n ≤ (r.bgCalls c).length) :
    (r.replayed.take n).foldl f st = ((r.bgCalls c).take n).foldl f st := by
  obtain ⟨done, hpre, hmet⟩ := h.replays
  obtain ⟨later, consumed, -, hall, hmet'⟩ := h.consumes
  rw [← hmet.length_eq] at hn
  rw [← hmet'.length_eq] at hn'
  have hdone : done.take n = c.committed.take n := by
    obtain ⟨rest, hrest⟩ := hpre
    rw [← hrest, List.take_append_of_le_length hn]
  have hconsumed : consumed.take n = c.committed.take n :=
    calc consumed.take n
      _ = (consumed ++ r.psm.hist.committed).take n := (List.take_append_of_le_length hn').symm
      _ = (c.committed ++ later).take n := by rw [hall]
      _ = c.committed.take n := List.take_append_of_le_length (le_trans hn hpre.length_le)
  have hfg := List.forall₂_take n hmet
  have hbg := List.forall₂_take n hmet'
  rw [hdone] at hfg
  rw [hconsumed] at hbg
  exact foldl_met (fun slot hs => hf slot (List.mem_of_mem_take hs)) hfg hbg st

end Recovered

namespace Crash

variable {c : Crash}

/-- **The hand-shake comes about**, and the invariant holds behind it. -/
theorem Wf.recover (hc : c.Wf) : ∃ r, c.recover = some r ∧ r.Inv c := by
  refine ⟨_, if_pos ?_, hc.inv, hc.recoveredTail_eq, ?_, ⟨rfl, nofun⟩, nofun, ?_, List.prefix_rfl⟩
  · rw [hc.recoveredTail_eq]
    omega
  · exact ⟨⟨rfl, hc.head, rfl⟩, rfl, rfl, rfl⟩
  · exact List.prefix_rfl

end Crash

/-- **The foreground and the background recover to the same state**: from every crash, with or without
    a commit record, and in every interleaving behind the hand-shake. -/
theorem replay_agrees {σ : Type*} {c : Crash} (hc : c.Wf) (f : σ → Call → σ)
    (hf : ∀ slot ∈ c.committed, ∀ st x x', slot.Met x → slot.Met x' → f st x = f st x') :
    ∃ start, c.recover = some start ∧ ∀ r, Runs Recovered.Step Recovered.Proper start r →
      r.Agrees c ∧ ∀ st n, n ≤ r.replayed.length → n ≤ (r.bgCalls c).length →
        (r.replayed.take n).foldl f st = ((r.bgCalls c).take n).foldl f st := by
  obtain ⟨start, hstart, hinv⟩ := hc.recover
  refine ⟨start, hstart, fun r hr => ?_⟩
  have h := hr.invariant hinv fun _ _ _ hi hok hs => Recovered.inv_recovered hc hi hok hs
  have hagrees := Recovered.agrees_of_inv hc h
  exact ⟨hagrees, fun st _ hn hn' => hagrees.foldl_take hf st hn hn'⟩

/-! ## 6. One entry behind padding, and a commit record -/

/-- The background has committed the first of two entries; the second is at the front of the buffer. -/
def crashWrapped : Crash where
  pm
    | .head => 128
    | .tail => psmLogSizeB - 128
    | .buf i => if i = psmLogSizeB - 128 ∨ i < 65 then 7 else 0
  ret := some (psmLogSizeB - 64)
  tailPos := psmLogSizeB - 128
  recPos := psmLogSizeB - 64
  headPos := psmLogSizeB + 128
  passing := [⟨psmLogSizeB - 128, psmLogSizeB - 128, [7], true⟩]
  committed := [⟨psmLogSizeB - 64, psmLogSizeB, List.replicate 65 7, true⟩]

theorem crashWrapped_wf : crashWrapped.Wf where
  passing := .cons rfl ⟨by decide, by decide, by decide, Or.inl rfl⟩ (.nil _)
  committed := .cons rfl ⟨by decide, by decide, by decide, Or.inr (by decide)⟩ (.nil _)
  aligned := by decide
  room := by decide
  tail := by decide
  head := by decide
  ret := Or.inl rfl
  holds slot hs := by
    rcases List.mem_cons.mp hs with rfl | hs
    · refine ⟨⟨fun hne => absurd rfl hne, fun j hj => ?_⟩, by decide⟩
      obtain rfl : j = 0 := Nat.lt_one_iff.mp hj
      rfl
    · obtain rfl := List.mem_singleton.mp hs
      refine ⟨⟨fun _ => rfl, fun j hj => ?_⟩, by decide⟩
      have hj' : j < 65 := by simpa using hj
      have hlt : psmLogSizeB % psmLogSizeB + j < 65 := by
        rw [Nat.mod_self]
        omega
      exact (if_pos (Or.inr hlt)).trans (List.getD_replicate _ hj').symm

/-- Behind the hand-shake. -/
def recoveredWrapped : Recovered :=
  ⟨crashWrapped.psm, none, (psmLogSizeB - 64 : ℕ), .recovering (psmLogSizeB - 64 : ℕ), [],
    crashWrapped.committed⟩

theorem recover_wrapped : crashWrapped.recover = some recoveredWrapped := by
  have htail : crashWrapped.recoveredTail = (psmLogSizeB - 64 : ℕ) := by decide
  unfold Crash.recover
  rw [if_pos (by rw [htail]; omega), htail]
  rfl

/-- Both processes replay the second entry, the background while the foreground is in its loop. -/
theorem runs_wrapped : ∃ r, Runs Recovered.Step Recovered.Proper recoveredWrapped r ∧
    r.fg = .done 128 128 ∧ r.replayed.length = 1 ∧ (r.bgCalls crashWrapped).length = 1 := by
  have h1 : Runs Recovered.Step Recovered.Proper recoveredWrapped _ :=
    Runs.start.step RecAct.loadHead trivial (Recovered.Step.loadHead rfl)
  have h2 := h1.step (RecAct.replay 65) (fun slot hslot => by cases hslot; rfl)
    (Recovered.Step.replay 65 rfl
      (show consume _ _ 128 2 (toSizeT (psmLogSizeB - 64 : ℕ)) = .entry 0 128 from rfl))
  have h3 := h2.step (RecAct.psm .consumer) trivial
    (Recovered.Step.psm _ (fun _ => by decide) (Psm.Step.storeTail rfl))
  have h4 := h3.step (RecAct.psm .consumer) trivial
    (Recovered.Step.psm _ (fun _ => by decide) (Psm.Step.flushTail rfl))
  have h5 := h4.step (RecAct.psm (.evict .tail)) trivial
    (Recovered.Step.psm _ trivial (Psm.Step.evict .tail))
  have hd : ∀ l ∈ insert PsmLine.tail (∅ : Set PsmLine), l = .tail := fun l hl =>
    hl.resolve_right (Set.notMem_empty l)
  have h6 := h5.step (RecAct.psm .consumer) trivial
    (Recovered.Step.psm _ (fun _ => by decide) (Psm.Step.drainTail rfl (Psm.drained_evict hd)))
  have h7 := h6.step (RecAct.psm .consumer) trivial
    (Recovered.Step.psm _ (fun _ => by decide) (Psm.Step.publishTail rfl))
  have h8 := h7.step RecAct.runConsumer trivial (Recovered.Step.runConsumer rfl rfl)
  have h9 := h8.step (RecAct.psm .consumer) trivial
    (Recovered.Step.psm _ nofun (Psm.Step.load rfl))
  have h10 := h9.step (RecAct.psm (.call 65)) (fun slot hslot => by cases hslot; rfl)
    (Recovered.Step.psm _ nofun (Psm.Step.call 65 rfl
      (show consume _ _ 128 2 (toSizeT crashWrapped.recoveredTail) = .entry 0 128 from rfl)))
  have h11 := h10.step (RecAct.replay 0) nofun
    (Recovered.Step.replayed 0 rfl (show consume _ _ 128 2 (toSizeT (toInt 128)) = .none from rfl))
  exact ⟨_, h11, rfl, rfl, rfl⟩

/-- A callback that adds up the first bytes. -/
theorem replay_agrees_wrapped : ∃ r : Recovered, r.fg = .done 128 128 ∧ r.Agrees crashWrapped ∧
    r.replayed.foldl (fun n k => n + k.view 0) 0 =
      (r.bgCalls crashWrapped).foldl (fun n k => n + k.view 0) 0 := by
  obtain ⟨r, hrun, hdone, hfg, hbg⟩ := runs_wrapped
  obtain ⟨start, hstart, h⟩ := replay_agrees crashWrapped_wf (fun n k => n + k.view 0)
    (fun slot hs n x x' hx hx' => by
      obtain rfl := List.mem_singleton.mp hs
      show n + x.view 0 = n + x'.view 0
      rw [hx.bytes 0 (by decide), hx'.bytes 0 (by decide)])
  obtain rfl := Option.some.inj (recover_wrapped.symm.trans hstart)
  obtain ⟨hagrees, hsame⟩ := h r hrun
  have h1 := hsame 0 1 hfg.ge hbg.ge
  rw [List.take_of_length_le hfg.le, List.take_of_length_le hbg.le] at h1
  exact ⟨r, hdone, hagrees, h1⟩

end Persimmon
