/-
  File:      Persimmon/CommandLog.lean
  Subject:   THE COMMAND LOG: a circular buffer in persistent memory between the foreground, which
             pushes commands, and the background, which consumes them (src/fg.cc: `psm_reserve`,
             `psm_push`, `psm_commit`; src/internal.h: `psm`, `consume`; src/bg.cc: `_bg_consume`).

  Both processes run on one memory behind a write-back cache (`Lib/PersistentMemory.lean`). Every
  access to it is a step of its own, so that the processes, the hardware and a crash come between
  any two of them.

  * `consume` -- the function, with its assertions and its recursion on padding; `walk` -- consuming
    until the head is reached;
  * `Psm`, `Psm.Step` -- the two processes, with where each stands in its call;
  * `Slot`, `History` -- what has been pushed, committed and consumed, and where it lies. Positions
    count bytes without wrapping around; no step of the program reads them;
  * `Psm.Proper` -- what the program asks of its callers.
-/
import Persimmon.Lib.PersistentMemory
import Persimmon.Lib.Transition
import Persimmon.Word

namespace Persimmon

open PersistentMemory

/-- `align_to_cache_line_size`. `CACHE_LINE_SIZE_B` is a 32-bit constant, and so is the mask made of
    it. -/
def alignToCacheLineSize (len : ℕ) : ℕ := add64 len 63 &&& (2 ^ 32 - 1 - 63)

/-! ## 1. Consuming -/

/-- What `consume` comes to. -/
inductive Consumed where
  | none
  | entry (place newTail : ℕ)
  | assertFailed
  | outOfFuel
  deriving DecidableEq, Repr

/-- **`consume`** on the buffer `buf`, with `f` the length the callback returns for the entry at a
    place. The fuel bounds the recursion on padding. -/
def consume (buf : ℕ → ℕ) (f : ℕ → ℕ) (head : ℕ) : ℕ → ℕ → Consumed
  | 0, _ => .outOfFuel
  | fuel + 1, tail =>
      if tail = head then .none
      else if buf tail = 0 then
        -- padding
        if head < tail then consume buf f head fuel 0 else .assertFailed
      else if tail % 64 ≠ 0 then .assertFailed
      else if tail + alignToCacheLineSize (f tail) ≤ psmLogSizeB then
        .entry tail ((tail + alignToCacheLineSize (f tail)) % psmLogSizeB)
      else .assertFailed

/-- Consuming entry after entry until the head is reached: the places met. `lens` are the lengths
    the callback returns, one for each entry. -/
def walk (buf : ℕ → ℕ) (head : ℕ) : List ℕ → ℕ → Option (List ℕ)
  | [], tail => if tail = head then some [] else none
  | len :: lens, tail =>
      match consume buf (fun _ => len) head 2 tail with
      | .entry place newTail => (walk buf head lens newTail).map fun places => place :: places
      | _ => none

/-! ## 2. The processes -/

/-- A cell of `psm_log`. -/
inductive PsmCell where
  | head
  | tail
  | buf (i : ℕ)
  deriving DecidableEq, Repr

/-- Its cache lines: `head`, `tail` and `buf` are `alignas(CACHE_LINE_SIZE_B)`. -/
inductive PsmLine where
  | head
  | tail
  | buf (i : ℕ)
  deriving DecidableEq, Repr

def psmLine : PsmCell → PsmLine
  | .head => .head
  | .tail => .tail
  | .buf i => .buf (i / 64)

inductive Side where
  | producer
  | consumer
  deriving DecidableEq, Repr

/-- Where the foreground stands. `src` is there in `psm_push`, and not in `psm_reserve`. -/
inductive Producer where
  | idle
  /-- The spin loop of `psm_reserve`. -/
  | reserving (len : ℕ) (src : Option (List ℕ))
  /-- Behind the `memset` of the padding byte. -/
  | padding (len : ℕ) (src : Option (List ℕ))
  /-- `pmem_memcpy_nodrain`, at byte `i`. -/
  | copying (p : ℕ) (src : List ℕ) (i : ℕ)
  /-- The flush loop of `psm_commit`, at line `i`. -/
  | flushing (i : ℕ)
  | draining
  /-- `update_head`, statement by statement. -/
  | storingHead
  | flushingHead
  | drainingHead
  | publishingHead
  deriving DecidableEq, Repr

/-- Where the background stands. -/
inductive Consumer where
  | idle
  | loaded (head : ℕ)
  /-- `update_tail`, statement by statement. -/
  | storingTail
  | flushingTail
  | drainingTail
  | publishingTail
  deriving DecidableEq, Repr

/-- An entry of the log: the positions where its space begins and where its bytes begin, and its
    bytes. The space before the bytes is padding. -/
structure Slot where
  start : ℕ
  pos : ℕ
  bytes : List ℕ
  pushed : Bool
  deriving DecidableEq, Repr

namespace Slot

def place (s : Slot) : ℕ := s.pos % psmLogSizeB

/-- The position behind its last line. -/
def stop (s : Slot) : ℕ := s.pos + alignToCacheLineSize s.bytes.length

/-- The application writes a byte of the buffer: it does so in the slots it has reserved. -/
def write (w b : ℕ) (s : Slot) : Slot :=
  if s.pushed = false ∧ s.place ≤ w ∧ w < s.place + s.bytes.length then
    { s with bytes := s.bytes.set (w - s.place) b }
  else s

end Slot

/-- A call of the callback: the place of the entry, and what the callback finds from there on. -/
structure Call where
  place : ℕ
  view : ℕ → ℕ

/-- **The history**, for the statements only. The slots are in four lists: passed by the tail, being
    passed (consumed, `update_tail` not finished), committed, reserved since the last commit. -/
structure History where
  tailPos : ℕ
  consumedPos : ℕ
  headPos : ℕ
  localHeadPos : ℕ
  localTailPos : ℕ
  passed : List Slot
  passing : List Slot
  committed : List Slot
  reserved : List Slot
  called : List Call

/-- `psm`, with `psm_log` in `mem`, and both processes. -/
structure Psm where
  mem : Memory PsmCell PsmLine Side ℕ
  head : ℕ
  tail : ℕ
  localHead : ℕ
  localTail : ℕ
  /-- The `tail` of `run_consumer`. -/
  consumerTail : ℕ
  producer : Producer
  consumer : Consumer
  hist : History

namespace Psm

/-- The buffer as the processes see it. -/
def buf (s : Psm) : ℕ → ℕ := fun i => s.mem.cache (.buf i)

/-- The buffer as a crash leaves it. -/
def pmBuf (s : Psm) : ℕ → ℕ := fun i => s.mem.pm (.buf i)

/-- `truncated_tail` -/
def Truncated (s : Psm) (len : ℕ) : Prop :=
  psmLogSizeB < s.localHead + alignToCacheLineSize len

instance (s : Psm) (len : ℕ) : Decidable (s.Truncated len) := inferInstanceAs (Decidable (_ < _))

/-- The space `psm_reserve` waits for. -/
def needed (s : Psm) (len : ℕ) : ℕ :=
  if s.Truncated len then alignToCacheLineSize len + (psmLogSizeB - s.localHead)
  else alignToCacheLineSize len

/-- The spin loop ends. -/
def HasSpace (s : Psm) (len : ℕ) : Prop :=
  s.needed len ≤ (s.localTail + psmLogSizeB - s.localHead - 1) % psmLogSizeB

/-- The slot `psm_reserve` hands out, with what lies in the buffer there. -/
def newSlot (s : Psm) (len : ℕ) (src : Option (List ℕ)) : Slot :=
  let pos := if s.Truncated len then s.hist.localHeadPos + (psmLogSizeB - s.localHead)
    else s.hist.localHeadPos
  { start := s.hist.localHeadPos
    pos := pos
    bytes := src.getD ((List.range len).map fun j => s.buf (pos % psmLogSizeB + j))
    pushed := src.isSome }

/-- The end of `psm_reserve`; `psm_push` goes on with the `memcpy`. -/
def take (s : Psm) (len : ℕ) (src : Option (List ℕ)) : Psm :=
  { s with
    localHead := (s.localHead + s.needed len) % psmLogSizeB
    producer :=
      match src with
      | none => .idle
      | some src => .copying (if s.Truncated len then 0 else s.localHead) src 0
    hist := { s.hist with
      localHeadPos := s.hist.localHeadPos + s.needed len
      reserved := s.hist.reserved ++ [s.newSlot len src] } }

end Psm

/-- A call of the callback and its effect on the history. -/
def History.call (h : History) (c : Call) : History :=
  match h.committed with
  | [] => { h with called := h.called ++ [c] }
  | slot :: rest =>
      { h with
        consumedPos := slot.stop
        passing := h.passing ++ [slot]
        committed := rest
        called := h.called ++ [c] }

inductive PsmAct where
  | reserve (len : ℕ)
  | push (src : List ℕ)
  | write (w b : ℕ)
  | commit (pushOnly : Bool)
  | call (len : ℕ)
  | producer
  | consumer
  | evict (l : PsmLine)
  deriving DecidableEq, Repr

/-- **One step** of the foreground, of the background, or of the hardware. -/
inductive Psm.Step : Psm → PsmAct → Psm → Prop where
  | reserve {s : Psm} (len : ℕ) (h : s.producer = .idle) :
      Step s (.reserve len) { s with producer := .reserving len none }
  | push {s : Psm} (src : List ℕ) (h : s.producer = .idle) :
      Step s (.push src) { s with producer := .reserving src.length (some src) }
  | spin {s : Psm} {len : ℕ} {src : Option (List ℕ)} (h : s.producer = .reserving len src)
      (hsp : ¬ s.HasSpace len) :
      Step s .producer { s with
        localTail := s.tail
        hist := { s.hist with localTailPos := s.hist.tailPos } }
  | take {s : Psm} {len : ℕ} {src : Option (List ℕ)} (h : s.producer = .reserving len src)
      (hsp : s.HasSpace len) (ht : ¬ s.Truncated len) : Step s .producer (s.take len src)
  | pad {s : Psm} {len : ℕ} {src : Option (List ℕ)} (h : s.producer = .reserving len src)
      (hsp : s.HasSpace len) (ht : s.Truncated len) :
      Step s .producer { s with
        mem := s.mem.store (.buf s.localHead) 0
        producer := .padding len src }
  | flushPad {s : Psm} {len : ℕ} {src : Option (List ℕ)} (h : s.producer = .padding len src) :
      Step s .producer
        (take { s with mem := s.mem.flush .producer (.buf (s.localHead / 64)) } len src)
  | copy {s : Psm} {p i : ℕ} {src : List ℕ} (h : s.producer = .copying p src i)
      (hi : i < src.length) :
      Step s .producer { s with
        mem := (s.mem.store (.buf (p + i)) (src.getD i 0)).flush .producer (.buf ((p + i) / 64))
        producer := .copying p src (i + 1) }
  | copied {s : Psm} {p i : ℕ} {src : List ℕ} (h : s.producer = .copying p src i)
      (hi : ¬ i < src.length) : Step s .producer { s with producer := .idle }
  | write {s : Psm} (w b : ℕ) (h : s.producer = .idle)
      (hw : ∃ slot ∈ s.hist.reserved, slot.pushed = false ∧ slot.place ≤ w ∧
        w < slot.place + slot.bytes.length) :
      Step s (.write w b) { s with
        mem := s.mem.store (.buf w) b
        hist := { s.hist with reserved := s.hist.reserved.map (Slot.write w b) } }
  | commitNothing {s : Psm} (pushOnly : Bool) (h : s.producer = .idle) (hh : s.localHead = s.head) :
      Step s (.commit pushOnly) s
  | commit {s : Psm} (pushOnly : Bool) (h : s.producer = .idle) (hh : s.localHead ≠ s.head) :
      Step s (.commit pushOnly)
        { s with producer := if pushOnly then .draining else .flushing s.head }
  | flush {s : Psm} {i : ℕ} (h : s.producer = .flushing i) (hi : i ≠ s.localHead) :
      Step s .producer { s with
        mem := s.mem.flush .producer (.buf (i / 64))
        producer := .flushing ((i + 64) % psmLogSizeB) }
  | flushed {s : Psm} {i : ℕ} (h : s.producer = .flushing i) (hi : i = s.localHead) :
      Step s .producer { s with producer := .draining }
  | drain {s : Psm} (h : s.producer = .draining) (hd : s.mem.Drained .producer) :
      Step s .producer { s with producer := .storingHead }
  | storeHead {s : Psm} (h : s.producer = .storingHead) :
      Step s .producer { s with
        mem := s.mem.store .head s.localHead
        producer := .flushingHead }
  | flushHead {s : Psm} (h : s.producer = .flushingHead) :
      Step s .producer { s with
        mem := s.mem.flush .producer .head
        producer := .drainingHead }
  | drainHead {s : Psm} (h : s.producer = .drainingHead) (hd : s.mem.Drained .producer) :
      Step s .producer { s with producer := .publishingHead }
  | publishHead {s : Psm} (h : s.producer = .publishingHead) :
      Step s .producer { s with
        head := s.localHead
        producer := .idle
        hist := { s.hist with
          headPos := s.hist.localHeadPos
          committed := s.hist.committed ++ s.hist.reserved
          reserved := [] } }
  | load {s : Psm} (h : s.consumer = .idle) :
      Step s .consumer { s with consumer := .loaded s.head }
  | callNothing {s : Psm} {head : ℕ} (len : ℕ) (h : s.consumer = .loaded head)
      (hc : consume s.buf (fun _ => len) head 2 s.consumerTail = .none) :
      Step s (.call len) { s with consumer := .idle }
  | call {s : Psm} {head place newTail : ℕ} (len : ℕ) (h : s.consumer = .loaded head)
      (hc : consume s.buf (fun _ => len) head 2 s.consumerTail = .entry place newTail) :
      Step s (.call len) { s with
        consumerTail := newTail
        consumer := .storingTail
        hist := s.hist.call ⟨place, fun i => s.buf (place + i)⟩ }
  | storeTail {s : Psm} (h : s.consumer = .storingTail) :
      Step s .consumer { s with
        mem := s.mem.store .tail s.consumerTail
        consumer := .flushingTail }
  | flushTail {s : Psm} (h : s.consumer = .flushingTail) :
      Step s .consumer { s with
        mem := s.mem.flush .consumer .tail
        consumer := .drainingTail }
  | drainTail {s : Psm} (h : s.consumer = .drainingTail) (hd : s.mem.Drained .consumer) :
      Step s .consumer { s with consumer := .publishingTail }
  | publishTail {s : Psm} (h : s.consumer = .publishingTail) :
      Step s .consumer { s with
        tail := s.consumerTail
        consumer := .idle
        hist := { s.hist with
          tailPos := s.hist.consumedPos
          passed := s.hist.passed ++ s.hist.passing
          passing := [] } }
  | evict {s : Psm} (l : PsmLine) :
      Step s (.evict l) { s with mem := s.mem.evict psmLine l }

/-- The log right after `psm_init`. -/
def Psm.start : Psm where
  mem := Memory.start fun _ => 0
  head := 0
  tail := 0
  localHead := 0
  localTail := 0
  consumerTail := 0
  producer := .idle
  consumer := .idle
  hist := ⟨0, 0, 0, 0, 0, [], [], [], [], []⟩

/-- A length that may be reserved: in whole lines it is at most `PSM_LOG_SIZE_B - 64`. -/
def ProperLen (len : ℕ) : Prop := 1 ≤ len ∧ len ≤ psmLogSizeB - 64

instance (len : ℕ) : Decidable (ProperLen len) := inferInstanceAs (Decidable (_ ∧ _))

/-- **What the program asks of its callers**: lengths that fit, no entry that begins with a NUL
    byte, `push_only` only when every entry came from `psm_push`, a callback that returns a length
    with the rounding of the entry's. -/
def Psm.Proper (s : Psm) : PsmAct → Prop
  | .reserve len => ProperLen len
  | .push src => ProperLen src.length ∧ src.getD 0 0 ≠ 0
  | .commit pushOnly => ∀ slot ∈ s.hist.reserved,
      slot.bytes.getD 0 0 ≠ 0 ∧ (pushOnly = true → slot.pushed = true)
  | .call len => ∀ slot ∈ s.hist.committed.head?,
      alignToCacheLineSize len = alignToCacheLineSize slot.bytes.length
  | _ => True

end Persimmon
