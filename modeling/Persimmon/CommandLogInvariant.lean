/-
  File:      Persimmon/CommandLogInvariant.lean
  Subject:   THE INVARIANT OF THE COMMAND LOG, kept by every step of the foreground, of the
             background and of the hardware.

  * `Psm.Positions` -- what `head`, `tail` and the producer's own indices stand for, and that the
    slots in use fill less than one lap of the buffer;
  * `Slot.Filled`, `Slot.Stored` -- a reserved slot that is being written, a committed one;
  * `Psm.ReservedInv`, `Psm.HeadInv`, `Psm.ConsumedInv`, `Psm.TailInv` -- what holds at each place
    of `psm_reserve`, `psm_push`, `psm_commit`, `consume` and `update_tail`;
  * `Psm.Inv`, `inv_step` -- all of it, and that a step keeps it.
-/
import Mathlib.Data.List.Forall2
import Persimmon.CommandLogLayout

namespace Persimmon

open PersistentMemory Transition

abbrev PsmMemory := Memory PsmCell PsmLine Side ℕ

/-! ## 1. Slots in memory -/

namespace Slot

/-- The line of the padding byte, and those of the first `n` bytes. -/
def Lines (P : PsmLine → Prop) (n : ℕ) (s : Slot) : Prop :=
  (s.start ≠ s.pos → P (lineAt s.start)) ∧ ∀ j < n, P (lineAt (s.pos + j))

/-- The padding byte and the first `n` bytes, as the processes see them. -/
def InCache (m : PsmMemory) (n : ℕ) (s : Slot) : Prop :=
  (s.start ≠ s.pos → m.cache (cellAt s.start) = 0) ∧
    ∀ j < n, m.cache (cellAt (s.pos + j)) = s.bytes.getD j 0

/-- **A reserved slot**, written up to byte `n`: the padding byte has been flushed, and so have the
    bytes `psm_push` has copied. -/
structure Filled (m : PsmMemory) (n : ℕ) (s : Slot) : Prop where
  cache : s.InCache m n
  pad : s.start ≠ s.pos → Covered psmLine m .producer (lineAt s.start)
  asked : s.pushed = true → ∀ j < n, Covered psmLine m .producer (lineAt (s.pos + j))

/-- **A committed slot**: its bytes are there, they are persistent, and the first is not NUL. -/
structure Stored (m : PsmMemory) (s : Slot) : Prop where
  cache : s.InCache m s.bytes.length
  durable : s.Lines (Synced psmLine m) s.bytes.length
  nul : s.bytes.getD 0 0 ≠ 0

variable {m m' : PsmMemory} {s : Slot} {n : ℕ}

/-- The lines of the slot are left alone. -/
def Kept (m m' : PsmMemory) (s : Slot) : Prop :=
  ∀ x, s.start ≤ x → x < s.stop → Keeps psmLine m m' (lineAt x)

theorem Kept.start (h : s.Kept m m') (hok : s.Ok) : Keeps psmLine m m' (lineAt s.start) := by
  have hstart := hok.start_le
  have hpos := hok.pos_lt
  exact h _ (le_refl _) (by omega)

theorem Kept.byte (h : s.Kept m m') (hok : s.Ok) {j : ℕ} (hj : j < s.bytes.length) :
    Keeps psmLine m m' (lineAt (s.pos + j)) := by
  have hstart := hok.start_le
  exact h _ (by omega) (hok.lt_stop hj)

theorem InCache.keeps (h : s.InCache m n) (hk : s.Kept m m') (hok : s.Ok)
    (hn : n ≤ s.bytes.length) : s.InCache m' n := by
  refine ⟨fun hp => ?_, fun j hj => ?_⟩
  · rw [(hk.start hok).cache _ (psmLine_cellAt _)]
    exact h.1 hp
  · rw [(hk.byte hok (by omega)).cache _ (psmLine_cellAt _)]
    exact h.2 j hj

theorem Filled.keeps (h : s.Filled m n) (hk : s.Kept m m') (hok : s.Ok) (hn : n ≤ s.bytes.length) :
    s.Filled m' n :=
  ⟨h.cache.keeps hk hok hn, fun hp => (hk.start hok).covered _ (h.pad hp),
    fun hp j hj => (hk.byte hok (by omega)).covered _ (h.asked hp j hj)⟩

/-- One byte more is copied, and flushed. -/
theorem Filled.copy {i t : ℕ} (h : s.Filled m i) (hok : s.Ok) (hi : i < s.bytes.length)
    (hpush : s.pushed = true) (ht : t % 64 = 0) (hstart : t ≤ s.start)
    (hstop : s.stop ≤ t + psmLogSizeB) :
    s.Filled ((m.store (cellAt (s.pos + i)) (s.bytes.getD i 0)).flush .producer
      (lineAt (s.pos + i))) (i + 1) := by
  have hle := hok.start_le
  have hlt := hok.lt_stop hi
  have hwin : t ≤ s.pos + i ∧ s.pos + i < t + psmLogSizeB := ⟨by omega, by omega⟩
  refine ⟨⟨fun hpad => ?_, fun j hj => ?_⟩, fun hpad => ?_, fun _ j hj => ?_⟩
  · have hpos := (hok.padded.resolve_left hpad).1
    show (m.store (cellAt (s.pos + i)) _).cache (cellAt s.start) = 0
    rw [Memory.store_cache, Function.update_of_ne]
    · exact h.cache.1 hpad
    · exact cellAt_ne ⟨by omega, by omega⟩ hwin (by omega)
  · show (m.store (cellAt (s.pos + i)) _).cache (cellAt (s.pos + j)) = _
    rcases Nat.lt_succ_iff_lt_or_eq.mp hj with hj | rfl
    · rw [Memory.store_cache, Function.update_of_ne]
      · exact h.cache.2 j hj
      · exact cellAt_ne ⟨by omega, by omega⟩ hwin (by omega)
    · rw [Memory.store_cache, Function.update_self]
  · have hpos := (hok.padded.resolve_left hpad).1
    have hmod := hok.pos_mod
    have hne : psmLine (cellAt (s.pos + i)) ≠ lineAt s.start :=
      lineAt_ne ht hwin ⟨hstart, by omega⟩ (by omega)
    exact ((Keeps.store m hne _).trans (Keeps.flush _ _ _ _)).covered _ (h.pad hpad)
  · by_cases hsame : lineAt (s.pos + j) = lineAt (s.pos + i)
    · rw [hsame]
      exact Covered.of_flush _ _ _
    · rcases Nat.lt_succ_iff_lt_or_eq.mp hj with hj | rfl
      · have hne : psmLine (cellAt (s.pos + i)) ≠ lineAt (s.pos + j) := Ne.symm hsame
        exact ((Keeps.store m hne _).trans (Keeps.flush _ _ _ _)).covered _ (h.asked hpush j hj)
      · exact absurd rfl hsame

theorem Stored.keeps (h : s.Stored m) (hk : s.Kept m m') (hok : s.Ok) : s.Stored m' :=
  ⟨h.cache.keeps hk hok (le_refl _),
    ⟨fun hp => (hk.start hok).synced (h.durable.1 hp),
      fun j hj => (hk.byte hok hj).synced (h.durable.2 j hj)⟩, h.nul⟩

/-- What the processes see of a committed slot. -/
theorem Stored.holds (h : s.Stored m) (hok : s.Ok) : s.Holds fun i => m.cache (.buf i) := by
  refine ⟨h.cache.1, fun j hj => ?_⟩
  have hbyte := h.cache.2 j hj
  rwa [cellAt, hok.place_add hj] at hbyte

/-- What a crash leaves of it is the same. -/
theorem Stored.holds_pm (h : s.Stored m) (hok : s.Ok) : s.Holds fun i => m.pm (.buf i) := by
  refine ⟨fun hp => ?_, fun j hj => ?_⟩
  · exact (h.durable.1 hp _ rfl).trans (h.cache.1 hp)
  · have hbyte := (h.durable.2 j hj _ (psmLine_cellAt _)).trans (h.cache.2 j hj)
    rwa [cellAt, hok.place_add hj] at hbyte

/-- **A call of the callback has met the slot**: at a place that begins a line, in one piece, with
    the slot's bytes. -/
structure Met (s : Slot) (c : Call) : Prop where
  place : c.place = s.place
  aligned : c.place % 64 = 0
  contiguous : c.place + s.bytes.length ≤ psmLogSizeB
  bytes : ∀ j < s.bytes.length, c.view j = s.bytes.getD j 0

/-- A call at the slot's place, on a buffer that holds the slot. -/
theorem Holds.met {buf : ℕ → ℕ} (h : s.Holds buf) (hok : s.Ok) :
    s.Met ⟨s.place, fun i => buf (s.place + i)⟩ := by
  refine ⟨rfl, ?_, le_trans (Nat.add_le_add_left hok.len.le_align _) hok.fits, fun j hj => h.2 j hj⟩
  have hmod := hok.pos_mod
  show s.pos % psmLogSizeB % 64 = 0
  unfold psmLogSizeB
  omega

end Slot

/-! ## 2. The invariant -/

namespace Psm

/-- **What the indices stand for.** -/
structure Positions (s : Psm) : Prop where
  passing : Chain s.hist.tailPos s.hist.passing s.hist.consumedPos
  committed : Chain s.hist.consumedPos s.hist.committed s.hist.headPos
  reserved : Chain s.hist.headPos s.hist.reserved s.hist.localHeadPos
  aligned : s.hist.tailPos % 64 = 0
  localAligned : s.hist.localTailPos % 64 = 0
  localTail_le : s.hist.localTailPos ≤ s.hist.tailPos
  room : s.hist.localHeadPos + 64 ≤ s.hist.localTailPos + psmLogSizeB
  head : s.head = s.hist.headPos % psmLogSizeB
  tail : s.tail = s.hist.tailPos % psmLogSizeB
  localHead : s.localHead = s.hist.localHeadPos % psmLogSizeB
  localTail : s.localTail = s.hist.localTailPos % psmLogSizeB
  consumerTail : s.consumerTail = s.hist.consumedPos % psmLogSizeB

/-- Every reserved slot is written to its end. -/
def AllFilled (s : Psm) : Prop := ∀ slot ∈ s.hist.reserved, slot.Filled s.mem slot.bytes.length

/-- No reserved slot begins with a NUL byte. -/
def AllNonNul (s : Psm) : Prop := ∀ slot ∈ s.hist.reserved, slot.bytes.getD 0 0 ≠ 0

/-- What `psm_reserve` was called with. -/
def ProperCall (len : ℕ) (src : Option (List ℕ)) : Prop := ProperLen len ∧ ∀ b ∈ src, b.length = len

/-- The reserved slots, by the place in `psm_reserve`, `psm_push` and `psm_commit`. -/
def ReservedInv (s : Psm) : Prop :=
  match s.producer with
  | .idle => s.AllFilled
  | .reserving len src => s.AllFilled ∧ ProperCall len src
  | .padding len src => s.AllFilled ∧ ProperCall len src ∧ s.HasSpace len ∧ s.Truncated len ∧
      s.mem.cache (cellAt s.hist.localHeadPos) = 0
  | .copying p src i => ∃ l slot, s.hist.reserved = l ++ [slot] ∧
      (∀ x ∈ l, x.Filled s.mem x.bytes.length) ∧ slot.Filled s.mem i ∧ slot.bytes = src ∧
      slot.place = p ∧ slot.pushed = true ∧ i ≤ src.length
  | .flushing i => s.AllFilled ∧ s.AllNonNul ∧ ∃ x, s.hist.headPos ≤ x ∧
      x ≤ s.hist.localHeadPos ∧ x % 64 = 0 ∧ i = x % psmLogSizeB ∧
      ∀ y, s.hist.headPos ≤ y → y < x → Covered psmLine s.mem .producer (lineAt y)
  | .draining => s.AllFilled ∧ s.AllNonNul ∧ ∀ slot ∈ s.hist.reserved,
      slot.Lines (Covered psmLine s.mem .producer) slot.bytes.length
  | .storingHead | .flushingHead | .drainingHead | .publishingHead =>
      ∀ slot ∈ s.hist.reserved, slot.Stored s.mem

/-- The head in the log, by the place in `update_head`. -/
def HeadInv (s : Psm) : Prop :=
  match s.producer with
  | .flushingHead => s.mem.cache .head = s.hist.localHeadPos % psmLogSizeB ∧
      (s.mem.pm .head = s.hist.headPos % psmLogSizeB ∨
        s.mem.pm .head = s.hist.localHeadPos % psmLogSizeB)
  | .drainingHead => s.mem.cache .head = s.hist.localHeadPos % psmLogSizeB ∧
      (s.mem.pm .head = s.hist.headPos % psmLogSizeB ∨
        s.mem.pm .head = s.hist.localHeadPos % psmLogSizeB) ∧
      Covered psmLine s.mem .producer .head
  | .publishingHead => s.mem.cache .head = s.hist.localHeadPos % psmLogSizeB ∧
      s.mem.pm .head = s.hist.localHeadPos % psmLogSizeB
  | _ => s.mem.cache .head = s.hist.headPos % psmLogSizeB ∧
      s.mem.pm .head = s.hist.headPos % psmLogSizeB

/-- The tail in the log, by the place in `update_tail`. -/
def TailInv (s : Psm) : Prop :=
  match s.consumer with
  | .flushingTail => s.mem.cache .tail = s.hist.consumedPos % psmLogSizeB ∧
      (s.mem.pm .tail = s.hist.tailPos % psmLogSizeB ∨
        s.mem.pm .tail = s.hist.consumedPos % psmLogSizeB)
  | .drainingTail => s.mem.cache .tail = s.hist.consumedPos % psmLogSizeB ∧
      (s.mem.pm .tail = s.hist.tailPos % psmLogSizeB ∨
        s.mem.pm .tail = s.hist.consumedPos % psmLogSizeB) ∧
      Covered psmLine s.mem .consumer .tail
  | .publishingTail => s.mem.cache .tail = s.hist.consumedPos % psmLogSizeB ∧
      s.mem.pm .tail = s.hist.consumedPos % psmLogSizeB
  | _ => s.mem.cache .tail = s.hist.tailPos % psmLogSizeB ∧
      s.mem.pm .tail = s.hist.tailPos % psmLogSizeB

/-- What the background has loaded. -/
def ConsumedInv (s : Psm) : Prop :=
  match s.consumer with
  | .idle => s.hist.passing = []
  | .loaded head => s.hist.passing = [] ∧ ∃ l l' q, s.hist.committed = l ++ l' ∧
      Chain s.hist.consumedPos l q ∧ head = q % psmLogSizeB
  | _ => True

/-- **The invariant.** -/
structure Inv (s : Psm) : Prop where
  pos : s.Positions
  stored : ∀ slot ∈ s.hist.passing ++ s.hist.committed, slot.Stored s.mem
  met : List.Forall₂ Slot.Met (s.hist.passed ++ s.hist.passing) s.hist.called
  reserved : s.ReservedInv
  head : s.HeadInv
  tail : s.TailInv
  consumed : s.ConsumedInv

namespace Positions

variable {s : Psm}

theorem le (h : s.Positions) : s.hist.tailPos ≤ s.hist.consumedPos ∧
    s.hist.consumedPos ≤ s.hist.headPos ∧ s.hist.headPos ≤ s.hist.localHeadPos ∧
    s.hist.localHeadPos + 64 ≤ s.hist.tailPos + psmLogSizeB := by
  have h1 := h.localTail_le
  have h2 := h.room
  exact ⟨h.passing.le, h.committed.le, h.reserved.le, by omega⟩

theorem headPos_mod (h : s.Positions) : s.hist.headPos % 64 = 0 :=
  h.committed.mod (h.passing.mod h.aligned)

theorem localHeadPos_mod (h : s.Positions) : s.hist.localHeadPos % 64 = 0 :=
  h.reserved.mod h.headPos_mod

/-- A step that moves no index. -/
theorem same (h : s.Positions) (m : PsmMemory) (pc : Producer) (cc : Consumer) :
    Psm.Positions { s with mem := m, producer := pc, consumer := cc } :=
  ⟨h.passing, h.committed, h.reserved, h.aligned, h.localAligned, h.localTail_le, h.room, h.head,
    h.tail, h.localHead, h.localTail, h.consumerTail⟩

/-- A byte of a reserved slot: its cell, and its position less than a lap behind the tail. -/
theorem reserved_byte (h : s.Positions) {slot : Slot} (hs : slot ∈ s.hist.reserved) {i : ℕ}
    (hi : i < slot.bytes.length) :
    PsmCell.buf (slot.place + i) = cellAt (slot.pos + i) ∧
      s.hist.tailPos ≤ slot.pos + i ∧ slot.pos + i < s.hist.tailPos + psmLogSizeB := by
  obtain ⟨hok, h1, h2⟩ := h.reserved.mem hs
  have hle := h.le
  have hstart := hok.start_le
  have hlt := hok.lt_stop hi
  refine ⟨?_, by omega, by omega⟩
  rw [cellAt, hok.place_add hi]

/-- A committed slot lies between the tail and the head. -/
theorem mem_stored (h : s.Positions) {slot : Slot}
    (hs : slot ∈ s.hist.passing ++ s.hist.committed) :
    slot.Ok ∧ s.hist.tailPos ≤ slot.start ∧ slot.stop ≤ s.hist.headPos :=
  (h.passing.append h.committed).mem hs

end Positions

/-! ## 3. What the other side leaves alone -/

/-- The step was none of the background. -/
structure SameConsumer (s s' : Psm) : Prop where
  consumer : s'.consumer = s.consumer
  tailPos : s'.hist.tailPos = s.hist.tailPos
  consumedPos : s'.hist.consumedPos = s.hist.consumedPos
  passed : s'.hist.passed = s.hist.passed
  passing : s'.hist.passing = s.hist.passing
  committed : s'.hist.committed = s.hist.committed
  called : s'.hist.called = s.hist.called

/-- The step was none of the foreground. -/
structure SameProducer (s s' : Psm) : Prop where
  producer : s'.producer = s.producer
  localHead : s'.localHead = s.localHead
  localTail : s'.localTail = s.localTail
  headPos : s'.hist.headPos = s.hist.headPos
  localHeadPos : s'.hist.localHeadPos = s.hist.localHeadPos
  reserved : s'.hist.reserved = s.hist.reserved

section Frame

variable {s s' : Psm}

/-- A cell that holds one value for all to see, and in persistent memory, goes on doing so. -/
theorem cell_keeps {m m' : PsmMemory} {a : PsmCell} {v : ℕ} (hk : Keeps psmLine m m' (psmLine a))
    (h : m.cache a = v ∧ m.pm a = v) : m'.cache a = v ∧ m'.pm a = v := by
  refine ⟨(hk.cache a rfl).trans h.1, ?_⟩
  rcases hk.pm a rfl with he | he
  · exact he.trans h.2
  · exact he.trans h.1

/-- The same for a cell that is being stored. -/
theorem cell_keeps_or {m m' : PsmMemory} {a : PsmCell} {v w : ℕ}
    (hk : Keeps psmLine m m' (psmLine a)) (h : m.cache a = w ∧ (m.pm a = v ∨ m.pm a = w)) :
    m'.cache a = w ∧ (m'.pm a = v ∨ m'.pm a = w) := by
  refine ⟨(hk.cache a rfl).trans h.1, ?_⟩
  rcases hk.pm a rfl with he | he
  · rw [he]
    exact h.2
  · exact Or.inr (he.trans h.1)

theorem TailInv.keeps (h : s.TailInv) (hs : s.SameConsumer s')
    (hk : Keeps psmLine s.mem s'.mem .tail) : s'.TailInv := by
  unfold TailInv at h ⊢
  rw [hs.consumer, hs.tailPos, hs.consumedPos]
  cases hc : s.consumer <;> simp only [hc] at h ⊢
  case idle => exact cell_keeps hk h
  case loaded head => exact cell_keeps hk h
  case storingTail => exact cell_keeps hk h
  case flushingTail => exact cell_keeps_or hk h
  case drainingTail =>
    have hcell := cell_keeps_or hk ⟨h.1, h.2.1⟩
    exact ⟨hcell.1, hcell.2, hk.covered _ h.2.2⟩
  case publishingTail => exact cell_keeps hk h

theorem HeadInv.keeps (h : s.HeadInv) (hs : s.SameProducer s')
    (hk : Keeps psmLine s.mem s'.mem .head) : s'.HeadInv := by
  unfold HeadInv at h ⊢
  rw [hs.producer, hs.headPos, hs.localHeadPos]
  cases hp : s.producer <;> simp only [hp] at h ⊢
  case flushingHead => exact cell_keeps_or hk h
  case drainingHead =>
    have hcell := cell_keeps_or hk ⟨h.1, h.2.1⟩
    exact ⟨hcell.1, hcell.2, hk.covered _ h.2.2⟩
  all_goals exact cell_keeps hk h

/-- Lines of the buffer that are left alone leave the reserved slots as they are. -/
theorem AllFilled.keeps (h : s.AllFilled) (hpos : s.Positions)
    (hres : s'.hist.reserved = s.hist.reserved)
    (hk : ∀ x, s.hist.headPos ≤ x → x < s.hist.localHeadPos → Keeps psmLine s.mem s'.mem (lineAt x)) :
    s'.AllFilled := by
  intro slot hslot
  rw [hres] at hslot
  obtain ⟨hok, h1, h2⟩ := hpos.reserved.mem hslot
  exact (h slot hslot).keeps (fun x hx1 hx2 => hk x (by omega) (by omega)) hok (le_refl _)

theorem ReservedInv.keeps (h : s.ReservedInv) (hpos : s.Positions) (hs : s.SameProducer s')
    (hk : ∀ x, Keeps psmLine s.mem s'.mem (lineAt x)) : s'.ReservedInv := by
  have hfill : s.AllFilled → s'.AllFilled := fun hf => hf.keeps hpos hs.reserved fun x _ _ => hk x
  have hnul : s.AllNonNul → s'.AllNonNul := fun hn => by
    unfold AllNonNul
    rw [hs.reserved]
    exact hn
  have hstored : (∀ slot ∈ s.hist.reserved, slot.Stored s.mem) →
      ∀ slot ∈ s'.hist.reserved, slot.Stored s'.mem := fun hst slot hslot => by
    rw [hs.reserved] at hslot
    exact (hst slot hslot).keeps (fun x _ _ => hk x) (hpos.reserved.mem hslot).1
  have hspace : ∀ len, s.HasSpace len → s'.HasSpace len := fun len hsp => by
    simp only [HasSpace, needed, Truncated, hs.localHead, hs.localTail] at hsp ⊢
    exact hsp
  unfold ReservedInv at h ⊢
  rw [hs.producer]
  cases hp : s.producer <;> simp only [hp] at h ⊢
  case idle => exact hfill h
  case reserving len src => exact ⟨hfill h.1, h.2⟩
  case padding len src =>
    obtain ⟨hf, hcall, hsp, ht, hzero⟩ := h
    refine ⟨hfill hf, hcall, hspace len hsp, ?_, ?_⟩
    · unfold Truncated at ht ⊢
      rw [hs.localHead]
      exact ht
    · rw [hs.localHeadPos, (hk _).cache _ (psmLine_cellAt _)]
      exact hzero
  case copying p src i =>
    obtain ⟨l, slot, hres, hl, hslot, hbytes, hplace, hpush, hi⟩ := h
    have hmem : ∀ x ∈ l ++ [slot], x.Ok := fun x hx => (hpos.reserved.mem (hres ▸ hx)).1
    refine ⟨l, slot, hs.reserved.trans hres, fun x hx => ?_, ?_, hbytes, hplace, hpush, hi⟩
    · exact (hl x hx).keeps (fun y _ _ => hk y) (hmem x (List.mem_append_left _ hx)) (le_refl _)
    · exact hslot.keeps (fun y _ _ => hk y) (hmem slot (by simp)) (hbytes ▸ hi)
  case flushing i =>
    obtain ⟨hf, hn, x, h1, h2, h3, h4, hcov⟩ := h
    refine ⟨hfill hf, hnul hn, x, ?_⟩
    rw [hs.headPos, hs.localHeadPos]
    exact ⟨h1, h2, h3, h4, fun y hy1 hy2 => (hk y).covered _ (hcov y hy1 hy2)⟩
  case draining =>
    obtain ⟨hf, hn, hcov⟩ := h
    refine ⟨hfill hf, hnul hn, fun slot hslot => ?_⟩
    rw [hs.reserved] at hslot
    exact ⟨fun hp => (hk _).covered _ ((hcov slot hslot).1 hp),
      fun j hj => (hk _).covered _ ((hcov slot hslot).2 j hj)⟩
  all_goals exact hstored h

/-- **A step of the foreground** that leaves the committed slots and the tail alone. -/
theorem Inv.producerStep (h : s.Inv) (hs : s.SameConsumer s') (hpos : s'.Positions)
    (htail : Keeps psmLine s.mem s'.mem .tail)
    (hk : ∀ x, s.hist.tailPos ≤ x → x < s.hist.headPos → Keeps psmLine s.mem s'.mem (lineAt x))
    (hres : s'.ReservedInv) (hhead : s'.HeadInv) : s'.Inv := by
  refine ⟨hpos, fun slot hslot => ?_, ?_, hres, hhead, h.tail.keeps hs htail, ?_⟩
  · rw [hs.passing, hs.committed] at hslot
    obtain ⟨hok, h1, h2⟩ := h.pos.mem_stored hslot
    exact (h.stored slot hslot).keeps (fun x hx1 hx2 => hk x (by omega) (by omega)) hok
  · rw [hs.passed, hs.passing, hs.called]
    exact h.met
  · have hc := h.consumed
    unfold ConsumedInv at hc ⊢
    rw [hs.consumer, hs.passing, hs.committed, hs.consumedPos]
    exact hc

/-- **A step of the background or of the hardware**, which leaves the buffer alone. -/
theorem Inv.consumerStep (h : s.Inv) (hs : s.SameProducer s') (hpos : s'.Positions)
    (hhead : Keeps psmLine s.mem s'.mem .head) (hk : ∀ x, Keeps psmLine s.mem s'.mem (lineAt x))
    (hslots : ∀ slot ∈ s'.hist.passing ++ s'.hist.committed,
      slot ∈ s.hist.passing ++ s.hist.committed)
    (hmet : List.Forall₂ Slot.Met (s'.hist.passed ++ s'.hist.passing) s'.hist.called)
    (htail : s'.TailInv) (hcons : s'.ConsumedInv) : s'.Inv := by
  refine ⟨hpos, fun slot hslot => ?_, hmet, h.reserved.keeps h.pos hs hk, h.head.keeps hs hhead,
    htail, hcons⟩
  have hin := hslots slot hslot
  exact (h.stored slot hin).keeps (fun x _ _ => hk x) (h.pos.mem_stored hin).1

end Frame

/-! ## 4. The foreground: `psm_reserve` and `psm_push` -/

section Reserve

variable {s : Psm} {len : ℕ} {src : Option (List ℕ)}

/-- **The space `psm_reserve` waits for** leaves a line free before the tail it knows of. -/
theorem HasSpace.room (hsp : s.HasSpace len) (h : s.Positions) (hlen : ProperLen len) :
    s.hist.localHeadPos + s.needed len + 64 ≤ s.hist.localTailPos + psmLogSizeB := by
  have hroom := h.room
  have hle := h.le
  have h1 := h.localAligned
  have h2 := h.localHeadPos_mod
  have h3 := align_mod len
  have h4 := hlen.align_le
  have hmod : s.needed len % 64 = 0 := by
    unfold needed
    rw [h.localHead]
    unfold psmLogSizeB
    split_ifs <;> omega
  unfold HasSpace at hsp
  rw [h.localHead, h.localTail] at hsp
  have hlt := h.localTail_le
  generalize s.needed len = n at *
  unfold psmLogSizeB at *
  omega

theorem newSlot_length (hcall : ProperCall len src) : (s.newSlot len src).bytes.length = len := by
  cases src with
  | none => simp [newSlot]
  | some b => exact hcall.2 b rfl

theorem newSlot_stop (hcall : ProperCall len src) :
    (s.newSlot len src).stop = s.hist.localHeadPos + s.needed len := by
  rw [Slot.stop, newSlot_length hcall]
  unfold newSlot needed
  simp only
  split_ifs <;> omega

theorem newSlot_place (h : s.Positions) :
    (s.newSlot len src).place = if s.Truncated len then 0 else s.localHead := by
  unfold newSlot Slot.place
  simp only
  have hh := h.localHead
  split_ifs
  · unfold psmLogSizeB at *
    omega
  · exact hh.symm

/-- Padding is there exactly when the tail of the buffer is truncated. -/
theorem newSlot_padded (h : s.Positions) :
    (s.newSlot len src).start ≠ (s.newSlot len src).pos ↔ s.Truncated len := by
  have hh := h.localHead
  have hlt : s.localHead < psmLogSizeB := by
    unfold psmLogSizeB at *
    omega
  unfold newSlot
  simp only
  split_ifs with ht
  · exact ⟨fun _ => ht, fun _ => by omega⟩
  · exact ⟨fun hne => absurd rfl hne, fun h => absurd h ht⟩

theorem newSlot_ok (h : s.Positions) (hcall : ProperCall len src) : (s.newSlot len src).Ok := by
  have hh := h.localHead
  have hlt : s.localHead < psmLogSizeB := by
    unfold psmLogSizeB at *
    omega
  have hmod := h.localHeadPos_mod
  have hle := hcall.1.align_le
  refine ⟨hmod, ?_, ?_, ?_⟩
  · rw [newSlot_length hcall]
    exact hcall.1
  · rw [newSlot_length hcall, newSlot_place h]
    split_ifs with ht
    · unfold psmLogSizeB at *
      omega
    · unfold Truncated at ht
      omega
  · unfold newSlot
    simp only
    split_ifs with ht
    · refine Or.inr ⟨by omega, ?_, ?_⟩
      · -- a truncated tail does not begin at the front: what is asked for would fit
        unfold Truncated at ht
        unfold psmLogSizeB at *
        omega
      · unfold psmLogSizeB at *
        omega
    · exact Or.inl rfl

theorem positions_take (h : s.Positions) (hcall : ProperCall len src) (hsp : s.HasSpace len) :
    (s.take len src).Positions := by
  have hchain : Chain s.hist.localHeadPos [s.newSlot len src]
      (s.hist.localHeadPos + s.needed len) :=
    newSlot_stop hcall ▸ Chain.single (newSlot_ok h hcall)
  refine ⟨h.passing, h.committed, h.reserved.append hchain, h.aligned, h.localAligned,
    h.localTail_le, hsp.room h hcall.1, h.head, h.tail, ?_, h.localTail, h.consumerTail⟩
  have hh := h.localHead
  show (s.localHead + s.needed len) % psmLogSizeB =
    (s.hist.localHeadPos + s.needed len) % psmLogSizeB
  rw [hh, Nat.mod_add_mod]

/-- The new slot of `psm_reserve` holds what lies there; that of `psm_push` is still to be copied. -/
theorem newSlot_filled (h : s.Positions) (hcall : ProperCall len src)
    (hpad : s.Truncated len → s.mem.cache (cellAt s.hist.localHeadPos) = 0 ∧
      Covered psmLine s.mem .producer (lineAt s.hist.localHeadPos)) :
    (s.newSlot len src).Filled s.mem (if src.isSome then 0 else len) := by
  have hok : (s.newSlot len src).Ok := newSlot_ok h hcall
  refine ⟨⟨fun hp => (hpad ((newSlot_padded h).mp hp)).1, fun j hj => ?_⟩,
    fun hp => (hpad ((newSlot_padded h).mp hp)).2, fun hp j hj => ?_⟩
  · cases src with
    | some b => exact absurd hj (Nat.not_lt_zero j)
    | none =>
        have hj' : j < len := hj
        have hadd := hok.place_add (by rw [newSlot_length hcall]; exact hj')
        have hbyte : (s.newSlot len none).bytes.getD j 0 =
            s.buf ((s.newSlot len none).place + j) := by
          simp [newSlot, Slot.place, hj']
        rw [cellAt, hadd, hbyte]
        rfl
  · have hsome : src.isSome = true := hp
    rw [hsome, if_pos rfl] at hj
    exact absurd hj (Nat.not_lt_zero j)

/-- **The spin loop** loads the tail. -/
theorem inv_spin (h : s.Inv) (hp : s.producer = .reserving len src) :
    Psm.Inv { s with
      localTail := s.tail
      hist := { s.hist with localTailPos := s.hist.tailPos } } := by
  have hle := h.pos.le
  have hres := h.reserved
  refine h.producerStep ⟨rfl, rfl, rfl, rfl, rfl, rfl, rfl⟩
    ⟨h.pos.passing, h.pos.committed, h.pos.reserved, h.pos.aligned, h.pos.aligned, le_refl _,
      hle.2.2.2, h.pos.head, h.pos.tail, h.pos.localHead, h.pos.tail, h.pos.consumerTail⟩
    (Keeps.refl _ _) (fun _ _ _ => Keeps.refl _ _) ?_ h.head
  simp only [ReservedInv, hp] at hres ⊢
  exact hres

/-- **The end of `psm_reserve`.** -/
theorem inv_take (h : s.Inv) (hcall : ProperCall len src) (hsp : s.HasSpace len)
    (hfill : s.AllFilled) (hcell : s.mem.cache .head = s.hist.headPos % psmLogSizeB ∧
      s.mem.pm .head = s.hist.headPos % psmLogSizeB)
    (hpad : s.Truncated len → s.mem.cache (cellAt s.hist.localHeadPos) = 0 ∧
      Covered psmLine s.mem .producer (lineAt s.hist.localHeadPos)) : (s.take len src).Inv := by
  have hnew := newSlot_filled h.pos hcall hpad
  refine h.producerStep ⟨rfl, rfl, rfl, rfl, rfl, rfl, rfl⟩ (positions_take h.pos hcall hsp)
    (Keeps.refl _ _) (fun _ _ _ => Keeps.refl _ _) ?_ ?_
  · cases src with
    | none =>
        show (s.take len none).AllFilled
        intro slot hslot
        rcases List.mem_append.mp hslot with hin | hin
        · exact hfill slot hin
        · rw [List.mem_singleton.mp hin, newSlot_length hcall]
          exact hnew
    | some b =>
        exact ⟨s.hist.reserved, s.newSlot len (some b), rfl, hfill, hnew, rfl, newSlot_place h.pos,
          rfl, Nat.zero_le _⟩
  · cases src with
    | none => exact hcell
    | some b => exact hcell

end Reserve

section Write

variable {s : Psm}

/-- A store to a position leaves alone every line that ends before it, or begins behind it. -/
theorem Positions.keeps_store (h : s.Positions) {x y : ℕ} (b : ℕ)
    (hx : s.hist.tailPos ≤ x ∧ x < s.hist.tailPos + psmLogSizeB)
    (hy : s.hist.tailPos ≤ y ∧ y < s.hist.tailPos + psmLogSizeB) (hne : x / 64 ≠ y / 64) :
    Keeps psmLine s.mem (s.mem.store (cellAt x) b) (lineAt y) :=
  Keeps.store s.mem (show psmLine (cellAt x) ≠ lineAt y from lineAt_ne h.aligned hx hy hne) b

theorem keeps_head_tail (m : PsmMemory) (i b : ℕ) :
    Keeps psmLine m (m.store (.buf i) b) .head ∧ Keeps psmLine m (m.store (.buf i) b) .tail :=
  ⟨Keeps.store m (show PsmLine.buf (i / 64) ≠ .head from nofun) b,
    Keeps.store m (show PsmLine.buf (i / 64) ≠ .tail from nofun) b⟩

/-- **The padding byte** is stored behind every slot. -/
theorem inv_pad {len : ℕ} {src : Option (List ℕ)} (h : s.Inv) (hp : s.producer = .reserving len src)
    (hsp : s.HasSpace len) (ht : s.Truncated len) :
    Psm.Inv { s with
      mem := s.mem.store (.buf s.localHead) 0
      producer := .padding len src } := by
  have hres := h.reserved
  simp only [ReservedInv, hp] at hres
  obtain ⟨hfill, hcall⟩ := hres
  have hcell : PsmCell.buf s.localHead = cellAt s.hist.localHeadPos := by
    rw [h.pos.localHead]
    rfl
  have hle := h.pos.le
  have hmod := h.pos.localHeadPos_mod
  have hk : ∀ x, s.hist.tailPos ≤ x → x < s.hist.localHeadPos →
      Keeps psmLine s.mem (s.mem.store (.buf s.localHead) 0) (lineAt x) := fun x h1 h2 => by
    rw [hcell]
    exact h.pos.keeps_store 0 ⟨by omega, by omega⟩ ⟨h1, by omega⟩ (by omega)
  obtain ⟨hhead, htail⟩ := keeps_head_tail s.mem s.localHead 0
  refine h.producerStep ⟨rfl, rfl, rfl, rfl, rfl, rfl, rfl⟩
    (h.pos.same _ _ _) htail (fun x h1 h2 => hk x h1 (by omega)) ?_ ?_
  · refine ⟨hfill.keeps h.pos rfl fun x h1 h2 => hk x (by omega) h2, hcall, hsp, ht, ?_⟩
    show (s.mem.store (.buf s.localHead) 0).cache (cellAt s.hist.localHeadPos) = 0
    rw [hcell, Memory.store_cache, Function.update_self]
  · have hcells := h.head
    simp only [HeadInv, hp] at hcells
    exact cell_keeps hhead hcells

/-- **One byte of the `memcpy`.** -/
theorem inv_copy {p i : ℕ} {src : List ℕ} (h : s.Inv) (hp : s.producer = .copying p src i)
    (hi : i < src.length) :
    Psm.Inv { s with
      mem := (s.mem.store (.buf (p + i)) (src.getD i 0)).flush .producer (.buf ((p + i) / 64))
      producer := .copying p src (i + 1) } := by
  have hres := h.reserved
  simp only [ReservedInv, hp] at hres
  obtain ⟨l, slot, hsplit, hl, hslot, rfl, rfl, hpush, -⟩ := hres
  have hin : slot ∈ s.hist.reserved := by rw [hsplit]; simp
  obtain ⟨hok, h1, h2⟩ := h.pos.reserved.mem hin
  obtain ⟨hcell, hwin⟩ := h.pos.reserved_byte hin hi
  have hline : PsmLine.buf ((slot.place + i) / 64) = lineAt (slot.pos + i) := by
    rw [lineAt, hok.place_add hi]
  rw [hcell, hline]
  have hle := h.pos.le
  have hstart := hok.start_le
  have hlt := hok.lt_stop hi
  have hmod := h.pos.headPos_mod
  have hk : ∀ x, s.hist.tailPos ≤ x → x < s.hist.tailPos + psmLogSizeB →
      (slot.pos + i) / 64 ≠ x / 64 → Keeps psmLine s.mem
        ((s.mem.store (cellAt (slot.pos + i)) (slot.bytes.getD i 0)).flush .producer
          (lineAt (slot.pos + i))) (lineAt x) := fun x hx1 hx2 hne =>
    (h.pos.keeps_store _ hwin ⟨hx1, hx2⟩ hne).trans (Keeps.flush _ _ _ _)
  obtain ⟨hhead, htail⟩ := keeps_head_tail s.mem (slot.place + i) (slot.bytes.getD i 0)
  rw [hcell] at hhead htail
  refine h.producerStep ⟨rfl, rfl, rfl, rfl, rfl, rfl, rfl⟩
    (h.pos.same _ _ _) (htail.trans (Keeps.flush _ _ _ _))
    (fun x h1 h2 => hk x h1 (by omega) (by omega)) ?_ ?_
  · refine ⟨l, slot, hsplit, fun x hx => ?_,
      hslot.copy hok hi hpush h.pos.aligned (by omega) (by omega), rfl, rfl, hpush, hi⟩
    -- the slots before it end before its first line
    have hxin : x ∈ s.hist.reserved := by rw [hsplit]; exact List.mem_append_left _ hx
    obtain ⟨hxok, hx1, hx2⟩ := h.pos.reserved.mem hxin
    have hxstop := hxok.stop_mod
    have hbefore : x.stop ≤ slot.start := by
      obtain ⟨r, hr1, hr2⟩ := Chain.split (hsplit ▸ h.pos.reserved)
      have hxr := (hr1.mem hx).2.2
      have hrs := (hr2.mem (List.mem_singleton_self slot)).2.1
      omega
    exact (hl x hx).keeps (fun y hy1 hy2 => hk y (by omega) (by omega) (by omega)) hxok (le_refl _)
  · have hcells := h.head
    simp only [HeadInv, hp] at hcells
    exact cell_keeps (hhead.trans (Keeps.flush _ _ _ _)) hcells

theorem write_slot (w b : ℕ) (slot : Slot) :
    (slot.write w b).start = slot.start ∧ (slot.write w b).pos = slot.pos ∧
      (slot.write w b).bytes.length = slot.bytes.length := by
  unfold Slot.write
  split_ifs
  · exact ⟨rfl, rfl, List.length_set⟩
  · exact ⟨rfl, rfl, rfl⟩

/-- The slot the byte is written to is filled as before, with the byte in it. -/
theorem filled_write_self {slot : Slot} {w b : ℕ} (h : s.Positions) (hin : slot ∈ s.hist.reserved)
    (hf : slot.Filled s.mem slot.bytes.length) (hpush : slot.pushed = false) (h1 : slot.place ≤ w)
    (h2 : w < slot.place + slot.bytes.length) :
    ({ slot with bytes := slot.bytes.set (w - slot.place) b } : Slot).Filled
      (s.mem.store (.buf w) b) slot.bytes.length := by
  obtain ⟨i, rfl⟩ := Nat.exists_eq_add_of_le h1
  obtain ⟨hok, hs1, hs2⟩ := h.reserved.mem hin
  have hi : i < slot.bytes.length := by omega
  obtain ⟨hcell, hwin⟩ := h.reserved_byte hin hi
  have hle := h.le
  have hstart := hok.start_le
  rw [hcell, Nat.add_sub_cancel_left]
  refine ⟨⟨fun hp => ?_, fun j hj => ?_⟩, fun hp => ?_, fun hp => ?_⟩
  · have hgt := (hok.padded.resolve_left hp).1
    show (s.mem.store (cellAt (slot.pos + i)) b).cache (cellAt slot.start) = 0
    rw [Memory.store_cache, Function.update_of_ne]
    · exact hf.cache.1 hp
    · exact cellAt_ne ⟨by omega, by omega⟩ hwin (by omega)
  · have hjlt := hok.lt_stop hj
    show (s.mem.store (cellAt (slot.pos + i)) b).cache (cellAt (slot.pos + j)) =
      (slot.bytes.set i b).getD j 0
    by_cases hij : i = j
    · obtain rfl := hij
      rw [Memory.store_cache, Function.update_self]
      simp [hj]
    · rw [Memory.store_cache, Function.update_of_ne]
      · simp only [List.getD_eq_getElem?_getD, List.getElem?_set_ne hij]
        rw [← List.getD_eq_getElem?_getD]
        exact hf.cache.2 j hj
      · exact cellAt_ne ⟨by omega, by omega⟩ hwin (by omega)
  · have hgt := (hok.padded.resolve_left hp).1
    have hpos := hok.pos_mod
    show Covered psmLine (s.mem.store (cellAt (slot.pos + i)) b) .producer (lineAt slot.start)
    exact (h.keeps_store b hwin ⟨by omega, by omega⟩ (by omega)).covered _ (hf.pad hp)
  · have hp' : slot.pushed = true := hp
    rw [hpush] at hp'
    cases hp'

/-- **A byte that the application writes** to a slot it has reserved. -/
theorem inv_write {w b : ℕ} (h : s.Inv) (hp : s.producer = .idle)
    (hw : ∃ slot ∈ s.hist.reserved, slot.pushed = false ∧ slot.place ≤ w ∧
      w < slot.place + slot.bytes.length) :
    Psm.Inv { s with
      mem := s.mem.store (.buf w) b
      hist := { s.hist with reserved := s.hist.reserved.map (Slot.write w b) } } := by
  have hfill := h.reserved
  simp only [ReservedInv, hp] at hfill
  obtain ⟨target, hin, hpush, hw1, hw2⟩ := hw
  obtain ⟨hok, hs1, hs2⟩ := h.pos.reserved.mem hin
  have hi : w - target.place < target.bytes.length := by omega
  obtain ⟨hcell, hwin⟩ := h.pos.reserved_byte hin hi
  rw [Nat.add_sub_cancel' hw1] at hcell
  have hle := h.pos.le
  have hstart := hok.start_le
  have hlt := hok.lt_stop hi
  have hmod := h.pos.headPos_mod
  have hal := hok.aligned
  have hstop := hok.stop_mod
  -- lines before and behind the slot are left alone
  have hk : ∀ x, s.hist.tailPos ≤ x → x < s.hist.tailPos + psmLogSizeB →
      (x < target.start ∨ target.stop ≤ x) →
      Keeps psmLine s.mem (s.mem.store (.buf w) b) (lineAt x) := fun x h1 h2 hout => by
    rw [hcell]
    exact h.pos.keeps_store b hwin ⟨h1, h2⟩ (by omega)
  obtain ⟨hhead, htail⟩ := keeps_head_tail s.mem w b
  refine h.producerStep ⟨rfl, rfl, rfl, rfl, rfl, rfl, rfl⟩
    ⟨h.pos.passing, h.pos.committed, h.pos.reserved.map (write_slot w b), h.pos.aligned,
      h.pos.localAligned, h.pos.localTail_le, h.pos.room, h.pos.head, h.pos.tail, h.pos.localHead,
      h.pos.localTail, h.pos.consumerTail⟩ htail
    (fun x h1 h2 => hk x h1 (by omega) (Or.inl (by omega))) ?_ ?_
  · simp only [ReservedInv, hp]
    intro slot' hslot'
    obtain ⟨slot, hslot, rfl⟩ := List.mem_map.mp hslot'
    rw [(write_slot w b slot).2.2]
    by_cases hc : slot.pushed = false ∧ slot.place ≤ w ∧ w < slot.place + slot.bytes.length
    · rw [Slot.write, if_pos hc]
      exact filled_write_self h.pos hslot (hfill slot hslot) hc.1 hc.2.1 hc.2.2
    · rw [Slot.write, if_neg hc]
      obtain ⟨hok', hs1', hs2'⟩ := h.pos.reserved.mem hslot
      refine (hfill slot hslot).keeps (fun x hx1 hx2 => ?_) hok' (le_refl _)
      rcases h.pos.reserved.apart hslot hin with he | hbefore | hbehind
      · rw [he] at hc
        exact absurd ⟨hpush, hw1, hw2⟩ hc
      · exact hk x (by omega) (by omega) (Or.inl (by omega))
      · exact hk x (by omega) (by omega) (Or.inr (by omega))
  · have hcells := h.head
    simp only [HeadInv, hp] at hcells ⊢
    exact cell_keeps hhead hcells

end Write

/-! ## 5. The foreground: `psm_commit` -/

section Commit

variable {s : Psm}

/-- A step of `psm_commit` that leaves the buffer alone. -/
theorem Inv.commitStep (h : s.Inv) {m : PsmMemory} {pc : Producer}
    (htail : Keeps psmLine s.mem m .tail) (hk : ∀ x, Keeps psmLine s.mem m (lineAt x))
    (hres : Psm.ReservedInv { s with mem := m, producer := pc })
    (hhead : Psm.HeadInv { s with mem := m, producer := pc }) :
    Psm.Inv { s with mem := m, producer := pc } :=
  h.producerStep ⟨rfl, rfl, rfl, rfl, rfl, rfl, rfl⟩ (h.pos.same m pc s.consumer) htail (fun x _ _ => hk x)
    hres hhead

theorem inv_commit {pushOnly : Bool} (h : s.Inv) (hp : s.producer = .idle)
    (hok : s.Proper (.commit pushOnly)) :
    Psm.Inv { s with producer := if pushOnly then .draining else .flushing s.head } := by
  have hfill := h.reserved
  have hcells := h.head
  simp only [ReservedInv, HeadInv, hp] at hfill hcells
  have hnul : s.AllNonNul := fun slot hslot => (hok slot hslot).1
  have hrefl : ∀ l, Keeps psmLine s.mem s.mem l := Keeps.refl s.mem
  cases pushOnly with
  | true =>
      refine h.commitStep (hrefl _) (fun x => hrefl _) ?_ hcells
      refine ⟨hfill, hnul, fun slot hslot => ⟨(hfill slot hslot).pad, ?_⟩⟩
      exact (hfill slot hslot).asked ((hok slot hslot).2 rfl)
  | false =>
      refine h.commitStep (hrefl _) (fun x => hrefl _) ?_ hcells
      exact ⟨hfill, hnul, s.hist.headPos, le_refl _, h.pos.le.2.2.1, h.pos.headPos_mod, h.pos.head,
        fun y h1 h2 => absurd h2 (not_lt.mpr h1)⟩

/-- The lines of a position's own line. -/
theorem lineAt_of_line {x y : ℕ} (hx : x % 64 = 0) (h1 : x ≤ y) (h2 : y < x + 64) :
    lineAt y = lineAt x := by
  unfold lineAt psmLogSizeB
  congr 1
  omega

/-- **One line of the flush loop.** -/
theorem inv_flush {i : ℕ} (h : s.Inv) (hp : s.producer = .flushing i) (hi : i ≠ s.localHead) :
    Psm.Inv { s with
      mem := s.mem.flush .producer (.buf (i / 64))
      producer := .flushing ((i + 64) % psmLogSizeB) } := by
  have hres := h.reserved
  have hcells := h.head
  simp only [ReservedInv, HeadInv, hp] at hres hcells
  obtain ⟨hfill, hnul, x, h1, h2, h3, rfl, hcov⟩ := hres
  have hk : ∀ l, Keeps psmLine s.mem (s.mem.flush .producer (lineAt x)) l := Keeps.flush _ _ _
  have hne : x ≠ s.hist.localHeadPos := fun e => hi (e ▸ h.pos.localHead.symm)
  have hmod := h.pos.localHeadPos_mod
  refine h.commitStep (hk _) (fun y => hk _) ?_ (cell_keeps (hk .head) hcells)
  refine ⟨hfill.keeps h.pos rfl fun y _ _ => hk _, hnul, x + 64, le_trans h1 (Nat.le_add_right _ _),
    show x + 64 ≤ s.hist.localHeadPos by omega, by omega, Nat.mod_add_mod _ _ _,
    fun y hy1 hy2 => ?_⟩
  by_cases hy : y < x
  · exact (hk _).covered _ (hcov y hy1 hy)
  · rw [lineAt_of_line h3 (not_lt.mp hy) hy2]
    exact Covered.of_flush _ _ _

/-- **The end of the flush loop**: the index is the local head, so all lines up to it are done. -/
theorem inv_flushed {i : ℕ} (h : s.Inv) (hp : s.producer = .flushing i) (hi : i = s.localHead) :
    Psm.Inv { s with producer := .draining } := by
  have hres := h.reserved
  have hcells := h.head
  simp only [ReservedInv, HeadInv, hp] at hres hcells
  obtain ⟨hfill, hnul, x, h1, h2, h3, rfl, hcov⟩ := hres
  have hle := h.pos.le
  have hx : x = s.hist.localHeadPos :=
    place_inj ⟨by omega, by omega⟩ ⟨by omega, by omega⟩
      (hi.trans h.pos.localHead)
  subst hx
  refine h.commitStep (Keeps.refl _ _) (fun y => Keeps.refl _ _) ?_ hcells
  refine ⟨hfill, hnul, fun slot hslot => ?_⟩
  obtain ⟨hok, hs1, hs2⟩ := h.pos.reserved.mem hslot
  have hstart := hok.start_le
  have hpos := hok.pos_lt
  refine ⟨fun _ => hcov _ hs1 (by omega), fun j hj => ?_⟩
  have hlt := hok.lt_stop hj
  exact hcov _ (by omega) (by omega)

/-- **The drain**: every line asked for is persistent. -/
theorem inv_drain (h : s.Inv) (hp : s.producer = .draining) (hd : s.mem.Drained .producer) :
    Psm.Inv { s with producer := .storingHead } := by
  have hres := h.reserved
  have hcells := h.head
  simp only [ReservedInv, HeadInv, hp] at hres hcells
  obtain ⟨hfill, hnul, hcov⟩ := hres
  refine h.commitStep (Keeps.refl _ _) (fun y => Keeps.refl _ _) ?_ hcells
  intro slot hslot
  exact ⟨(hfill slot hslot).cache, ⟨fun hpad => ((hcov slot hslot).1 hpad).synced hd,
    fun j hj => ((hcov slot hslot).2 j hj).synced hd⟩, hnul slot hslot⟩

theorem inv_storeHead (h : s.Inv) (hp : s.producer = .storingHead) :
    Psm.Inv { s with mem := s.mem.store .head s.localHead, producer := .flushingHead } := by
  have hres := h.reserved
  have hcells := h.head
  simp only [ReservedInv, HeadInv, hp] at hres hcells
  have hk : ∀ x, Keeps psmLine s.mem (s.mem.store .head s.localHead) (lineAt x) := fun x =>
    Keeps.store s.mem (show PsmLine.head ≠ lineAt x from nofun) _
  refine h.commitStep (Keeps.store s.mem (show PsmLine.head ≠ .tail from nofun) _) hk ?_ ?_
  · intro slot hslot
    exact (hres slot hslot).keeps (fun x _ _ => hk x) (h.pos.reserved.mem hslot).1
  · refine ⟨?_, Or.inl hcells.2⟩
    show (s.mem.store .head s.localHead).cache .head = _
    rw [Memory.store_cache, Function.update_self]
    exact h.pos.localHead

theorem inv_flushHead (h : s.Inv) (hp : s.producer = .flushingHead) :
    Psm.Inv { s with mem := s.mem.flush .producer .head, producer := .drainingHead } := by
  have hres := h.reserved
  have hcells := h.head
  simp only [ReservedInv, HeadInv, hp] at hres hcells
  have hk : ∀ l, Keeps psmLine s.mem (s.mem.flush .producer .head) l := Keeps.flush _ _ _
  refine h.commitStep (hk _) (fun x => hk _) ?_ ?_
  · intro slot hslot
    exact (hres slot hslot).keeps (fun x _ _ => hk _) (h.pos.reserved.mem hslot).1
  · exact ⟨hcells.1, hcells.2, Covered.of_flush _ _ _⟩

theorem inv_drainHead (h : s.Inv) (hp : s.producer = .drainingHead)
    (hd : s.mem.Drained .producer) : Psm.Inv { s with producer := .publishingHead } := by
  have hres := h.reserved
  have hcells := h.head
  simp only [ReservedInv, HeadInv, hp] at hres hcells
  refine h.commitStep (Keeps.refl _ _) (fun x => Keeps.refl _ _) hres ?_
  exact ⟨hcells.1, (hcells.2.2.synced hd .head rfl).trans hcells.1⟩

/-- **The new head is published**: what was reserved is committed. -/
theorem inv_publishHead (h : s.Inv) (hp : s.producer = .publishingHead) :
    Psm.Inv { s with
      head := s.localHead
      producer := .idle
      hist := { s.hist with
        headPos := s.hist.localHeadPos
        committed := s.hist.committed ++ s.hist.reserved
        reserved := [] } } := by
  have hres := h.reserved
  have hcells := h.head
  simp only [ReservedInv, HeadInv, hp] at hres hcells
  refine ⟨⟨h.pos.passing, h.pos.committed.append h.pos.reserved, .nil _, h.pos.aligned,
    h.pos.localAligned, h.pos.localTail_le, h.pos.room, h.pos.localHead, h.pos.tail,
    h.pos.localHead, h.pos.localTail, h.pos.consumerTail⟩, fun slot hslot => ?_, h.met,
    fun slot hslot => absurd hslot List.not_mem_nil, hcells, h.tail, ?_⟩
  · rw [← List.append_assoc] at hslot
    rcases List.mem_append.mp hslot with hin | hin
    · exact h.stored slot hin
    · exact hres slot hin
  · have hc := h.consumed
    unfold ConsumedInv at hc ⊢
    cases hcons : s.consumer <;> simp only [hcons] at hc ⊢
    case idle => exact hc
    case loaded head =>
      obtain ⟨hnil, l, l', q, hsplit, hl, hq⟩ := hc
      exact ⟨hnil, l, l' ++ s.hist.reserved, q, by rw [hsplit, List.append_assoc], hl, hq⟩

end Commit

/-! ## 6. The background and the hardware -/

section Consume

variable {s : Psm}

/-- **What `consume` comes to**: nothing when the loaded head is reached, else the first committed
    slot. -/
theorem consume_loaded {head len : ℕ} (h : s.Inv) (hc : s.consumer = .loaded head)
    (hok : s.Proper (.call len)) :
    (head = s.consumerTail ∧ consume s.buf (fun _ => len) head 2 s.consumerTail = .none) ∨
      ∃ slot rest, s.hist.committed = slot :: rest ∧ slot.start = s.hist.consumedPos ∧
        consume s.buf (fun _ => len) head 2 s.consumerTail =
          .entry slot.place (slot.stop % psmLogSizeB) := by
  have hcons := h.consumed
  simp only [ConsumedInv, hc] at hcons
  obtain ⟨-, l, l', q, hsplit, hl, rfl⟩ := hcons
  rw [h.pos.consumerTail]
  cases hl with
  | nil p => exact Or.inl ⟨rfl, consume_empty _ _ _⟩
  | @cons p q slot rest hp hslot hrest =>
      have hcommitted := h.pos.committed
      rw [hsplit] at hcommitted
      obtain ⟨r, hr1, hr2⟩ := hcommitted.split
      obtain rfl := Chain.unique (.cons hp hslot hrest) hr1
      have hle := h.pos.le
      have hq := hr2.le
      have hin : slot ∈ s.hist.passing ++ s.hist.committed := by rw [hsplit]; simp
      have hst := h.stored slot hin
      refine Or.inr ⟨slot, rest ++ l', hsplit, hp, ?_⟩
      rw [← hp]
      refine consume_slot hslot (hst.holds hslot) hst.nul (hok slot ?_) hrest.le (by omega)
      rw [hsplit]
      rfl

/-- **A call of the callback**: it meets the first committed slot. -/
theorem inv_call {head place newTail len : ℕ} (h : s.Inv) (hc : s.consumer = .loaded head)
    (hok : s.Proper (.call len))
    (he : consume s.buf (fun _ => len) head 2 s.consumerTail = .entry place newTail) :
    Psm.Inv { s with
      consumerTail := newTail
      consumer := .storingTail
      hist := s.hist.call ⟨place, fun i => s.buf (place + i)⟩ } := by
  rcases consume_loaded h hc hok with ⟨-, hnone⟩ | ⟨slot, rest, hcommitted, hstart, hentry⟩
  · rw [hnone] at he
    cases he
  rw [hentry, Consumed.entry.injEq] at he
  obtain ⟨rfl, rfl⟩ := he
  have hcons := h.consumed
  have htail := h.tail
  simp only [ConsumedInv, TailInv, hc] at hcons htail
  have hnil : s.hist.passing = [] := hcons.1
  have hcall : s.hist.call ⟨slot.place, fun i => s.buf (slot.place + i)⟩ = { s.hist with
      consumedPos := slot.stop
      passing := s.hist.passing ++ [slot]
      committed := rest
      called := s.hist.called ++ [⟨slot.place, fun i => s.buf (slot.place + i)⟩] } := by
    unfold History.call
    rw [hcommitted]
  have hin : slot ∈ s.hist.passing ++ s.hist.committed := by rw [hcommitted]; simp
  obtain ⟨hslot, -, -⟩ := h.pos.mem_stored hin
  have hchain := h.pos.committed
  rw [hcommitted] at hchain
  have hrest : Chain slot.stop rest s.hist.headPos := by
    cases hchain with
    | cons _ _ hrest => exact hrest
  have hpassing : Chain s.hist.tailPos (s.hist.passing ++ [slot]) slot.stop :=
    h.pos.passing.append (hstart ▸ Chain.single hslot)
  rw [hcall]
  refine h.consumerStep ⟨rfl, rfl, rfl, rfl, rfl, rfl⟩
    ⟨hpassing, hrest, h.pos.reserved, h.pos.aligned, h.pos.localAligned, h.pos.localTail_le,
      h.pos.room, h.pos.head, h.pos.tail, h.pos.localHead, h.pos.localTail, rfl⟩
    (Keeps.refl _ _) (fun _ => Keeps.refl _ _) (fun slot' hslot' => ?_) ?_ htail trivial
  · rw [hcommitted]
    simpa [or_assoc] using hslot'
  · show List.Forall₂ Slot.Met (s.hist.passed ++ (s.hist.passing ++ [slot])) _
    rw [← List.append_assoc]
    exact List.rel_append h.met (.cons (((h.stored slot hin).holds hslot).met hslot) .nil)

/-- A step of the background that calls no callback and moves no index. -/
theorem Inv.tailStep (h : s.Inv) {m : PsmMemory} {pc : Consumer} (hhead : Keeps psmLine s.mem m .head)
    (hk : ∀ x, Keeps psmLine s.mem m (lineAt x))
    (htail : Psm.TailInv { s with mem := m, consumer := pc })
    (hcons : Psm.ConsumedInv { s with mem := m, consumer := pc }) :
    Psm.Inv { s with mem := m, consumer := pc } :=
  h.consumerStep ⟨rfl, rfl, rfl, rfl, rfl, rfl⟩ (h.pos.same m s.producer pc) hhead hk (fun _ => id) h.met
    htail hcons

theorem inv_load (h : s.Inv) (hc : s.consumer = .idle) :
    Psm.Inv { s with consumer := .loaded s.head } := by
  have hcons := h.consumed
  have htail := h.tail
  simp only [ConsumedInv, TailInv, hc] at hcons htail
  exact h.tailStep (Keeps.refl _ _) (fun _ => Keeps.refl _ _) htail
    ⟨hcons, s.hist.committed, [], s.hist.headPos, (List.append_nil _).symm, h.pos.committed,
      h.pos.head⟩

theorem inv_callNothing {head : ℕ} (h : s.Inv) (hc : s.consumer = .loaded head) :
    Psm.Inv { s with consumer := .idle } := by
  have hcons := h.consumed
  have htail := h.tail
  simp only [ConsumedInv, TailInv, hc] at hcons htail
  exact h.tailStep (Keeps.refl _ _) (fun _ => Keeps.refl _ _) htail hcons.1

theorem inv_storeTail (h : s.Inv) (hc : s.consumer = .storingTail) :
    Psm.Inv { s with mem := s.mem.store .tail s.consumerTail, consumer := .flushingTail } := by
  have htail := h.tail
  simp only [TailInv, hc] at htail
  refine h.tailStep (Keeps.store s.mem (show PsmLine.tail ≠ .head from nofun) _)
    (fun x => Keeps.store s.mem (show PsmLine.tail ≠ lineAt x from nofun) _) ⟨?_, Or.inl htail.2⟩
    trivial
  show (s.mem.store .tail s.consumerTail).cache .tail = _
  rw [Memory.store_cache, Function.update_self]
  exact h.pos.consumerTail

theorem inv_flushTail (h : s.Inv) (hc : s.consumer = .flushingTail) :
    Psm.Inv { s with mem := s.mem.flush .consumer .tail, consumer := .drainingTail } := by
  have htail := h.tail
  simp only [TailInv, hc] at htail
  exact h.tailStep (Keeps.flush _ _ _ _) (fun _ => Keeps.flush _ _ _ _)
    ⟨htail.1, htail.2, Covered.of_flush _ _ _⟩ trivial

theorem inv_drainTail (h : s.Inv) (hc : s.consumer = .drainingTail)
    (hd : s.mem.Drained .consumer) : Psm.Inv { s with consumer := .publishingTail } := by
  have htail := h.tail
  simp only [TailInv, hc] at htail
  exact h.tailStep (Keeps.refl _ _) (fun _ => Keeps.refl _ _)
    ⟨htail.1, (htail.2.2.synced hd .tail rfl).trans htail.1⟩ trivial

/-- **The new tail is published**: the slot is passed. -/
theorem inv_publishTail (h : s.Inv) (hc : s.consumer = .publishingTail) :
    Psm.Inv { s with
      tail := s.consumerTail
      consumer := .idle
      hist := { s.hist with
        tailPos := s.hist.consumedPos
        passed := s.hist.passed ++ s.hist.passing
        passing := [] } } := by
  have htail := h.tail
  simp only [TailInv, hc] at htail
  have hle := h.pos.le
  have hlt := h.pos.localTail_le
  refine h.consumerStep ⟨rfl, rfl, rfl, rfl, rfl, rfl⟩
    ⟨.nil _, h.pos.committed, h.pos.reserved, h.pos.passing.mod h.pos.aligned, h.pos.localAligned,
      le_trans hlt hle.1, h.pos.room, h.pos.head, h.pos.consumerTail, h.pos.localHead,
      h.pos.localTail, h.pos.consumerTail⟩
    (Keeps.refl _ _) (fun _ => Keeps.refl _ _) (fun slot hslot => List.mem_append_right _ hslot) ?_
    htail rfl
  rw [List.append_nil]
  exact h.met

/-- **A write-back.** -/
theorem inv_evict (h : s.Inv) (l : PsmLine) : Psm.Inv { s with mem := s.mem.evict psmLine l } := by
  have hk : ∀ m, Keeps psmLine s.mem (s.mem.evict psmLine l) m := Keeps.evict _ _
  exact h.tailStep (hk _) (fun _ => hk _) (h.tail.keeps ⟨rfl, rfl, rfl, rfl, rfl, rfl, rfl⟩ (hk _))
    h.consumed

end Consume

/-- **Every step keeps the invariant.** -/
theorem inv_step {s s' : Psm} {a : PsmAct} (h : s.Inv) (hok : s.Proper a) (hs : s.Step a s') :
    s'.Inv := by
  have hres := h.reserved
  have hhead := h.head
  cases hs with
  | reserve len hp =>
      simp only [ReservedInv, HeadInv, hp] at hres hhead
      exact h.commitStep (Keeps.refl _ _) (fun _ => Keeps.refl _ _)
        ⟨hres, hok, nofun⟩ hhead
  | push src hp =>
      simp only [ReservedInv, HeadInv, hp] at hres hhead
      refine h.commitStep (Keeps.refl _ _)
        (fun _ => Keeps.refl _ _) ⟨hres, hok.1, fun b hb => ?_⟩ hhead
      rw [Option.mem_some_iff.mp hb]
  | spin hp hsp => exact inv_spin h hp
  | take hp hsp ht =>
      simp only [ReservedInv, HeadInv, hp] at hres hhead
      exact inv_take h hres.2 hsp hres.1 hhead fun htr => absurd htr ht
  | pad hp hsp ht => exact inv_pad h hp hsp ht
  | @flushPad len src hp =>
      simp only [ReservedInv, HeadInv, hp] at hres hhead
      obtain ⟨hfill, hcall, hsp, ht, hzero⟩ := hres
      have hk : ∀ l, Keeps psmLine s.mem (s.mem.flush .producer (.buf (s.localHead / 64))) l :=
        Keeps.flush _ _ _
      have hline : PsmLine.buf (s.localHead / 64) = lineAt s.hist.localHeadPos := by
        rw [h.pos.localHead]
        rfl
      have hflush : Psm.Inv { s with mem := s.mem.flush .producer (.buf (s.localHead / 64)) } :=
        h.commitStep (hk _) (fun _ => hk _)
          (h.reserved.keeps h.pos ⟨rfl, rfl, rfl, rfl, rfl, rfl⟩ fun _ => hk _)
          (h.head.keeps ⟨rfl, rfl, rfl, rfl, rfl, rfl⟩ (hk _))
      refine inv_take hflush hcall hsp (hfill.keeps h.pos rfl fun _ _ _ => hk _)
        (cell_keeps (hk .head) hhead) fun _ => ⟨hzero, ?_⟩
      rw [hline]
      exact Covered.of_flush _ _ _
  | copy hp hi => exact inv_copy h hp hi
  | copied hp hi =>
      simp only [ReservedInv, HeadInv, hp] at hres hhead
      obtain ⟨l, slot, hsplit, hl, hslot, rfl, -, -, hi'⟩ := hres
      refine h.commitStep (Keeps.refl _ _) (fun _ => Keeps.refl _ _)
        (fun x hx => ?_) hhead
      have hx' : x ∈ s.hist.reserved := hx
      rw [hsplit] at hx'
      rcases List.mem_append.mp hx' with hin | hin
      · exact hl x hin
      · obtain rfl := List.mem_singleton.mp hin
        exact le_antisymm hi' (not_lt.mp hi) ▸ hslot
  | write w b hp hw => exact inv_write h hp hw
  | commitNothing pushOnly hp hh => exact h
  | commit pushOnly hp hh => exact inv_commit h hp hok
  | flush hp hi => exact inv_flush h hp hi
  | flushed hp hi => exact inv_flushed h hp hi
  | drain hp hd => exact inv_drain h hp hd
  | storeHead hp => exact inv_storeHead h hp
  | flushHead hp => exact inv_flushHead h hp
  | drainHead hp hd => exact inv_drainHead h hp hd
  | publishHead hp => exact inv_publishHead h hp
  | load hc => exact inv_load h hc
  | callNothing len hc _ => exact inv_callNothing h hc
  | call len hc he => exact inv_call h hc hok he
  | storeTail hc => exact inv_storeTail h hc
  | flushTail hc => exact inv_flushTail h hc
  | drainTail hc hd => exact inv_drainTail h hc hd
  | publishTail hc => exact inv_publishTail h hc
  | evict l => exact inv_evict h l

theorem inv_start : Psm.start.Inv where
  pos := ⟨.nil _, .nil _, .nil _, rfl, rfl, le_refl _, by decide, rfl, rfl, rfl, rfl, rfl⟩
  stored slot hslot := absurd hslot List.not_mem_nil
  met := .nil
  reserved slot hslot := absurd hslot List.not_mem_nil
  head := ⟨rfl, rfl⟩
  tail := ⟨rfl, rfl⟩
  consumed := rfl

/-- **The invariant holds in every run.** -/
theorem inv_runs {s : Psm} (h : Runs Psm.Step Psm.Proper Psm.start s) : s.Inv :=
  h.invariant inv_start fun _ _ _ hi hok hs => inv_step hi hok hs

end Psm

end Persimmon
