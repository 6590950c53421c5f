/-
  File:      Persimmon/CommandLogLength.lean
  Subject:   THE LENGTHS `psm_reserve` ADMITS, and the space it hands out for them (src/fg.cc;
             src/internal.h: `align_to_cache_line_size`).

  The two assertions of `psm_reserve` look at the rounded length. The rounding adds in 64 bits, but
  its mask has 32: a length is admitted by its low 32 bits.

  * `Admitted`, `admitted_iff` -- which lengths pass the assertions, among all of them;
  * `Psm.InReserve`, `InReserve.positions` -- the foreground is in its spin loop, called with any
    length, and the background and the hardware go on;
  * `Psm.Covers`, `Psm.Apart` -- the place returned has room for the entry, and nothing unconsumed
    lies there; `covers_of_proper`, `apart_of_proper` -- so it is for the lengths that may be
    reserved;
  * `reserves_enough_iff` -- and the lengths that may not are rejected, as long as 32 bits hold them.
-/
import Persimmon.CommandLogSafety

namespace Persimmon

open PersistentMemory Transition

/-! ## 1. The assertions -/

/-- The two assertions of `psm_reserve`, on the rounded length. -/
def Admitted (len : ℕ) : Prop :=
  0 < alignToCacheLineSize len ∧ alignToCacheLineSize len ≤ psmLogSizeB - 1

instance (len : ℕ) : Decidable (Admitted len) := inferInstanceAs (Decidable (_ ∧ _))

/-- **A length is admitted by its low 32 bits.** -/
theorem admitted_iff {len : ℕ} : Admitted len ↔ ProperLen (len % 2 ^ 32) := by
  unfold Admitted ProperLen psmLogSizeB
  rw [align_eq_mod]
  omega

theorem admitted_iff_of_lt {len : ℕ} (h : len < 2 ^ 32) : Admitted len ↔ ProperLen len := by
  rw [admitted_iff, Nat.mod_eq_of_lt h]

/-! ## 2. A call that waits -/

namespace Psm

variable {s u : Psm} {len : ℕ} {src : Option (List ℕ)}

/-- **The foreground has called `psm_reserve` in state `s`** and is in its spin loop in state `u`;
    the background and the hardware have gone on. -/
def InReserve (s : Psm) (len : ℕ) (src : Option (List ℕ)) (u : Psm) : Prop :=
  Runs Psm.Step (fun v a => v.producer = .reserving len src ∧ v.Proper a)
    { s with producer := .reserving len src } u ∧ u.producer = .reserving len src

/-- The same state, with a call of length 1 in place of the one that is made. -/
def withLen1 (s : Psm) : Psm := { s with producer := .reserving 1 none }

theorem take_producer_ne (s : Psm) {n m : ℕ} {b b' : Option (List ℕ)} :
    (s.take n b).producer ≠ .reserving m b' := by
  cases b with
  | none => exact nofun
  | some b => exact nofun

/-- **A step while the call waits** does to the log what it does while a short call waits. -/
theorem withLen1_step {v v' : Psm} {a : PsmAct} (hp : v.producer = .reserving len src)
    (hp' : v'.producer = .reserving len src) (hok : v.Proper a) (hs : v.Step a v')
    (h : v.withLen1.Inv) : v'.withLen1.Inv := by
  cases hs with
  | spin h1 hsp => exact inv_spin h rfl
  | load hc => exact inv_step h (a := .consumer) trivial (Step.load hc)
  | callNothing n hc he => exact inv_step h (a := .call n) hok (Step.callNothing n hc he)
  | call n hc he => exact inv_step h (a := .call n) hok (Step.call n hc he)
  | storeTail hc => exact inv_step h (a := .consumer) trivial (Step.storeTail hc)
  | flushTail hc => exact inv_step h (a := .consumer) trivial (Step.flushTail hc)
  | drainTail hc hd => exact inv_step h (a := .consumer) trivial (Step.drainTail hc hd)
  | publishTail hc => exact inv_step h (a := .consumer) trivial (Step.publishTail hc)
  | evict l => exact inv_step h (a := .evict l) trivial (Step.evict l)
  | take h1 hsp ht => exact absurd hp' (take_producer_ne v)
  | pad h1 hsp ht => cases hp'
  | _ => simp_all

/-- **The indices stand for what they stood for**, whatever the length of the call is. -/
theorem InReserve.positions (h : s.InReserve len src u) (hinv : s.Inv) (hidle : s.producer = .idle) :
    u.Positions := by
  have hrun : u.producer = .reserving len src → u.withLen1.Inv := by
    refine @Runs.invariant _ _ _ _ _ _
      (fun v => v.producer = .reserving len src → v.withLen1.Inv) h.1 (fun _ => ?_)
      fun v a v' ih hok hs hp' => withLen1_step hok.1 hp' hok.2 hs (ih hok.1)
    exact inv_step hinv (a := .reserve 1) ⟨le_refl 1, by decide⟩ (Step.reserve 1 hidle)
  exact (hrun h.2).pos.same u.mem u.producer u.consumer

end Psm

/-! ## 3. The space handed out -/

/-- A byte of the space of a slot: padding, bytes, and what is behind them in its last line. -/
def Slot.Has (slot : Slot) (w : ℕ) : Prop :=
  ∃ x, slot.start ≤ x ∧ x < slot.stop ∧ x % psmLogSizeB = w

namespace Psm

variable {s u : Psm} {len : ℕ} {src : Option (List ℕ)}

/-- What `psm_reserve` returns, as a place in the buffer. -/
def returned (s : Psm) (len : ℕ) : ℕ := if s.Truncated len then 0 else s.localHead

/-- **The place returned has room for the entry**: inside the buffer, and between the old local head,
    or the front of the buffer, and the new one, which is 0 at the end of the buffer. -/
structure Covers (s : Psm) (len : ℕ) : Prop where
  inBuf : s.returned len + len ≤ psmLogSizeB
  reserved : s.returned len + len ≤ (s.take len none).localHead ∨ (s.take len none).localHead = 0

/-- **It is apart** from every slot that the tail has not passed. -/
def Apart (s : Psm) (len : ℕ) : Prop :=
  ∀ slot ∈ s.hist.passing ++ s.hist.committed ++ s.hist.reserved, ∀ j < len,
    ¬ slot.Has (s.returned len + j)

/-- The local head lies in the buffer, whatever is asked of the log. -/
theorem localHead_lt_step {s' : Psm} {a : PsmAct} (h : s.localHead < psmLogSizeB)
    (hs : s.Step a s') : s'.localHead < psmLogSizeB := by
  cases hs with
  | take hp hsp ht => exact Nat.mod_lt _ (by decide)
  | flushPad hp => exact Nat.mod_lt _ (by decide)
  | _ => exact h

theorem localHead_lt (h : Runs Psm.Step Always Psm.start s) : s.localHead < psmLogSizeB :=
  @Runs.invariant _ _ _ _ _ _ (fun s => s.localHead < psmLogSizeB) h (by decide)
    fun _ _ _ hlt _ hs => localHead_lt_step hlt hs

/-- **A length that may be reserved is covered.** -/
theorem covers_of_proper (hlt : s.localHead < psmLogSizeB) (hlen : ProperLen len) : s.Covers len := by
  have hle := hlen.le_align
  have hal := hlen.align_le
  have hhead : (s.take len none).localHead = (s.localHead + s.needed len) % psmLogSizeB := rfl
  unfold needed at hhead
  by_cases ht : s.Truncated len
  · rw [if_pos ht] at hhead
    have hret : s.returned len = 0 := if_pos ht
    refine ⟨?_, Or.inl ?_⟩
    · rw [hret]
      unfold psmLogSizeB at *
      omega
    · rw [hret, hhead]
      unfold psmLogSizeB at *
      omega
  · rw [if_neg ht] at hhead
    have hret : s.returned len = s.localHead := if_neg ht
    have hfit : s.localHead + alignToCacheLineSize len ≤ psmLogSizeB := Nat.le_of_not_lt ht
    refine ⟨?_, ?_⟩
    · rw [hret]
      omega
    · rw [hret, hhead]
      unfold psmLogSizeB at *
      omega

/-- **Once the loop has ended, its place is free.** -/
theorem apart_of_proper (h : s.Positions) (hlen : ProperLen len) (hsp : s.HasSpace len) :
    s.Apart len := by
  have hcall : ProperCall len none := ⟨hlen, nofun⟩
  have hok : (s.newSlot len none).Ok := newSlot_ok h hcall
  have hlength : (s.newSlot len none).bytes.length = len := newSlot_length hcall
  have hplace : (s.newSlot len none).place = s.returned len := newSlot_place h
  intro slot hslot j hj hex
  obtain ⟨x, hx1, hx2, hx⟩ := hex
  obtain ⟨-, hs1, hs2⟩ := ((h.passing.append h.committed).append h.reserved).mem hslot
  have hstart : s.hist.localHeadPos ≤ (s.newSlot len none).pos := hok.start_le
  have hstop : (s.newSlot len none).pos + j < s.hist.localHeadPos + s.needed len := by
    have hlt := hok.lt_stop (hlength.symm ▸ hj)
    rwa [newSlot_stop hcall] at hlt
  have hroom := hsp.room h hlen
  have htail := h.localTail_le
  have hadd := hok.place_add (hlength.symm ▸ hj)
  rw [hplace, ← hx] at hadd
  -- both positions lie between the tail and the new local head
  have heq := place_inj (t := s.hist.tailPos) ⟨by omega, by omega⟩ ⟨by omega, by omega⟩ hadd
  omega

/-- **`psm_reserve` reserves enough** for the length: admitted, it is covered in whatever state the
    call stands, and apart where the log is used as it asks; and where it does not fit in whole
    lines, it is not admitted. -/
structure ReservesEnough (len : ℕ) : Prop where
  covers : Admitted len → ∀ u src, Runs Psm.Step Always Psm.start u →
    u.producer = .reserving len src → u.Covers len
  apart : Admitted len → ∀ s u src, Runs Psm.Step Psm.Proper Psm.start s → s.producer = .idle →
    s.InReserve len src u → u.HasSpace len → u.Apart len
  rejects : psmLogSizeB - 1 < (len + 63) / 64 * 64 → ¬ Admitted len

/-- **It does exactly for the lengths below 2^32**, and for those whose low 32 bits are not admitted
    either. -/
theorem reserves_enough_iff {len : ℕ} :
    ReservesEnough len ↔ len < 2 ^ 32 ∨ len % 2 ^ 32 = 0 ∨ psmLogSizeB - 64 < len % 2 ^ 32 := by
  constructor
  · intro henough
    by_contra hno
    have hadm : Admitted len := admitted_iff.mpr ⟨by omega, by omega⟩
    refine henough.rejects ?_ hadm
    unfold psmLogSizeB at hno ⊢
    omega
  · intro hcond
    by_cases hlt : len < 2 ^ 32
    · have hproper : Admitted len → ProperLen len := (admitted_iff_of_lt hlt).mp
      refine ⟨fun hadm u src hrun _ => covers_of_proper (localHead_lt hrun) (hproper hadm),
        fun hadm s u src hrun hidle hcall hsp => ?_, fun hbig hadm => ?_⟩
      · exact apart_of_proper (hcall.positions (inv_runs hrun) hidle) (hproper hadm) hsp
      · have hle := (hproper hadm).2
        unfold psmLogSizeB at hle hbig
        omega
    · have hno : ¬ Admitted len := fun hadm => by
        obtain ⟨h1, h2⟩ := admitted_iff.mp hadm
        omega
      exact ⟨fun hadm => absurd hadm hno, fun hadm => absurd hadm hno, fun _ => hno⟩

/-- **An entry of 4 GiB and one byte passes the assertions**, and one line is reserved for it. -/
theorem not_reservesEnough_4gib : ¬ ∀ len < 2 ^ 64, ReservesEnough len := by
  intro H
  have hadm : Admitted (2 ^ 32 + 1) := by decide
  have hrun : Runs Psm.Step Always Psm.start
      { Psm.start with producer := .reserving (2 ^ 32 + 1) none } :=
    Runs.start.step (PsmAct.reserve (2 ^ 32 + 1)) trivial (Step.reserve (2 ^ 32 + 1) rfl)
  have hin := ((H (2 ^ 32 + 1) (by decide)).covers hadm _ none hrun rfl).inBuf
  exact absurd hin (by decide)

end Psm

end Persimmon
