/-
  File:      Persimmon/CommandLogLayout.lean
  Subject:   HOW THE COMMAND LOG LIES IN ITS BUFFER: positions and places, slots one behind the
             other, and what `consume` makes of them.

  A position counts bytes from the start of the log; its place is the position modulo
  `PSM_LOG_SIZE_B`. Inside a window of less than the buffer's size places and lines tell positions
  apart (`place_inj`, `lineAt_ne`).

  * `Slot.Ok` -- a slot is aligned, contiguous, and padded only up to the end of the buffer;
  * `Chain` -- slots one behind the other from one position to another;
  * `Slot.Holds` -- the buffer holds the slot's bytes, and its padding byte;
  * `consume_slot` -- `consume` finds the first slot of a chain; `walk_chain` -- and then the others.
-/
import Persimmon.CommandLog

namespace Persimmon

open PersistentMemory

/-! ## 1. Positions, places and lines -/

def cellAt (x : ℕ) : PsmCell := .buf (x % psmLogSizeB)

def lineAt (x : ℕ) : PsmLine := .buf (x % psmLogSizeB / 64)

@[simp] theorem psmLine_cellAt (x : ℕ) : psmLine (cellAt x) = lineAt x := rfl

/-- In a window of the buffer's size a place belongs to one position. -/
theorem place_inj {t x y : ℕ} (hx : t ≤ x ∧ x < t + psmLogSizeB) (hy : t ≤ y ∧ y < t + psmLogSizeB)
    (h : x % psmLogSizeB = y % psmLogSizeB) : x = y := by
  unfold psmLogSizeB at *
  omega

theorem cellAt_ne {t x y : ℕ} (hx : t ≤ x ∧ x < t + psmLogSizeB) (hy : t ≤ y ∧ y < t + psmLogSizeB)
    (h : x ≠ y) : cellAt x ≠ cellAt y := fun e =>
  h (place_inj hx hy (PsmCell.buf.inj e))

/-- In a window of whole lines a line belongs to one line of positions. -/
theorem lineAt_ne {t x y : ℕ} (ht : t % 64 = 0) (hx : t ≤ x ∧ x < t + psmLogSizeB)
    (hy : t ≤ y ∧ y < t + psmLogSizeB) (h : x / 64 ≠ y / 64) : lineAt x ≠ lineAt y := by
  intro e
  have e' : x % psmLogSizeB / 64 = y % psmLogSizeB / 64 := PsmLine.buf.inj e
  unfold psmLogSizeB at *
  omega

/-! ## 2. Whole lines -/

/-- What the 32-bit mask leaves of a 64-bit number. -/
theorem land_mask (n : ℕ) : n &&& (2 ^ 32 - 1 - 63) = n % 2 ^ 32 / 64 * 64 := by
  have hmask : 2 ^ 32 - 1 - 63 = 2 ^ 6 * (2 ^ 26 - 1) := rfl
  have hright : n % 2 ^ 32 / 64 * 64 = 2 ^ 6 * (n % 2 ^ 32 / 2 ^ 6) := Nat.mul_comm _ _
  rw [hmask, hright]
  refine Nat.eq_of_testBit_eq fun i => ?_
  simp only [Nat.testBit_and, Nat.testBit_two_pow_mul, Nat.testBit_two_pow_sub_one,
    Nat.testBit_div_two_pow, Nat.testBit_mod_two_pow]
  by_cases hi : 6 ≤ i
  · have h1 : i - 6 + 6 = i := Nat.sub_add_cancel hi
    have h2 : i - 6 < 26 ↔ i < 32 := by omega
    simp [hi, h1, h2, Bool.and_comm]
  · simp [hi]

/-- **The rounding keeps the low 32 bits.** -/
theorem align_eq_mod (len : ℕ) : alignToCacheLineSize len = (len + 63) % 2 ^ 32 / 64 * 64 := by
  unfold alignToCacheLineSize add64
  rw [land_mask]
  omega

/-- A length that leaves the 32 bits room is rounded up to whole lines. -/
theorem align_eq {len : ℕ} (h : len + 63 < 2 ^ 32) :
    alignToCacheLineSize len = (len + 63) / 64 * 64 := by
  rw [align_eq_mod, Nat.mod_eq_of_lt h]

theorem align_mod (len : ℕ) : alignToCacheLineSize len % 64 = 0 := by
  rw [align_eq_mod]
  exact Nat.mul_mod_left _ _

namespace ProperLen

variable {len : ℕ}

theorem align_eq (h : ProperLen len) : alignToCacheLineSize len = (len + 63) / 64 * 64 := by
  have hlen := h.2
  refine Persimmon.align_eq ?_
  unfold psmLogSizeB at hlen
  omega

theorem le_align (h : ProperLen len) : len ≤ alignToCacheLineSize len := by
  rw [h.align_eq]
  omega

theorem align_pos (h : ProperLen len) : 64 ≤ alignToCacheLineSize len := by
  have hlen := h.1
  rw [h.align_eq]
  omega

theorem align_le (h : ProperLen len) : alignToCacheLineSize len ≤ psmLogSizeB - 64 := by
  have hlen := h.2
  rw [h.align_eq]
  unfold psmLogSizeB at hlen ⊢
  omega

end ProperLen

/-! ## 3. Slots -/

/-- **A slot**: it begins at a line, its bytes are contiguous, and padding ends at the end of the
    buffer. -/
structure Slot.Ok (s : Slot) : Prop where
  aligned : s.start % 64 = 0
  len : ProperLen s.bytes.length
  fits : s.place + alignToCacheLineSize s.bytes.length ≤ psmLogSizeB
  padded : s.start = s.pos ∨
    (s.start < s.pos ∧ s.pos < s.start + psmLogSizeB ∧ s.pos % psmLogSizeB = 0)

/-- Padding byte and bytes of the slot are in the buffer. -/
def Slot.Holds (buf : ℕ → ℕ) (s : Slot) : Prop :=
  (s.start ≠ s.pos → buf (s.start % psmLogSizeB) = 0) ∧
    ∀ j < s.bytes.length, buf (s.place + j) = s.bytes.getD j 0

namespace Slot.Ok

variable {s : Slot}

theorem start_le (h : s.Ok) : s.start ≤ s.pos := by
  rcases h.padded with he | he
  · exact he.le
  · exact he.1.le

theorem pos_mod (h : s.Ok) : s.pos % 64 = 0 := by
  have hal := h.aligned
  rcases h.padded with he | ⟨-, -, he⟩
  · omega
  · unfold psmLogSizeB at he
    omega

theorem pos_lt (h : s.Ok) : s.pos + 64 ≤ s.stop := by
  have hlen := h.len.align_pos
  unfold Slot.stop
  omega

theorem stop_mod (h : s.Ok) : s.stop % 64 = 0 := by
  have hpos := h.pos_mod
  have hal := align_mod s.bytes.length
  unfold Slot.stop
  omega

/-- The bytes do not wrap around. -/
theorem place_add (h : s.Ok) {j : ℕ} (hj : j < s.bytes.length) :
    (s.pos + j) % psmLogSizeB = s.place + j := by
  have hfits := h.fits
  have hle := h.len.le_align
  unfold Slot.place psmLogSizeB at *
  omega

theorem lt_stop (h : s.Ok) {j : ℕ} (hj : j < s.bytes.length) : s.pos + j < s.stop := by
  have hle := h.len.le_align
  unfold Slot.stop
  omega

end Slot.Ok

/-- **Slots one behind the other**, from position `p` to position `q`. -/
inductive Chain : ℕ → List Slot → ℕ → Prop where
  | nil (p : ℕ) : Chain p [] p
  | cons {p q : ℕ} {s : Slot} {rest : List Slot} (hp : s.start = p) (hok : s.Ok)
      (h : Chain s.stop rest q) : Chain p (s :: rest) q

namespace Chain

variable {p q r : ℕ} {l l' : List Slot}

theorem append (h : Chain p l q) (h' : Chain q l' r) : Chain p (l ++ l') r := by
  induction h with
  | nil p => exact h'
  | cons hp hok _ ih => exact .cons hp hok (ih h')

theorem single {s : Slot} (hok : s.Ok) : Chain s.start [s] s.stop := .cons rfl hok (.nil _)

theorem le (h : Chain p l q) : p ≤ q := by
  induction h with
  | nil p => exact le_refl p
  | cons hp hok _ ih =>
      have hstart := hok.start_le
      have hpos := hok.pos_lt
      omega

/-- A slot of the chain lies between its ends. -/
theorem mem (h : Chain p l q) {s : Slot} (hs : s ∈ l) : s.Ok ∧ p ≤ s.start ∧ s.stop ≤ q := by
  induction h with
  | nil p => exact absurd hs List.not_mem_nil
  | @cons p q s' rest hp hok hrest ih =>
      rcases List.mem_cons.mp hs with rfl | hs
      · exact ⟨hok, hp.ge, hrest.le⟩
      · obtain ⟨h1, h2, h3⟩ := ih hs
        have hstart := hok.start_le
        have hpos := hok.pos_lt
        exact ⟨h1, by omega, h3⟩

/-- Two slots of a chain are one, or one ends before the other begins. -/
theorem apart (h : Chain p l q) {s s' : Slot} (hs : s ∈ l) (hs' : s' ∈ l) :
    s = s' ∨ s.stop ≤ s'.start ∨ s'.stop ≤ s.start := by
  induction h with
  | nil p => exact absurd hs List.not_mem_nil
  | @cons p q a rest hp hok hrest ih =>
      rcases List.mem_cons.mp hs with he | hin <;> rcases List.mem_cons.mp hs' with he' | hin'
      · exact Or.inl (he.trans he'.symm)
      · exact Or.inr (Or.inl (he ▸ (hrest.mem hin').2.1))
      · exact Or.inr (Or.inr (he' ▸ (hrest.mem hin).2.1))
      · exact ih hin hin'

theorem mod (h : Chain p l q) (hp : p % 64 = 0) : q % 64 = 0 := by
  induction h with
  | nil p => exact hp
  | cons _ hok _ ih => exact ih hok.stop_mod

theorem mod_left (h : Chain p l q) (hq : q % 64 = 0) : p % 64 = 0 := by
  cases h with
  | nil p => exact hq
  | cons hp hok _ => exact hp ▸ hok.aligned

theorem split {l l' : List Slot} (h : Chain p (l ++ l') q) : ∃ r, Chain p l r ∧ Chain r l' q := by
  induction l generalizing p with
  | nil => exact ⟨p, .nil p, h⟩
  | cons s l ih =>
      cases h with
      | cons hp hok hrest =>
          obtain ⟨r, h1, h2⟩ := ih hrest
          exact ⟨r, .cons hp hok h1, h2⟩

/-- A change of bytes moves no slot. -/
theorem map {f : Slot → Slot} (h : Chain p l q)
    (hf : ∀ s, (f s).start = s.start ∧ (f s).pos = s.pos ∧ (f s).bytes.length = s.bytes.length) :
    Chain p (l.map f) q := by
  induction h with
  | nil p => exact .nil p
  | @cons p q s rest hp hok _ ih =>
      obtain ⟨h1, h2, h3⟩ := hf s
      have hstop : (f s).stop = s.stop := by simp only [Slot.stop, h2, h3]
      refine .cons (h1.trans hp) ⟨by rw [h1]; exact hok.aligned, by rw [h3]; exact hok.len, ?_, ?_⟩
        (hstop.symm ▸ ih)
      · rw [Slot.place, h2, h3]
        exact hok.fits
      · rw [h1, h2]
        exact hok.padded

theorem unique (h : Chain p l q) (h' : Chain p l r) : q = r := by
  induction h with
  | nil p =>
      cases h'
      rfl
  | cons _ _ _ ih =>
      cases h' with
      | cons _ _ hrest => exact ih hrest

/-- A chain that gets nowhere is empty. -/
theorem eq_nil (h : Chain p l p) : l = [] := by
  cases h with
  | nil p => rfl
  | cons hp hok hrest =>
      have hle := hrest.le
      have hstart := hok.start_le
      have hpos := hok.pos_lt
      omega

end Chain

/-! ## 4. Consuming a chain -/

theorem consume_empty (buf f : ℕ → ℕ) (head : ℕ) : consume buf f head 2 head = .none := if_pos rfl

/-- **`consume` finds the slot at the tail**, behind its padding if there is some, and stops behind
    it; no assertion fails, and one recursion is enough. -/
theorem consume_slot {s : Slot} {buf : ℕ → ℕ} {len q : ℕ} (hok : s.Ok) (hh : s.Holds buf)
    (hnul : s.bytes.getD 0 0 ≠ 0)
    (hlen : alignToCacheLineSize len = alignToCacheLineSize s.bytes.length) (hq : s.stop ≤ q)
    (hw : q + 64 ≤ s.start + psmLogSizeB) :
    consume buf (fun _ => len) (q % psmLogSizeB) 2 (s.start % psmLogSizeB) =
      .entry s.place (s.stop % psmLogSizeB) := by
  have hfirst : buf s.place ≠ 0 := by
    rw [← Nat.add_zero s.place, hh.2 0 hok.len.1]
    exact hnul
  have hstart := hok.start_le
  have hpos := hok.pos_lt
  have hmod := hok.pos_mod
  have hfits := hok.fits
  -- what `consume` does at the first byte of the entry
  have hentry : ∀ fuel, consume buf (fun _ => len) (q % psmLogSizeB) (fuel + 1) s.place =
      .entry s.place (s.stop % psmLogSizeB) := fun fuel => by
    have hne : s.place ≠ q % psmLogSizeB := fun e => by
      have := place_inj ⟨hstart, by omega⟩ ⟨by omega, by omega⟩ e
      omega
    have hal : ¬ s.place % 64 ≠ 0 := by
      unfold Slot.place psmLogSizeB
      omega
    have hnext : (s.place + alignToCacheLineSize s.bytes.length) % psmLogSizeB =
        s.stop % psmLogSizeB := by
      unfold Slot.stop Slot.place psmLogSizeB
      omega
    rw [consume, if_neg hne, if_neg hfirst, if_neg hal, hlen, if_pos hfits, hnext]
  rcases hok.padded with he | ⟨hlt, hlt', hzero⟩
  · rw [he]
    exact hentry 1
  · have hpad : buf (s.start % psmLogSizeB) = 0 := hh.1 (by omega)
    have hne : s.start % psmLogSizeB ≠ q % psmLogSizeB := fun e => by
      have := place_inj ⟨le_refl _, by omega⟩ ⟨by omega, by omega⟩ e
      omega
    have hgt : q % psmLogSizeB < s.start % psmLogSizeB := by
      unfold psmLogSizeB at *
      omega
    have hplace : s.place = 0 := hzero
    rw [consume, if_neg hne, if_pos hpad, if_pos hgt, ← hplace]
    exact hentry 0

/-- **Consuming a chain** meets its slots in order and nothing else, and ends at the head. -/
theorem walk_chain {buf : ℕ → ℕ} {p q : ℕ} {l : List Slot} {lens : List ℕ} (h : Chain p l q)
    (hw : q + 64 ≤ p + psmLogSizeB) (hh : ∀ s ∈ l, s.Holds buf ∧ s.bytes.getD 0 0 ≠ 0)
    (hlens : List.Forall₂ (fun s len => alignToCacheLineSize len =
      alignToCacheLineSize s.bytes.length) l lens) :
    walk buf (q % psmLogSizeB) lens (p % psmLogSizeB) = some (l.map Slot.place) := by
  induction h generalizing lens with
  | nil p =>
      cases hlens
      exact if_pos rfl
  | @cons p q s rest hp hok hrest ih =>
      cases hlens with
      | @cons _ len _ lens hlen hlens =>
          obtain ⟨h1, h2⟩ := hh s List.mem_cons_self
          have hstart := hok.start_le
          have hpos := hok.pos_lt
          have hc := consume_slot hok h1 h2 hlen hrest.le (hp ▸ hw)
          rw [walk, ← hp, hc]
          simp only
          rw [ih (by omega) (fun s' hs' => hh s' (List.mem_cons_of_mem _ hs')) hlens]
          rfl

end Persimmon
