/-
  File:      Persimmon/HandShake.lean
  Subject:   THE HAND-SHAKE OF A RECOVERY between the two processes (src/undo/instrument.cc:
             `dr_client_main`; src/undo/undo_fg.cc: `undo_recover_foreground`; src/fg.cc: the two
             `pipe`s of `psm_init`, which `fork` hands to both processes).

  The background sends the regions and the tail through one pipe, lets go of it and waits for one
  byte from the other; the foreground maps the regions, takes the tail and sends the byte. Each
  process closes the ends it does not use, and this is what wakes the other one should it die. Every
  close, write and read is a step, and a process may be killed between any two of them.

  The pipes hold words as in `HandOff.lean`: a region is three of them, the tail and the last byte
  are one each. `Lib/Pipe.lean` has the pipes.

  * `BackgroundPc`, `ForegroundPc`, `program` -- the two programs, and the ends each place holds;
  * `Good` -- the invariant: what is on its way, what the foreground still expects, who has seen
    the last byte;
  * `inv_reached` -- it holds in every reachable state.
-/
import Persimmon.HandOff
import Persimmon.Lib.Pipe

namespace Persimmon

open Pipe Transition

/-! ## 1. The programs -/

/-- The pipes: `recovery_fds_btf` and `recovery_fds_ftb`. -/
inductive Wire where
  | btf
  | ftb
  deriving DecidableEq, Repr

inductive Proc where
  | background
  | foreground
  deriving DecidableEq, Repr

/-- The ends a process holds. -/
abbrev WireEnds := Wire → End → Bool

/-- Where the background stands in `dr_client_main`. -/
inductive BackgroundPc where
  | closingRead
  | closingWrite
  /-- `send_regions`, with the records that are left. -/
  | sending (rest : List (List ℕ))
  | sendingTail
  | closing
  /-- `my_read(recv_fd, &buf, 1)` -/
  | waiting
  | closingAck
  /-- The instrumented execution has begun. -/
  | running
  /-- An assertion has failed. -/
  | aborting (ends : WireEnds)

/-- Where the foreground stands in `undo_recover_foreground`. -/
inductive ForegroundPc where
  | closingWrite
  | closingRead
  /-- The loop of `map_recovered_regions`. -/
  | mapping (m : Mapping)
  | readingTail (m : Mapping)
  | closing (m : Mapping) (tail : ℤ)
  | acking (m : Mapping) (tail : ℤ)
  | closingAck (m : Mapping) (tail : ℤ)
  /-- `psm_init` goes on, with the tail if one was received. -/
  | replaying (m : Mapping) (tail : Option ℤ)
  /-- `psm_init` has returned an error; these ends are still open. -/
  | failed (err : ℕ) (ends : WireEnds)

abbrev Place := BackgroundPc ⊕ ForegroundPc

/-- What the two processes start from: `vm.mmap_min_addr`, the region files, the regions the
    background has recovered and its `recovered_tail`, the memory of the foreground. -/
structure HandShake where
  minAddr : ℕ
  dir : FileName → Option RegionFile
  regions : List Region
  tail : ℤ
  mem : ℕ → ℕ

/-- `EPIPE` -/
def epipe : ℕ := 32

/-- The records `send_regions` writes. -/
def records (regions : List Region) : List (List ℕ) := regions.map Region.words ++ [[0, 0, 0]]

namespace HandShake

variable (c : HandShake)

/-- The ends held at a place of the background. -/
def backgroundHolds : BackgroundPc → WireEnds
  | .closingRead, _, _ => true
  | .closingWrite, p, e => !decide (p = .btf ∧ e = .read)
  | .sending _, p, e => decide (p = .btf ∧ e = .write) || decide (p = .ftb ∧ e = .read)
  | .sendingTail, p, e => decide (p = .btf ∧ e = .write) || decide (p = .ftb ∧ e = .read)
  | .closing, p, e => decide (p = .btf ∧ e = .write) || decide (p = .ftb ∧ e = .read)
  | .waiting, p, e => decide (p = .ftb ∧ e = .read)
  | .closingAck, p, e => decide (p = .ftb ∧ e = .read)
  | .running, _, _ => false
  | .aborting ends, p, e => ends p e

/-- The ends held at a place of the foreground. -/
def foregroundHolds : ForegroundPc → WireEnds
  | .closingWrite, _, _ => true
  | .closingRead, p, e => !decide (p = .btf ∧ e = .write)
  | .mapping _, p, e => decide (p = .btf ∧ e = .read) || decide (p = .ftb ∧ e = .write)
  | .readingTail _, p, e => decide (p = .btf ∧ e = .read) || decide (p = .ftb ∧ e = .write)
  | .closing _ _, p, e => decide (p = .btf ∧ e = .read) || decide (p = .ftb ∧ e = .write)
  | .acking _ _, p, e => decide (p = .ftb ∧ e = .write)
  | .closingAck _ _, p, e => decide (p = .ftb ∧ e = .write)
  | .replaying _ _, _, _ => false
  | .failed _ ends, p, e => ends p e

def holds (_ : Proc) : Place → WireEnds
  | .inl b => backgroundHolds b
  | .inr f => foregroundHolds f

/-- Behind the `my_read` of the last byte. -/
def readAck (ws : List ℕ) : BackgroundPc :=
  if ws = [] then .aborting (backgroundHolds .waiting) else .closingAck

/-- Behind a pass of the loop of `map_recovered_regions`. -/
def readRecord (m : Mapping) (ws : List ℕ) : ForegroundPc :=
  match mapOne c.minAddr c.dir m ws with
  | .last => .readingTail m
  | .next m' => .mapping m'
  | .failed err _ => .failed err (foregroundHolds (.mapping m))

/-- Behind the `read` of the tail. -/
def readTail (m : Mapping) : List ℕ → ForegroundPc
  | [w] => .closing m (toInt w)
  | _ => .failed einval (foregroundHolds (.readingTail m))

/-- What `undo_recover_foreground` returns in the end. -/
def finish (m : Mapping) (tail : ℤ) : ForegroundPc :=
  if tail = -1 then .replaying m none
  else if tail < 0 then .failed einval fun _ _ => false
  else .replaying m (some tail)

/-- **`dr_client_main`** from the hand-shake on. -/
def backgroundProgram (b : BackgroundPc) : Act Wire ℕ Place :=
  match b with
  | .closingRead => .close .btf .read (.inl .closingWrite)
  | .closingWrite => .close .ftb .write (.inl (.sending (records c.regions)))
  | .sending (r :: rest) =>
      .write .btf r (.inl (.sending rest)) (.inl (.aborting (backgroundHolds b)))
  | .sending [] => .work (.inl .sendingTail)
  | .sendingTail =>
      if 0 ≤ c.tail then
        .write .btf [c.tail.toNat] (.inl .closing) (.inl (.aborting (backgroundHolds b)))
      else .exit
  | .closing => .close .btf .write (.inl .waiting)
  | .waiting => .read .ftb 1 fun ws => .inl (readAck ws)
  | .closingAck => .close .ftb .read (.inl .running)
  | .running => .halt
  | .aborting _ => .exit

/-- **`undo_recover_foreground`** -/
def foregroundProgram (f : ForegroundPc) : Act Wire ℕ Place :=
  match f with
  | .closingWrite => .close .btf .write (.inr .closingRead)
  | .closingRead => .close .ftb .read (.inr (.mapping ⟨c.mem, []⟩))
  | .mapping m => .read .btf 3 fun ws => .inr (c.readRecord m ws)
  | .readingTail m => .read .btf 1 fun ws => .inr (readTail m ws)
  | .closing m tail => .close .btf .read (.inr (.acking m tail))
  | .acking m tail =>
      .write .ftb [0] (.inr (.closingAck m tail)) (.inr (.failed epipe (foregroundHolds f)))
  | .closingAck m tail => .close .ftb .write (.inr (finish m tail))
  | .replaying _ _ => .halt
  | .failed _ _ => .halt

def program : Proc → Place → Act Wire ℕ Place
  | .background, .inl b => c.backgroundProgram b
  | .foreground, .inr f => c.foregroundProgram f
  | _, _ => .halt

/-- Right after `fork`: both processes hold all four ends. -/
def start : Net Wire Proc ℕ Place where
  pc
    | .background => some (.inl .closingRead)
    | .foreground => some (.inr .closingWrite)
  queue _ := []
  held _ _ _ := true

/-- A pipe holds a record, and the byte. -/
def Roomy (cap : Wire → ℕ) : Prop := 3 ≤ cap .btf ∧ 1 ≤ cap .ftb

/-- `recovered_tail` is an `int`. -/
def IntTail : Prop := c.tail < 2 ^ 31

abbrev Reached (cap : Wire → ℕ) (s : Net Wire Proc ℕ Place) : Prop :=
  Runs (Step c.program cap) Always start s

end HandShake

/-! ## 2. The invariant -/

namespace HandShake

variable (c : HandShake)

/-- What the two processes are to agree on. -/
def Loaded (m : Mapping) : Prop :=
  mapRecoveredRegions c.minAddr c.dir (sendRegions c.regions ++ [c.tail.toNat]) ⟨c.mem, []⟩ =
    (0, m, [c.tail.toNat])

/-- The records the background has still to write. One that is gone has left any. -/
def Unsent : Option Place → List (List ℕ) → Prop
  | some (.inl .closingRead), cs => cs = records c.regions ++ [[c.tail.toNat]]
  | some (.inl .closingWrite), cs => cs = records c.regions ++ [[c.tail.toNat]]
  | some (.inl (.sending rest)), cs => cs = rest ++ [[c.tail.toNat]]
  | some (.inl .sendingTail), cs => cs = [[c.tail.toNat]]
  | some (.inl .closing), cs => cs = []
  | some (.inl .waiting), cs => cs = []
  | some (.inl .closingAck), cs => cs = []
  | some (.inl .running), cs => cs = []
  | some (.inl (.aborting _)), _ => True
  | none, _ => True
  | some (.inr _), _ => False

/-- What is still to come leads from the mapping `m` to where the whole stream leads. -/
def Pending (m : Mapping) (xs : List (List ℕ)) : Prop :=
  ∃ rs : List Region, xs = records rs ++ [[c.tail.toNat]] ∧ (∀ r ∈ rs, 0 < r.size) ∧
    mapRecoveredRegions c.minAddr c.dir (sendRegions rs ++ [c.tail.toNat]) m =
      mapRecoveredRegions c.minAddr c.dir (sendRegions c.regions ++ [c.tail.toNat]) ⟨c.mem, []⟩

/-- The records the foreground has still to read, sent or not. -/
def Expects : Option Place → List (List ℕ) → Prop
  | some (.inr .closingWrite), xs => c.Pending ⟨c.mem, []⟩ xs
  | some (.inr .closingRead), xs => c.Pending ⟨c.mem, []⟩ xs
  | some (.inr (.mapping m)), xs => c.Pending m xs
  | some (.inr (.readingTail m)), xs => c.Loaded m ∧ xs = [[c.tail.toNat]]
  | some (.inr (.closing m tail)), xs => c.Loaded m ∧ tail = c.tail ∧ xs = []
  | some (.inr (.acking m tail)), xs => c.Loaded m ∧ tail = c.tail ∧ xs = []
  | some (.inr (.closingAck m tail)), xs => c.Loaded m ∧ tail = c.tail ∧ xs = []
  | some (.inr (.replaying m tail)), xs => c.Loaded m ∧ tail = some c.tail ∧ xs = []
  | some (.inr (.failed _ _)), _ => True
  | none, _ => True
  | some (.inl _), _ => False

/-- The background has read the last byte. -/
def Past : Option Place → Prop
  | some (.inl .closingAck) => True
  | some (.inl .running) => True
  | _ => False

/-- The background is gone, or as good as gone. -/
def Gone : Option Place → Prop
  | some (.inl (.aborting _)) => True
  | none => True
  | _ => False

/-- The last byte has not been sent. `ack` is what the pipe for it holds. -/
def Unacked (b : Option Place) (ack : List ℕ) : Prop := ack = [] ∧ ¬ Past b

/-- The last byte is in the pipe, or the background has read it, or nobody will. -/
def Delivered (b : Option Place) (ack : List ℕ) : Prop :=
  (ack = [0] ∧ ¬ Past b) ∨ (ack = [] ∧ (Past b ∨ Gone b))

/-- What the place of the foreground says of the last byte. -/
def Acked (b : Option Place) (ack : List ℕ) : Option Place → Prop
  | some (.inr (.closingAck _ _)) => Delivered b ack
  | some (.inr (.replaying _ _)) => Delivered b ack
  | none => True
  | _ => Unacked b ack

/-- **The invariant**, on the places of the two processes and on what the pipes hold. Of a negative
    tail nothing is ever sent. -/
def Good (b f : Option Place) (btf ack : List ℕ) : Prop :=
  (∃ qs cs : List (List ℕ), btf = qs.flatten ∧ c.Unsent b cs ∧ c.Expects f (qs ++ cs) ∧
    (c.tail < 0 → cs ≠ [])) ∧ Acked b ack f

variable {c} {b b' f f' : Option Place} {btf ack ack' : List ℕ}

theorem good_start (hr : ∀ r ∈ c.regions, 0 < r.size) :
    c.Good (some (.inl .closingRead)) (some (.inr .closingWrite)) [] [] :=
  ⟨⟨[], _, rfl, rfl, ⟨c.regions, rfl, hr, rfl⟩, fun _ => by simp⟩, rfl, id⟩

theorem Acked.of (h : Acked b ack f) (hu : Unacked b ack → Unacked b' ack')
    (hd : Delivered b ack → Delivered b' ack') : Acked b' ack' f := by
  match f, h with
  | none, _ => trivial
  | some (.inl _), h => exact hu h
  | some (.inr .closingWrite), h => exact hu h
  | some (.inr .closingRead), h => exact hu h
  | some (.inr (.mapping _)), h => exact hu h
  | some (.inr (.readingTail _)), h => exact hu h
  | some (.inr (.closing _ _)), h => exact hu h
  | some (.inr (.acking _ _)), h => exact hu h
  | some (.inr (.failed _ _)), h => exact hu h
  | some (.inr (.closingAck _ _)), h => exact hd h
  | some (.inr (.replaying _ _)), h => exact hd h

theorem readAck_take {ws : List ℕ} (h : ws ≠ []) : readAck (ws.take 1) = .closingAck := by
  refine if_neg ?_
  rwa [List.take_eq_nil_iff, or_iff_right Nat.one_ne_zero]

/-! ### Moves of the background -/

/-- Nothing is sent, nothing is read. -/
theorem Good.background (h : c.Good b f btf ack) (hu : ∀ cs, c.Unsent b cs → c.Unsent b' cs)
    (hp : Past b' → Past b) (hg : Past b ∨ Gone b → Past b' ∨ Gone b') : c.Good b' f btf ack := by
  obtain ⟨⟨qs, cs, hq, hcs, hx, hneg⟩, ha⟩ := h
  refine ⟨⟨qs, cs, hq, hu cs hcs, hx, hneg⟩, ha.of ?_ ?_⟩
  · exact fun h => ⟨h.1, fun hc => h.2 (hp hc)⟩
  · exact Or.imp (fun h => ⟨h.1, fun hc => h.2 (hp hc)⟩) fun h => ⟨h.1, hg h.2⟩

/-- A record is sent. -/
theorem Good.send {r : List ℕ} (h : c.Good b f btf ack)
    (hu : ∀ cs, c.Unsent b cs → ∃ cs', cs = r :: cs' ∧ c.Unsent b' cs' ∧ (c.tail < 0 → cs' ≠ []))
    (hp : ¬ Past b') (hb : ¬ (Past b ∨ Gone b)) : c.Good b' f (btf ++ r) ack := by
  obtain ⟨⟨qs, cs, rfl, hcs, hx, -⟩, ha⟩ := h
  obtain ⟨cs', rfl, hcs', hneg⟩ := hu cs hcs
  refine ⟨⟨qs ++ [r], cs', by simp, hcs', by simpa using hx, hneg⟩, ha.of ?_ ?_⟩
  · exact fun h => ⟨h.1, hp⟩
  · rintro (⟨hne, -⟩ | ⟨-, hc⟩)
    · exact Or.inl ⟨hne, hp⟩
    · exact absurd hc hb

/-- The last byte is read. -/
theorem Good.receiveAck (h : c.Good b f btf ack) (hu : ∀ cs, c.Unsent b cs → c.Unsent b' cs)
    (hp : Past b') (hne : ack ≠ []) : c.Good b' f btf (ack.drop 1) := by
  obtain ⟨⟨qs, cs, hq, hcs, hx, hneg⟩, ha⟩ := h
  refine ⟨⟨qs, cs, hq, hu cs hcs, hx, hneg⟩, ha.of ?_ ?_⟩
  · exact fun h => absurd h.1 hne
  · rintro (⟨rfl, -⟩ | ⟨hnil, -⟩)
    · exact Or.inr ⟨rfl, Or.inl hp⟩
    · exact absurd hnil hne

/-! ### Moves of the foreground -/

/-- Nothing is sent, nothing is read. -/
theorem Good.foreground (h : c.Good b f btf ack) (hx : ∀ xs, c.Expects f xs → c.Expects f' xs)
    (ha : Acked b ack f → Acked b ack f') : c.Good b f' btf ack := by
  obtain ⟨⟨qs, cs, hq, hcs, hf, hneg⟩, hack⟩ := h
  exact ⟨⟨qs, cs, hq, hcs, hx _ hf, hneg⟩, ha hack⟩

/-- A record is read. -/
theorem Good.receive {n : ℕ} {g : List ℕ → Option Place} (h : c.Good b f btf ack)
    (hne : btf ≠ [])
    (hx : ∀ r xs, c.Expects f (r :: xs) → (xs = [] → 0 ≤ c.tail) →
      r.length = n ∧ c.Expects (g r) xs)
    (ha : ∀ r, Acked b ack f → Acked b ack (g r)) :
    c.Good b (g (btf.take n)) (btf.drop n) ack := by
  obtain ⟨⟨qs, cs, rfl, hcs, hf, hneg⟩, hack⟩ := h
  cases qs with
  | nil => exact absurd rfl hne
  | cons r qs =>
      obtain ⟨hlen, hr⟩ := hx r (qs ++ cs) hf fun hnil =>
        Int.not_lt.mp fun hc => hneg hc (List.append_eq_nil_iff.mp hnil).2
      rw [List.flatten_cons, ← hlen, List.take_left, List.drop_left]
      exact ⟨⟨qs, cs, rfl, hcs, hr, hneg⟩, ha r hack⟩

/-- The last byte is sent. -/
theorem Good.sendAck {m : Mapping} {tail : ℤ}
    (h : c.Good b (some (.inr (.acking m tail))) btf ack) :
    c.Good b (some (.inr (.closingAck m tail))) btf (ack ++ [0]) := by
  obtain ⟨hx, hnil, hp⟩ := h
  exact ⟨hx, Or.inl ⟨by rw [hnil, List.nil_append], hp⟩⟩

/-- At its end the foreground has a tail that is not negative. -/
theorem Good.finish {m : Mapping} {tail : ℤ}
    (h : c.Good b (some (.inr (.closingAck m tail))) btf ack) :
    finish m tail = .replaying m (some tail) := by
  obtain ⟨⟨qs, cs, -, -, ⟨-, rfl, hnil⟩, hneg⟩, -⟩ := h
  have h0 : ¬ c.tail < 0 := fun hc => hneg hc (List.append_eq_nil_iff.mp hnil).2
  unfold HandShake.finish
  rw [if_neg (by omega), if_neg h0]

/-! ### Steps -/

/-- The invariant of a state. -/
def Inv (c : HandShake) (s : Net Wire Proc ℕ Place) : Prop :=
  c.Good (s.pc .background) (s.pc .foreground) (s.queue .btf) (s.queue .ftb)

variable {cap : Wire → ℕ} {s s' : Net Wire Proc ℕ Place}

/-- What the background does keeps the invariant. -/
theorem inv_background (h : c.Inv s) (hs : Step c.program cap s (.run .background) s') :
    c.Inv s' := by
  obtain ⟨q, hq, hd⟩ := hs.does
  have hf : s'.pc .foreground = s.pc .foreground := hs.pc_other (by decide)
  unfold Inv at h ⊢
  rw [hf]
  rw [hq] at h
  rcases q with b | f
  · cases b with
    | closingRead =>
        obtain ⟨-, rfl⟩ := hd
        exact h.background (fun _ => id) False.elim id
    | closingWrite =>
        obtain ⟨-, rfl⟩ := hd
        exact h.background (fun _ => id) False.elim id
    | sending rest =>
        cases rest with
        | nil =>
            cases hd
            exact h.background (fun _ => id) False.elim id
        | cons r rest =>
            obtain ⟨-, ⟨-, -, rfl⟩ | ⟨-, rfl⟩⟩ := hd
            · exact h.send (fun cs hcs => ⟨_, hcs, rfl, fun _ => by simp⟩) id (fun hc => hc.elim id id)
            · exact h.background (fun _ _ => trivial) False.elim fun _ => Or.inr trivial
    | sendingTail =>
        by_cases ht : 0 ≤ c.tail
        · simp only [program, backgroundProgram, if_pos ht] at hd
          obtain ⟨-, ⟨-, -, rfl⟩ | ⟨-, rfl⟩⟩ := hd
          · exact h.send (fun cs hcs => ⟨[], hcs, rfl, fun hneg => absurd ht (Int.not_le.mpr hneg)⟩)
              id (fun hc => hc.elim id id)
          · exact h.background (fun _ _ => trivial) False.elim fun _ => Or.inr trivial
        · simp only [program, backgroundProgram, if_neg ht] at hd
          cases hd
          exact h.background (fun _ _ => trivial) False.elim fun _ => Or.inr trivial
    | closing =>
        obtain ⟨-, rfl⟩ := hd
        exact h.background (fun _ => id) False.elim id
    | waiting =>
        obtain ⟨-, ⟨hne, rfl⟩ | ⟨hnil, -, rfl⟩⟩ := hd
        · have hpc : ((s.fill .ftb ((s.queue .ftb).drop 1)).goto Proc.background
              (Sum.inl (readAck ((s.queue .ftb).take 1)) : Place)).pc .background =
              some (.inl .closingAck) := by rw [goto_self, readAck_take hne]
          rw [hpc]
          exact h.receiveAck (fun _ => id) trivial hne
        · exact h.background (fun _ _ => trivial) False.elim fun _ => Or.inr trivial
    | closingAck =>
        obtain ⟨-, rfl⟩ := hd
        exact h.background (fun _ => id) (fun _ => trivial) fun _ => Or.inl trivial
    | running => exact hd.elim
    | aborting ends =>
        cases hd
        exact h.background (fun _ _ => trivial) False.elim fun _ => Or.inr trivial
  · exact hd.elim

/-- What the loop of `map_recovered_regions` makes of one record. -/
theorem expects_readRecord {m : Mapping} {r : List ℕ} {xs : List (List ℕ)}
    (h : c.Expects (some (.inr (.mapping m))) (r :: xs)) :
    r.length = 3 ∧ c.Expects (some (.inr (c.readRecord m r))) xs := by
  obtain ⟨rs, hxs, hpos, hmap⟩ := h
  cases rs with
  | nil =>
      obtain ⟨rfl, rfl⟩ := List.cons.inj hxs
      exact ⟨rfl, hmap.symm, rfl⟩
  | cons r0 rs =>
      obtain ⟨rfl, rfl⟩ := List.cons.inj hxs
      rw [List.forall_mem_cons] at hpos
      rw [mapRecoveredRegions_cons] at hmap
      refine ⟨rfl, ?_⟩
      unfold readRecord
      cases hone : mapOne c.minAddr c.dir m r0.words with
      | last => exact absurd hone (mapOne_region_ne_last fun h => hpos.1.ne' h.2)
      | next m' =>
          rw [hone] at hmap
          exact ⟨rs, rfl, hpos.2, hmap⟩
      | failed err m' => trivial

/-- What it makes of the tail. -/
theorem expects_readTail (ht : c.IntTail) {m : Mapping} {r : List ℕ} {xs : List (List ℕ)}
    (h : c.Expects (some (.inr (.readingTail m))) (r :: xs)) (hx : xs = [] → 0 ≤ c.tail) :
    r.length = 1 ∧ c.Expects (some (.inr (readTail m r))) xs := by
  obtain ⟨hm, hxs⟩ := h
  obtain ⟨rfl, rfl⟩ := List.cons.inj hxs
  have h0 : 0 ≤ c.tail := hx rfl
  unfold IntTail at ht
  refine ⟨rfl, hm, ?_, rfl⟩
  rw [toInt_of_lt (by omega)]
  exact Int.toNat_of_nonneg h0

/-- What the foreground does keeps the invariant. -/
theorem inv_foreground (ht : c.IntTail) (h : c.Inv s)
    (hs : Step c.program cap s (.run .foreground) s') : c.Inv s' := by
  obtain ⟨q, hq, hd⟩ := hs.does
  have hb : s'.pc .background = s.pc .background := hs.pc_other (by decide)
  unfold Inv at h ⊢
  rw [hb]
  rw [hq] at h
  rcases q with b | f
  · exact hd.elim
  · cases f with
    | closingWrite =>
        obtain ⟨-, rfl⟩ := hd
        exact h.foreground (fun _ => id) id
    | closingRead =>
        obtain ⟨-, rfl⟩ := hd
        exact h.foreground (fun _ => id) id
    | mapping m =>
        obtain ⟨-, ⟨hne, rfl⟩ | ⟨hnil, -, rfl⟩⟩ := hd
        · refine h.receive (g := fun ws => some (.inr (c.readRecord m ws))) hne
            (fun r xs hx _ => expects_readRecord hx) fun r hu => ?_
          unfold readRecord
          cases mapOne c.minAddr c.dir m r <;> exact hu
        · exact h.foreground (fun _ _ => trivial) id
    | readingTail m =>
        obtain ⟨-, ⟨hne, rfl⟩ | ⟨hnil, -, rfl⟩⟩ := hd
        · refine h.receive (g := fun ws => some (.inr (readTail m ws))) hne
            (fun r xs hx h0 => expects_readTail ht hx h0) fun r hu => ?_
          match r with
          | [] => exact hu
          | [w] => exact hu
          | _ :: _ :: _ => exact hu
        · exact h.foreground (fun _ _ => trivial) id
    | closing m tail =>
        obtain ⟨-, rfl⟩ := hd
        exact h.foreground (fun _ => id) id
    | acking m tail =>
        obtain ⟨-, ⟨-, -, rfl⟩ | ⟨-, rfl⟩⟩ := hd
        · exact h.sendAck
        · exact h.foreground (fun _ _ => trivial) id
    | closingAck m tail =>
        obtain ⟨-, rfl⟩ := hd
        rw [h.finish]
        refine h.foreground (fun xs hx => ?_) id
        obtain ⟨hm, rfl, rfl⟩ := hx
        exact ⟨hm, rfl, rfl⟩
    | replaying m tail => exact hd.elim
    | failed err ends => exact hd.elim

/-- Being killed keeps the invariant. -/
theorem inv_kill {t : Proc} (h : c.Inv s) (hs : Step c.program cap s (.kill t) s') :
    c.Inv s' := by
  cases hs.killed
  cases t with
  | background => exact h.background (fun _ _ => trivial) False.elim fun _ => Or.inr trivial
  | foreground => exact h.foreground (fun _ _ => trivial) fun _ => trivial

theorem inv_step (ht : c.IntTail) {a : Label Proc} (h : c.Inv s) (hs : Step c.program cap s a s') :
    c.Inv s' := by
  cases a with
  | run t =>
      cases t with
      | background => exact inv_background h hs
      | foreground => exact inv_foreground ht h hs
  | kill t => exact inv_kill h hs

/-! ### The ends that are held -/

theorem holds_readAck (ws : List ℕ) : backgroundHolds (readAck ws) = backgroundHolds .waiting := by
  unfold readAck
  split
  · rfl
  · rfl

theorem holds_readRecord (m : Mapping) (ws : List ℕ) :
    foregroundHolds (c.readRecord m ws) = foregroundHolds (.mapping m) := by
  unfold readRecord
  cases mapOne c.minAddr c.dir m ws <;> rfl

theorem holds_readTail (m : Mapping) (ws : List ℕ) :
    foregroundHolds (readTail m ws) = foregroundHolds (.readingTail m) := by
  match ws with
  | [] => rfl
  | [_] => rfl
  | _ :: _ :: _ => rfl

theorem holds_finish (m : Mapping) (tail : ℤ) :
    foregroundHolds (finish m tail) = fun _ _ => false := by
  unfold HandShake.finish
  split_ifs <;> rfl

theorem accounts_background (b : BackgroundPc) :
    (c.backgroundProgram b).Accounted (holds .background) (backgroundHolds b) := by
  cases b with
  | closingRead => exact ⟨rfl, fun p e => by cases p <;> cases e <;> rfl⟩
  | closingWrite => exact ⟨rfl, fun p e => by cases p <;> cases e <;> rfl⟩
  | sending rest =>
      cases rest with
      | nil => rfl
      | cons r rest => exact ⟨rfl, rfl, rfl⟩
  | sendingTail =>
      unfold backgroundProgram
      dsimp only
      split
      · exact ⟨rfl, rfl, rfl⟩
      · trivial
  | closing => exact ⟨rfl, fun p e => by cases p <;> cases e <;> rfl⟩
  | waiting => exact ⟨rfl, holds_readAck⟩
  | closingAck => exact ⟨rfl, fun p e => by cases p <;> cases e <;> rfl⟩
  | running => trivial
  | aborting ends => trivial

theorem accounts_foreground (f : ForegroundPc) :
    (c.foregroundProgram f).Accounted (holds .foreground) (foregroundHolds f) := by
  cases f with
  | closingWrite => exact ⟨rfl, fun p e => by cases p <;> cases e <;> rfl⟩
  | closingRead => exact ⟨rfl, fun p e => by cases p <;> cases e <;> rfl⟩
  | mapping m => exact ⟨rfl, holds_readRecord m⟩
  | readingTail m => exact ⟨rfl, holds_readTail m⟩
  | closing m tail => exact ⟨rfl, fun p e => by cases p <;> cases e <;> rfl⟩
  | acking m tail => exact ⟨rfl, rfl, rfl⟩
  | closingAck m tail =>
      refine ⟨rfl, fun p e => ?_⟩
      have hf := congrFun (congrFun (holds_finish m tail) p) e
      refine Eq.trans hf ?_
      cases p <;> cases e <;> rfl
  | replaying m tail => trivial
  | failed err ends => trivial

/-- The places say which ends are held. -/
theorem accounts : Accounts c.program holds := by
  intro t q
  cases t <;> rcases q with b | f
  · exact accounts_background b
  · trivial
  · trivial
  · exact accounts_foreground f

theorem heldBy_start : HeldBy holds start := by
  intro t p e
  cases t <;> rfl

/-- **The invariant of every reachable state.** -/
theorem inv_reached (hr : ∀ r ∈ c.regions, 0 < r.size) (ht : c.IntTail) (h : c.Reached cap s) :
    HeldBy holds s ∧ c.Inv s := by
  refine h.invariant (I := fun s => HeldBy holds s ∧ c.Inv s) ⟨heldBy_start, good_start hr⟩ ?_
  exact fun s a s' hi _ hs => ⟨held_step accounts hi.1 hs, inv_step ht hi.2 hs⟩

end HandShake

end Persimmon
