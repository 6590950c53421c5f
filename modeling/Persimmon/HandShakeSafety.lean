/-
  File:      Persimmon/HandShakeSafety.lean
  Subject:   WHAT THE HAND-SHAKE GUARANTEES (the two programs are in `HandShake.lean`).

  * `foreground_done`, `background_done` -- where nobody can go on, who has come to its end;
  * `Sound` -- while nobody is killed, neither process meets an error;
  * `remaining` -- a measure that falls at every step;
  * `handShake_agrees` -- whatever the order of steps and whoever dies: a foreground at work has the
    regions and the tail that were sent, and a background at work has been waited for;
  * `handShake_no_deadlock`, `handShake_completes` -- nobody waits for ever.
-/
import Mathlib.Algebra.Ring.Nat
import Persimmon.HandShake

namespace Persimmon

open Pipe Transition

namespace HandShake

variable {c : HandShake} {cap : Wire → ℕ} {s s' : Net Wire Proc ℕ Place}

/-! ## 1. Nobody waits for ever -/

/-- An end is open when one of the two processes holds it. -/
theorem open_iff (h : HeldBy holds s) (p : Wire) (e : End) :
    s.Open p e ↔ (∃ q, s.pc .background = some q ∧ holds .background q p e = true) ∨
      ∃ q, s.pc .foreground = some q ∧ holds .foreground q p e = true := by
  have hheld : ∀ t, s.held t p e = true ↔ ∃ q, s.pc t = some q ∧ holds t q p e = true := by
    intro t
    rw [h t p e]
    cases s.pc t <;> simp
  rw [← hheld, ← hheld]
  constructor
  · rintro ⟨t, ht⟩
    cases t with
    | background => exact Or.inl ht
    | foreground => exact Or.inr ht
  · rintro (ht | ht)
    · exact ⟨_, ht⟩
    · exact ⟨_, ht⟩

/-- Every record that is still to be sent fits into an empty pipe. -/
theorem length_le_of_pending {m : Mapping} {qs rest : List (List ℕ)} {r : List ℕ}
    (h : c.Pending m (qs ++ r :: rest)) : r.length ≤ 3 := by
  obtain ⟨rs, hxs, -, -⟩ := h
  have hr : r ∈ records rs ++ [[c.tail.toNat]] := hxs ▸ by simp
  rw [records, List.mem_append, List.mem_append, List.mem_map, List.mem_singleton,
    List.mem_singleton] at hr
  rcases hr with (⟨r0, -, rfl⟩ | rfl) | rfl
  · exact Nat.le_refl 3
  · exact Nat.le_refl 3
  · exact Nat.le_add_left 1 2

/-- A background that may still write has not come to a stop while the foreground expects more. -/
theorem not_waits_of_expects {f : ForegroundPc} {b : Place} (hcap : Roomy cap) (h : c.Inv s)
    (hb : s.pc .background = some b) (hf : s.pc .foreground = some (.inr f))
    (hx : ∀ qs rest r, c.Expects (some (.inr f)) (qs ++ r :: rest) → r.length ≤ 3)
    (hq : s.queue .btf = []) (hh : holds .background b .btf .write = true) :
    ¬ (c.program .background b).Waits cap s := by
  obtain ⟨⟨qs, cs, -, hcs, hexp, -⟩, -⟩ := h
  rw [hb] at hcs
  rw [hf] at hexp
  have hroom : ∀ r rest, cs = r :: rest → ¬ cap .btf < (s.queue .btf).length + r.length := by
    rintro r rest rfl
    have := hx qs rest r hexp
    rw [hq, List.length_nil, Nat.zero_add]
    exact Nat.not_lt.mpr (this.trans hcap.1)
  rcases b with b | f'
  · cases b with
    | closingRead => exact id
    | closingWrite => exact id
    | sending rest =>
        cases rest with
        | nil => exact id
        | cons r rest => exact fun hw => hroom r _ hcs hw.1
    | sendingTail =>
        unfold program backgroundProgram
        dsimp only
        split
        · exact fun hw => hroom _ _ hcs hw.1
        · exact id
    | closing => exact id
    | waiting => exact absurd hh (by decide)
    | closingAck => exact absurd hh (by decide)
    | running => exact absurd hh (by decide)
    | aborting ends => exact id
  · exact hcs.elim

/-- **The foreground never waits in vain**: where nobody can go on it has come to its end. -/
theorem foreground_done (hcap : Roomy cap) (hh : HeldBy holds s) (h : c.Inv s)
    (hs : Stuck c.program cap s) {q : Place} (hq : s.pc .foreground = some q) :
    (∃ m tail, q = .inr (.replaying m tail)) ∨ ∃ err ends, q = .inr (.failed err ends) := by
  have hw := waits_of_stuck hs accounts hh hq
  -- the background, if it still holds the pipe, waits as well
  have hread : ∀ f, q = .inr f → s.queue .btf = [] → s.Open .btf .write →
      foregroundHolds f .btf .write = false →
      (∀ qs rest r, c.Expects (some (.inr f)) (qs ++ r :: rest) → r.length ≤ 3) → False := by
    rintro f rfl hnil ho hno hx
    rcases (open_iff hh _ _).mp ho with ⟨b, hb, hold⟩ | ⟨q', hq', hold⟩
    · exact not_waits_of_expects hcap h hb hq hx hnil hold (waits_of_stuck hs accounts hh hb)
    · obtain rfl := Option.some.inj (hq.symm.trans hq')
      exact Bool.false_ne_true (hno.symm.trans hold)
  rcases q with b | f
  · have := h.1
    rw [hq] at this
    obtain ⟨qs, cs, -, -, hx, -⟩ := this
    exact hx.elim
  · cases f with
    | closingWrite => exact hw.elim
    | closingRead => exact hw.elim
    | mapping m =>
        exact (hread _ rfl hw.1 hw.2 rfl fun _ _ _ => length_le_of_pending).elim
    | readingTail m =>
        refine (hread _ rfl hw.1 hw.2 rfl fun qs rest r hx => ?_).elim
        have hr : r ∈ [[c.tail.toNat]] := hx.2 ▸ by simp
        rw [List.mem_singleton.mp hr]
        exact Nat.le_add_left 1 2
    | closing m tail => exact hw.elim
    | acking m tail =>
        have hack : s.queue .ftb = [] := by
          have := h.2
          rw [hq] at this
          exact this.1
        have hlen := hw.1
        rw [hack, List.length_nil, Nat.zero_add, List.length_singleton] at hlen
        exact absurd hcap.2 (Nat.not_le.mpr hlen)
    | closingAck m tail => exact hw.elim
    | replaying m tail => exact Or.inl ⟨m, tail, rfl⟩
    | failed err ends => exact Or.inr ⟨err, ends, rfl⟩

/-- **The background waits for a foreground only that has returned an error and lives on.** -/
theorem background_done (hcap : Roomy cap) (hh : HeldBy holds s) (h : c.Inv s)
    (hs : Stuck c.program cap s) {q : Place} (hq : s.pc .background = some q) :
    q = .inl .running ∨ ∃ err ends, s.pc .foreground = some (.inr (.failed err ends)) := by
  have hw := waits_of_stuck hs accounts hh hq
  -- whoever holds the other end is the foreground, and it has come to its end
  have hopen : ∀ p e, s.Open p e → holds .background q p e = false →
      ∃ err ends, s.pc .foreground = some (.inr (.failed err ends)) := by
    intro p e ho hno
    rcases (open_iff hh _ _).mp ho with ⟨b, hb, hold⟩ | ⟨f, hf, hold⟩
    · obtain rfl := Option.some.inj (hq.symm.trans hb)
      exact (Bool.false_ne_true (hno.symm.trans hold)).elim
    · rcases foreground_done hcap hh h hs hf with ⟨m, tail, rfl⟩ | ⟨err, ends, rfl⟩
      · exact (Bool.false_ne_true hold).elim
      · exact ⟨err, ends, hf⟩
  rcases q with b | f
  · cases b with
    | closingRead => exact hw.elim
    | closingWrite => exact hw.elim
    | sending rest =>
        cases rest with
        | nil => exact hw.elim
        | cons r rest => exact Or.inr (hopen _ _ hw.2 rfl)
    | sendingTail =>
        unfold program backgroundProgram at hw
        dsimp only at hw
        split at hw
        · exact Or.inr (hopen _ _ hw.2 rfl)
        · exact hw.elim
    | closing => exact hw.elim
    | waiting => exact Or.inr (hopen _ _ hw.2 rfl)
    | closingAck => exact hw.elim
    | running => exact Or.inl rfl
    | aborting ends => exact hw.elim
  · have := h.1
    rw [hq] at this
    obtain ⟨qs, cs, -, hu, -, -⟩ := this
    exact hu.elim

/-! ## 2. Runs in which nobody dies -/

/-- Only steps of the programs. -/
def NoKill (_ : Net Wire Proc ℕ Place) (a : Label Proc) : Prop := ∃ t, a = .run t

def Aborting : BackgroundPc → Prop
  | .aborting _ => True
  | _ => False

def Failed : ForegroundPc → Prop
  | .failed _ _ => True
  | _ => False

/-- Both processes are there and neither has met an error. -/
def Sound (s : Net Wire Proc ℕ Place) : Prop :=
  (∃ b, s.pc .background = some (.inl b) ∧ ¬ Aborting b) ∧
    ∃ f, s.pc .foreground = some (.inr f) ∧ ¬ Failed f

/-- A record that leads to the tail is mapped without an error. -/
theorem readRecord_sound {m m0 : Mapping} {r : List ℕ} {xs : List (List ℕ)} (hm : c.Loaded m0)
    (h : c.Expects (some (.inr (.mapping m))) (r :: xs)) : ¬ Failed (c.readRecord m r) := by
  obtain ⟨rs, hxs, hpos, hmap⟩ := h
  unfold readRecord
  cases rs with
  | nil =>
      obtain ⟨rfl, -⟩ := List.cons.inj hxs
      exact id
  | cons r0 rs =>
      obtain ⟨rfl, -⟩ := List.cons.inj hxs
      rw [mapRecoveredRegions_cons, hm] at hmap
      cases hone : mapOne c.minAddr c.dir m r0.words with
      | last => exact id
      | next m' => exact id
      | failed e m' =>
          rw [hone] at hmap
          exact absurd (congrArg Prod.fst hmap) (mapOne_failed_ne_zero hone)

/-- What is expected is still to be sent by a background that holds the pipe, or lies in it. -/
theorem open_of_expects {f : ForegroundPc} (hh : HeldBy holds s) (h : c.Inv s) (hs : Sound s)
    (hf : s.pc .foreground = some (.inr f)) (hnil : s.queue .btf = [])
    (hx : ∀ qs, qs.flatten = [] → ¬ c.Expects (some (.inr f)) qs) : s.Open .btf .write := by
  obtain ⟨⟨b, hb, hlive⟩, -⟩ := hs
  obtain ⟨⟨qs, cs, hq, hcs, hexp, -⟩, -⟩ := h
  rw [hb] at hcs
  rw [hf] at hexp
  rw [open_iff hh]
  refine Or.inl ⟨_, hb, ?_⟩
  have hne : cs ≠ [] := by
    rintro rfl
    rw [List.append_nil] at hexp
    exact hx qs (hq.symm.trans hnil) hexp
  cases b with
  | closingRead => rfl
  | closingWrite => rfl
  | sending rest => rfl
  | sendingTail => rfl
  | closing => rfl
  | waiting => exact absurd hcs hne
  | closingAck => exact absurd hcs hne
  | running => exact absurd hcs hne
  | aborting ends => exact absurd trivial hlive

theorem Sound.background {b : BackgroundPc} (h : Sound s) (hf : s'.pc .foreground = s.pc .foreground)
    (hb : s'.pc .background = some (.inl b)) (hlive : ¬ Aborting b) : Sound s' :=
  ⟨⟨b, hb, hlive⟩, hf ▸ h.2⟩

theorem Sound.foreground {f : ForegroundPc} (h : Sound s) (hb : s'.pc .background = s.pc .background)
    (hf : s'.pc .foreground = some (.inr f)) (hlive : ¬ Failed f) : Sound s' :=
  ⟨hb ▸ h.1, f, hf, hlive⟩

/-- The pipe of the regions has a reader while something is to be sent. -/
theorem reader_of_unsent (hh : HeldBy holds s) (h : c.Inv s) (hs : Sound s) {b : BackgroundPc}
    (hb : s.pc .background = some (.inl b)) (hu : ∀ cs, c.Unsent (some (.inl b)) cs → cs ≠ []) :
    s.Open .btf .read := by
  obtain ⟨-, f, hf, hlive⟩ := hs
  obtain ⟨⟨qs, cs, -, hcs, hexp, -⟩, -⟩ := h
  rw [hb] at hcs
  rw [hf] at hexp
  have hne : ¬ qs ++ cs = [] := fun hc => hu cs hcs (List.append_eq_nil_iff.mp hc).2
  rw [open_iff hh]
  refine Or.inr ⟨_, hf, ?_⟩
  cases f with
  | closingWrite => rfl
  | closingRead => rfl
  | mapping m => rfl
  | readingTail m => rfl
  | closing m tail => rfl
  | acking m tail => exact absurd hexp.2.2 hne
  | closingAck m tail => exact absurd hexp.2.2 hne
  | replaying m tail => exact absurd hexp.2.2 hne
  | failed err ends => exact absurd trivial hlive

theorem sound_background (h0 : 0 ≤ c.tail) (hh : HeldBy holds s) (h : c.Inv s) (hs : Sound s)
    (hstep : Step c.program cap s (.run .background) s') : Sound s' := by
  obtain ⟨q, hq, hd⟩ := hstep.does
  have hf : s'.pc .foreground = s.pc .foreground := hstep.pc_other (by decide)
  have hgo : ∀ b, s'.pc .background = some (.inl b) → ¬ Aborting b → Sound s' :=
    fun b hb hlive => hs.background hf hb hlive
  rcases q with b | f
  · cases b with
    | closingRead =>
        obtain ⟨-, rfl⟩ := hd
        exact hgo _ goto_self id
    | closingWrite =>
        obtain ⟨-, rfl⟩ := hd
        exact hgo _ goto_self id
    | sending rest =>
        cases rest with
        | nil =>
            cases hd
            exact hgo _ goto_self id
        | cons r rest =>
            obtain ⟨-, ⟨-, -, rfl⟩ | ⟨ho, -⟩⟩ := hd
            · exact hgo _ goto_self id
            · refine absurd (reader_of_unsent hh h hs hq fun cs hcs => ?_) ho
              rw [show cs = _ from hcs]
              exact List.cons_ne_nil _ _
    | sendingTail =>
        simp only [program, backgroundProgram, if_pos h0] at hd
        obtain ⟨-, ⟨-, -, rfl⟩ | ⟨ho, -⟩⟩ := hd
        · exact hgo _ goto_self id
        · refine absurd (reader_of_unsent hh h hs hq fun cs hcs => ?_) ho
          rw [show cs = _ from hcs]
          exact List.cons_ne_nil _ _
    | closing =>
        obtain ⟨-, rfl⟩ := hd
        exact hgo _ goto_self id
    | waiting =>
        obtain ⟨-, ⟨hne, rfl⟩ | ⟨hnil, ho, -⟩⟩ := hd
        · refine hgo _ goto_self ?_
          rw [readAck_take hne]
          exact id
        · -- the foreground holds the pipe until the byte is in it
          obtain ⟨-, f, hf', hlive⟩ := hs
          have hack := h.2
          rw [hq, hf', hnil] at hack
          refine absurd ((open_iff hh _ _).mpr (Or.inr ⟨_, hf', ?_⟩)) ho
          cases f with
          | replaying m tail =>
              rcases hack with ⟨hc, -⟩ | ⟨-, hc⟩
              · exact absurd hc.symm (List.cons_ne_nil _ _)
              · exact (hc.elim id id).elim
          | failed err ends => exact absurd trivial hlive
          | _ => rfl
    | closingAck =>
        obtain ⟨-, rfl⟩ := hd
        exact hgo _ goto_self id
    | running => exact hd.elim
    | aborting ends =>
        obtain ⟨b, hb, hlive⟩ := hs.1
        have := Sum.inl.inj (Option.some.inj (hq.symm.trans hb))
        exact absurd (this ▸ trivial) hlive
  · exact hd.elim

theorem sound_foreground {m0 : Mapping} (hm : c.Loaded m0) (hh : HeldBy holds s)
    (h : c.Inv s) (hs : Sound s) (hstep : Step c.program cap s (.run .foreground) s') :
    Sound s' := by
  obtain ⟨q, hq, hd⟩ := hstep.does
  have hb : s'.pc .background = s.pc .background := hstep.pc_other (by decide)
  have hgo : ∀ f, s'.pc .foreground = some (.inr f) → ¬ Failed f → Sound s' :=
    fun f hf hlive => hs.foreground hb hf hlive
  -- the record at the front of the pipe
  have hfront : ∀ n : ℕ, ∀ P : List ℕ → Prop, s.queue .btf ≠ [] →
      (∀ r xs, c.Expects (s.pc .foreground) (r :: xs) → r.length = n ∧ P r) →
      P ((s.queue .btf).take n) := by
    intro n P hne hr
    obtain ⟨⟨qs, cs, hqs, -, hexp, -⟩, -⟩ := h
    rw [hqs] at hne ⊢
    cases qs with
    | nil => exact absurd rfl hne
    | cons r qs =>
        obtain ⟨rfl, hp⟩ := hr r (qs ++ cs) hexp
        rwa [List.flatten_cons, List.take_left]
  rcases q with b | f
  · exact hd.elim
  · cases f with
    | closingWrite =>
        obtain ⟨-, rfl⟩ := hd
        exact hgo _ goto_self id
    | closingRead =>
        obtain ⟨-, rfl⟩ := hd
        exact hgo _ goto_self id
    | mapping m =>
        obtain ⟨-, ⟨hne, rfl⟩ | ⟨hnil, ho, -⟩⟩ := hd
        · refine hgo _ goto_self (hfront 3 (fun ws => ¬ Failed (c.readRecord m ws)) hne ?_)
          intro r xs hx
          rw [hq] at hx
          exact ⟨(expects_readRecord hx).1, readRecord_sound hm hx⟩
        · refine absurd (open_of_expects hh h hs hq hnil fun qs hqs hx => ?_) ho
          obtain ⟨rs, rfl, -, -⟩ := hx
          simp at hqs
    | readingTail m =>
        obtain ⟨-, ⟨hne, rfl⟩ | ⟨hnil, ho, -⟩⟩ := hd
        · refine hgo _ goto_self (hfront 1 (fun ws => ¬ Failed (readTail m ws)) hne ?_)
          intro r xs hx
          rw [hq] at hx
          obtain ⟨rfl, -⟩ := List.cons.inj hx.2
          exact ⟨rfl, id⟩
        · refine absurd (open_of_expects hh h hs hq hnil fun qs hqs hx => ?_) ho
          rw [hx.2] at hqs
          exact List.cons_ne_nil _ _ hqs
    | closing m tail =>
        obtain ⟨-, rfl⟩ := hd
        exact hgo _ goto_self id
    | acking m tail =>
        obtain ⟨-, ⟨-, -, rfl⟩ | ⟨ho, -⟩⟩ := hd
        · exact hgo _ goto_self id
        · -- the background reads the byte before it closes the pipe
          obtain ⟨⟨b, hb', hlive⟩, -⟩ := hs
          have hack := h.2
          rw [hq, hb'] at hack
          refine absurd ((open_iff hh _ _).mpr (Or.inl ⟨_, hb', ?_⟩)) ho
          cases b with
          | running => exact absurd trivial hack.2
          | aborting ends => exact absurd trivial hlive
          | _ => rfl
    | closingAck m tail =>
        obtain ⟨-, rfl⟩ := hd
        unfold Inv at h
        rw [hq] at h
        refine hgo _ goto_self ?_
        rw [h.finish]
        exact id
    | replaying m tail => exact hd.elim
    | failed err ends => exact hd.elim

/-! ## 3. No run is endless -/

/-- Every word of a record is read, and every record is written. -/
def weight (rest : List (List ℕ)) : ℕ := (rest.map fun r => r.length + 1).sum

def backgroundRank (c : HandShake) : Option Place → ℕ
  | some (.inl .closingRead) => 12 + weight (records c.regions)
  | some (.inl .closingWrite) => 11 + weight (records c.regions)
  | some (.inl (.sending rest)) => 10 + weight rest
  | some (.inl .sendingTail) => 8
  | some (.inl .closing) => 6
  | some (.inl .waiting) => 4
  | some (.inl .closingAck) => 3
  | some _ => 1
  | none => 0

def foregroundRank : Option Place → ℕ
  | some (.inr .closingWrite) => 10
  | some (.inr .closingRead) => 9
  | some (.inr (.mapping _)) => 8
  | some (.inr (.readingTail _)) => 7
  | some (.inr (.closing _ _)) => 6
  | some (.inr (.acking _ _)) => 5
  | some (.inr (.closingAck _ _)) => 3
  | some _ => 1
  | none => 0

/-- What is left to do. -/
def remaining (c : HandShake) (s : Net Wire Proc ℕ Place) : ℕ :=
  c.backgroundRank (s.pc .background) + foregroundRank (s.pc .foreground) +
    (s.queue .btf).length + (s.queue .ftb).length

theorem fill_btf_ftb (ws : List ℕ) : (s.fill .btf ws).queue .ftb = s.queue .ftb :=
  fill_other (by decide)

theorem fill_ftb_btf (ws : List ℕ) : (s.fill .ftb ws).queue .btf = s.queue .btf :=
  fill_other (by decide)

theorem backgroundRank_pos (q : Place) : 0 < c.backgroundRank (some q) := by
  rcases q with b | f
  · cases b <;> simp only [backgroundRank] <;> omega
  · exact Nat.one_pos

theorem foregroundRank_pos (q : Place) : 0 < foregroundRank (some q) := by
  rcases q with b | f
  · exact Nat.one_pos
  · cases f <;> exact Nat.succ_pos _

theorem foregroundRank_readRecord (m : Mapping) (ws : List ℕ) :
    foregroundRank (some (.inr (c.readRecord m ws))) ≤ 8 := by
  unfold readRecord
  cases mapOne c.minAddr c.dir m ws <;> simp [foregroundRank]

theorem foregroundRank_readTail (m : Mapping) (ws : List ℕ) :
    foregroundRank (some (.inr (readTail m ws))) ≤ 6 := by
  match ws with
  | [] => exact Nat.le_add_left 1 5
  | [_] => exact Nat.le_refl 6
  | _ :: _ :: _ => exact Nat.le_add_left 1 5

theorem foregroundRank_finish (m : Mapping) (tail : ℤ) :
    foregroundRank (some (.inr (finish m tail))) = 1 := by
  unfold HandShake.finish
  split_ifs <;> rfl

theorem backgroundRank_readAck (ws : List ℕ) :
    c.backgroundRank (some (.inl (readAck ws))) ≤ 3 := by
  unfold readAck
  split
  · exact Nat.le_add_left 1 2
  · exact Nat.le_refl 3

theorem fall_background (hs : Step c.program cap s (.run .background) s') :
    c.remaining s' < c.remaining s := by
  obtain ⟨q, hq, hd⟩ := hs.does
  have hf : s'.pc .foreground = s.pc .foreground := hs.pc_other (by decide)
  unfold remaining
  rw [hf, hq]
  rcases q with b | f
  · cases b with
    | closingRead =>
        obtain ⟨-, rfl⟩ := hd
        simp only [goto_self, goto_queue, close_queue, backgroundRank]
        omega
    | closingWrite =>
        obtain ⟨-, rfl⟩ := hd
        simp only [goto_self, goto_queue, close_queue, backgroundRank]
        omega
    | sending rest =>
        cases rest with
        | nil =>
            cases hd
            simp only [goto_self, goto_queue, backgroundRank]
            omega
        | cons r rest =>
            obtain ⟨-, ⟨-, -, rfl⟩ | ⟨-, rfl⟩⟩ := hd
            · simp only [goto_self, goto_queue, fill_self, fill_btf_ftb, backgroundRank, weight, List.map_cons, List.sum_cons, List.length_append]
              omega
            · simp only [goto_self, goto_queue, backgroundRank]
              omega
    | sendingTail =>
        unfold program backgroundProgram at hd
        dsimp only at hd
        split at hd
        · obtain ⟨-, ⟨-, -, rfl⟩ | ⟨-, rfl⟩⟩ := hd
          · simp only [goto_self, goto_queue, fill_self, fill_btf_ftb, backgroundRank, List.length_append, List.length_singleton]
            omega
          · simp only [goto_self, goto_queue, backgroundRank]
            omega
        · cases hd
          simp only [kill_self, kill_queue, backgroundRank]
          omega
    | closing =>
        obtain ⟨-, rfl⟩ := hd
        simp only [goto_self, goto_queue, close_queue, backgroundRank]
        omega
    | waiting =>
        have hack := backgroundRank_readAck (c := c)
        obtain ⟨-, ⟨-, rfl⟩ | ⟨-, -, rfl⟩⟩ := hd
        · simp only [goto_self, goto_queue, fill_self, fill_ftb_btf, List.length_drop]
          have := hack ((s.queue .ftb).take 1)
          have h4 : c.backgroundRank (some (.inl .waiting)) = 4 := rfl
          omega
        · simp only [goto_self, goto_queue]
          have := hack []
          have h4 : c.backgroundRank (some (.inl .waiting)) = 4 := rfl
          omega
    | closingAck =>
        obtain ⟨-, rfl⟩ := hd
        simp only [goto_self, goto_queue, close_queue, backgroundRank]
        omega
    | running => exact hd.elim
    | aborting ends =>
        cases hd
        simp only [kill_self, kill_queue, backgroundRank]
        omega
  · exact hd.elim

theorem fall_foreground (hs : Step c.program cap s (.run .foreground) s') :
    c.remaining s' < c.remaining s := by
  obtain ⟨q, hq, hd⟩ := hs.does
  have hb : s'.pc .background = s.pc .background := hs.pc_other (by decide)
  unfold remaining
  rw [hb, hq]
  rcases q with b | f
  · exact hd.elim
  · cases f with
    | closingWrite =>
        obtain ⟨-, rfl⟩ := hd
        simp only [goto_self, goto_queue, close_queue, foregroundRank]
        omega
    | closingRead =>
        obtain ⟨-, rfl⟩ := hd
        simp only [goto_self, goto_queue, close_queue, foregroundRank]
        omega
    | mapping m =>
        have hrec := foregroundRank_readRecord (c := c) m
        have h8 : foregroundRank (some (.inr (.mapping m))) = 8 := rfl
        obtain ⟨-, ⟨hne, rfl⟩ | ⟨-, -, rfl⟩⟩ := hd
        · have hlen := List.length_pos_of_ne_nil hne
          simp only [goto_self, goto_queue, fill_self, fill_btf_ftb, List.length_drop]
          have := hrec ((s.queue .btf).take 3)
          omega
        · simp only [goto_self, goto_queue]
          have h1 : foregroundRank (some (.inr (c.readRecord m []))) = 1 := rfl
          omega
    | readingTail m =>
        have htail := foregroundRank_readTail m
        have h7 : foregroundRank (some (.inr (.readingTail m))) = 7 := rfl
        obtain ⟨-, ⟨hne, rfl⟩ | ⟨-, -, rfl⟩⟩ := hd
        · simp only [goto_self, goto_queue, fill_self, fill_btf_ftb, List.length_drop]
          have := htail ((s.queue .btf).take 1)
          omega
        · simp only [goto_self, goto_queue]
          have := htail []
          omega
    | closing m tail =>
        obtain ⟨-, rfl⟩ := hd
        simp only [goto_self, goto_queue, close_queue, foregroundRank]
        omega
    | acking m tail =>
        obtain ⟨-, ⟨-, -, rfl⟩ | ⟨-, rfl⟩⟩ := hd
        · simp only [goto_self, goto_queue, fill_self, fill_ftb_btf, foregroundRank, List.length_append, List.length_singleton]
          omega
        · simp only [goto_self, goto_queue, foregroundRank]
          omega
    | closingAck m tail =>
        obtain ⟨-, rfl⟩ := hd
        have h3 : foregroundRank (some (.inr (.closingAck m tail))) = 3 := rfl
        simp only [goto_self, goto_queue, close_queue, foregroundRank_finish]
        omega
    | replaying m tail => exact hd.elim
    | failed err ends => exact hd.elim

theorem fall_kill {t : Proc} (hs : Step c.program cap s (.kill t) s') :
    c.remaining s' < c.remaining s := by
  cases hs with
  | @kill _ q hq =>
      unfold remaining
      cases t with
      | background =>
          have := backgroundRank_pos (c := c) q
          rw [kill_self, kill_other (by decide), kill_queue, hq]
          have h0 : c.backgroundRank none = 0 := rfl
          omega
      | foreground =>
          have := foregroundRank_pos q
          rw [kill_self, kill_other (by decide), kill_queue, hq]
          have h0 : foregroundRank none = 0 := rfl
          omega

/-- **The hand-shake comes to an end**, whatever the order of steps and whoever dies. -/
theorem not_endless_handShake : ¬ Endless (Step c.program cap) start := by
  refine not_endless (I := fun _ => True) c.remaining trivial (fun _ _ _ _ _ => trivial) ?_
  intro s a s' _ hs
  cases a with
  | run t =>
      cases t with
      | background => exact fall_background hs
      | foreground => exact fall_foreground hs
  | kill t => exact fall_kill hs

end HandShake

open HandShake

/-! ## 4. The hand-shake -/

section

variable {c : HandShake} {cap : Wire → ℕ} {s : Net Wire Proc ℕ Place}

/-- One page and the tail 64 are handed over. -/
def onePageSent : HandShake where
  minAddr := 65536
  dir _ := some ⟨4096, fun k => k⟩
  regions := [⟨65536, 4096, 1⟩]
  tail := 64
  mem _ := 0

/-- Pipes of six words. -/
def twoRecords : Wire → ℕ := fun _ => 6

/-- The two processes take turns until both are at work. -/
theorem runs_onePageSent : ∃ s q, Runs (Step onePageSent.program twoRecords) Always start s ∧
    s.pc .background = some (.inl .running) ∧ s.pc .foreground = some q := by
  have h : Runs (Step onePageSent.program twoRecords) Always start start := .start
  have h := Runs.step (.run .background) h trivial (Step.close (by rfl) (by rfl) (by rfl))
  have h := Runs.step (.run .foreground) h trivial (Step.close (by rfl) (by rfl) (by rfl))
  have h := Runs.step (.run .background) h trivial (Step.close (by rfl) (by rfl) (by rfl))
  have h := Runs.step (.run .background) h trivial (Step.write (by rfl) (by rfl) (by rfl) ⟨.foreground, rfl⟩ (by decide))
  have h := Runs.step (.run .foreground) h trivial (Step.close (by rfl) (by rfl) (by rfl))
  have h := Runs.step (.run .foreground) h trivial (Step.read (by rfl) (by rfl) (by rfl) (List.cons_ne_nil _ _))
  have h := Runs.step (.run .background) h trivial (Step.write (by rfl) (by rfl) (by rfl) ⟨.foreground, rfl⟩ (by decide))
  have h := Runs.step (.run .background) h trivial (Step.work (by rfl) (by rfl))
  have h := Runs.step (.run .background) h trivial (Step.write (by rfl) (by rfl) (by rfl) ⟨.foreground, rfl⟩ (by decide))
  have h := Runs.step (.run .background) h trivial (Step.close (by rfl) (by rfl) (by rfl))
  have h := Runs.step (.run .foreground) h trivial (Step.read (by rfl) (by rfl) (by rfl) (List.cons_ne_nil _ _))
  have h := Runs.step (.run .foreground) h trivial (Step.read (by rfl) (by rfl) (by rfl) (List.cons_ne_nil _ _))
  have h := Runs.step (.run .foreground) h trivial (Step.close (by rfl) (by rfl) (by rfl))
  have h := Runs.step (.run .foreground) h trivial (Step.write (by rfl) (by rfl) (by rfl) ⟨.background, rfl⟩ (by decide))
  have h := Runs.step (.run .background) h trivial (Step.read (by rfl) (by rfl) (by rfl) (List.cons_ne_nil _ _))
  have h := Runs.step (.run .foreground) h trivial (Step.close (by rfl) (by rfl) (by rfl))
  have h := Runs.step (.run .background) h trivial (Step.close (by rfl) (by rfl) (by rfl))
  exact ⟨_, _, h, rfl, rfl⟩

/-- **The processes agree.** For any order of steps and wherever a process is killed: a foreground
    that goes on to replay has mapped what the regions sent lead to, and has the tail that was sent;
    and when the background begins the instrumented execution, the foreground, if it is alive, has
    mapped all its regions. -/
theorem handShake_agrees (hr : ∀ r ∈ c.regions, 0 < r.size) (ht : c.tail < 2 ^ 31)
    (h : Runs (Step c.program cap) Always start s) :
    (∀ m tail, s.pc .foreground = some (.inr (.replaying m tail)) →
      c.Loaded m ∧ tail = some c.tail) ∧
    (∀ q, s.pc .background = some (.inl .running) → s.pc .foreground = some q →
      ∃ m, c.Loaded m ∧ (q = .inr (.closingAck m c.tail) ∨ q = .inr (.replaying m (some c.tail)))) := by
  obtain ⟨-, ⟨qs, cs, -, -, hexp, -⟩, hack⟩ := inv_reached hr ht h
  constructor
  · intro m tail hf
    rw [hf] at hexp
    exact ⟨hexp.1, hexp.2.1⟩
  · intro q hb hf
    rw [hb, hf] at hack
    rw [hf] at hexp
    have hquiet : ¬ Unacked (some (.inl .running)) (s.queue .ftb) := fun hc => hc.2 trivial
    match q, hack, hexp with
    | .inr (.closingAck m tail), _, hexp =>
        obtain ⟨hm, rfl, -⟩ := hexp
        exact ⟨m, hm, Or.inl rfl⟩
    | .inr (.replaying m tail), _, hexp =>
        obtain ⟨hm, rfl, -⟩ := hexp
        exact ⟨m, hm, Or.inr rfl⟩
    | .inl _, hack, _ => exact absurd hack hquiet
    | .inr .closingWrite, hack, _ => exact absurd hack hquiet
    | .inr .closingRead, hack, _ => exact absurd hack hquiet
    | .inr (.mapping _), hack, _ => exact absurd hack hquiet
    | .inr (.readingTail _), hack, _ => exact absurd hack hquiet
    | .inr (.closing _ _), hack, _ => exact absurd hack hquiet
    | .inr (.acking _ _), hack, _ => exact absurd hack hquiet
    | .inr (.failed _ _), hack, _ => exact absurd hack hquiet

theorem handShake_agrees_onePage :
    ∃ s q, Runs (Step onePageSent.program twoRecords) Always start s ∧
      s.pc .background = some (.inl .running) ∧ s.pc .foreground = some q ∧
      ∃ m, onePageSent.Loaded m ∧
        (q = .inr (.closingAck m 64) ∨ q = .inr (.replaying m (some 64))) := by
  obtain ⟨s, q, h, hb, hq⟩ := runs_onePageSent
  exact ⟨s, q, h, hb, hq, (handShake_agrees (by decide) (by decide) h).2 q hb hq⟩

/-- **Nobody waits in vain.** When neither process can go on, whoever has been killed: the foreground,
    if it is alive, has come to its end; the background, if it is alive, has come to its end or waits
    for a foreground that has returned an error to its caller and lives on. -/
theorem handShake_no_deadlock (hcap : 3 ≤ cap .btf ∧ 1 ≤ cap .ftb)
    (hr : ∀ r ∈ c.regions, 0 < r.size) (ht : c.tail < 2 ^ 31)
    (h : Runs (Step c.program cap) Always start s) (hs : Stuck c.program cap s) :
    (∀ q, s.pc .foreground = some q →
      (∃ m tail, q = .inr (.replaying m tail)) ∨ ∃ err ends, q = .inr (.failed err ends)) ∧
    (∀ q, s.pc .background = some q →
      q = .inl .running ∨ ∃ err ends, s.pc .foreground = some (.inr (.failed err ends))) := by
  obtain ⟨hh, hi⟩ := inv_reached hr ht h
  exact ⟨fun q => foreground_done hcap hh hi hs, fun q => background_done hcap hh hi hs⟩

/-- A foreground that has returned an error, and no background. -/
theorem stuck_of_failed {err : ℕ} {ends : WireEnds} (hb : s.pc .background = none)
    (hf : s.pc .foreground = some (.inr (.failed err ends))) : Stuck c.program cap s := by
  intro t s' hs
  obtain ⟨q, hq, hd⟩ := hs.does
  cases t with
  | background => exact absurd (hb.symm.trans hq) (by simp)
  | foreground =>
      obtain rfl := Option.some.inj (hf.symm.trans hq)
      exact hd

/-- The background is killed at once: the foreground meets the end of the stream. -/
theorem handShake_no_deadlock_killed :
    ∃ s q, Runs (Step onePageSent.program twoRecords) Always start s ∧
      Stuck onePageSent.program twoRecords s ∧ s.pc .background = none ∧ s.pc .foreground = some q ∧
      ((∃ m tail, q = .inr (.replaying m tail)) ∨ ∃ err ends, q = .inr (.failed err ends)) := by
  have h : Runs (Step onePageSent.program twoRecords) Always start start := .start
  have h := Runs.step (.kill .background) h trivial (.kill (by rfl))
  have h := Runs.step (.run .foreground) h trivial (Step.close (by rfl) (by rfl) (by rfl))
  have h := Runs.step (.run .foreground) h trivial (Step.close (by rfl) (by rfl) (by rfl))
  have h := Runs.step (.run .foreground) h trivial (Step.eof (by rfl) (by rfl) (by rfl) (by rfl)
    (by rintro ⟨t, ht⟩; cases t <;> cases ht))
  refine ⟨_, _, h, @stuck_of_failed _ _ _ einval _ rfl rfl, rfl, rfl, ?_⟩
  exact (handShake_no_deadlock (by decide) (by decide) (by decide) h
    (@stuck_of_failed _ _ _ einval _ rfl rfl)).1 _ rfl

/-- **The hand-shake completes.** When the regions can be handed off and nobody is killed, no run
    goes on for ever, and one that cannot go on has brought both processes to work on the same
    regions and the same tail. -/
theorem handShake_completes {m0 : Mapping} (hcap : 3 ≤ cap .btf ∧ 1 ≤ cap .ftb)
    (hr : ∀ r ∈ c.regions, 0 < r.size) (h0 : 0 ≤ c.tail) (ht : c.tail < 2 ^ 31)
    (hm : c.Loaded m0) :
    ¬ Endless (Step c.program cap) start ∧
      ∀ s, Runs (Step c.program cap) NoKill start s → Stuck c.program cap s →
        s.pc .background = some (.inl .running) ∧
          s.pc .foreground = some (.inr (.replaying m0 (some c.tail))) := by
  refine ⟨not_endless_handShake, fun s h hs => ?_⟩
  have hinv : HeldBy holds s ∧ c.Inv s ∧ Sound s := by
    refine h.invariant (I := fun s => HeldBy holds s ∧ c.Inv s ∧ Sound s)
      ⟨heldBy_start, good_start hr, ⟨_, rfl, id⟩, _, rfl, id⟩ ?_
    rintro s a s' ⟨hh, hi, hsound⟩ ⟨t, rfl⟩ hstep
    refine ⟨held_step accounts hh hstep, inv_step ht hi hstep, ?_⟩
    cases t with
    | background => exact sound_background h0 hh hi hsound hstep
    | foreground => exact sound_foreground hm hh hi hsound hstep
  obtain ⟨hh, hi, ⟨b, hb, -⟩, f, hf, hlive⟩ := hinv
  have hfg : ∃ m tail, Sum.inr f = (.inr (.replaying m tail) : Place) := by
    rcases foreground_done hcap hh hi hs hf with hrep | ⟨err, ends, he⟩
    · exact hrep
    · exact absurd (Sum.inr.inj he ▸ trivial) hlive
  obtain ⟨m, tail, he⟩ := hfg
  rw [he] at hf
  constructor
  · rcases background_done hcap hh hi hs hb with hrun | ⟨err, ends, hfail⟩
    · rw [hb, hrun]
    · exact absurd (hf.symm.trans hfail) fun hc => by cases hc
  · obtain ⟨qs, cs, -, -, hexp, -⟩ := hi.1
    rw [hf] at hexp
    obtain ⟨hmm, rfl, -⟩ := hexp
    have hmap : m = m0 := (Prod.ext_iff.mp (Prod.ext_iff.mp (hmm.symm.trans hm)).2).1
    rw [hf, hmap]

theorem handShake_completes_onePage :
    ¬ Endless (Step onePageSent.program twoRecords) start ∧
      ∀ s, Runs (Step onePageSent.program twoRecords) NoKill start s →
        Stuck onePageSent.program twoRecords s →
        s.pc .background = some (.inl .running) ∧
          s.pc .foreground = some (.inr (.replaying
            (Mapping.loads onePageSent.dir ⟨onePageSent.mem, []⟩ onePageSent.regions) (some 64))) :=
  handShake_completes (by decide) (by decide) (by decide) (by decide)
    (mapRecovered_good (by decide)
      (fun r hr => by rw [List.mem_singleton.mp hr]; exact ⟨_, rfl, rfl⟩)
      fun r hr => by rw [List.mem_singleton.mp hr]; exact ⟨by decide, by decide⟩)

end

end Persimmon
