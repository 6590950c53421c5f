/-
  File:      Persimmon/Instrument.lean
  Subject:   THE INSTRUMENTATION of the application's code: which stores are recorded, and what a
             rollback makes of a run of instrumented code (src/undo/instrument.cc:
             `event_app_instruction`, `insert_instrumentation`, `record_write`).

  The default build: `OPTIMIZE_SKIP_RECORD` is 0, so a clean call of `record_write` stands before the
  instruction, one for each destination operand in memory. Two checks leave stores out, one when the
  code is translated (the base register is the stack pointer) and one when it runs (the address is
  not below the red zone).

  An instruction is what DynamoRIO says of it: its destinations, and a behaviour that stores inside
  them. String loops have been expanded before (`event_bb_app2app`).

  * `Opnd`, `AppInstr`, `Build` -- operands, instructions, the options of the build;
  * `eventAppInstruction`, `recordWrite`, `runAccesses` -- the pass, the call, and a run of the code it
    emits;
  * `Exempt`, `Placed` -- the destinations that are left out; where destinations lie;
  * `guarded_run` -- every store of instrumented code has been recorded, or is exempt;
  * `instrumented_atomic` -- recovery from any point of a run and its commit.
-/
import Persimmon.Accesses

namespace Persimmon

open PersistentMemory

/-! ## 1. Instructions -/

/-- A destination operand. Displacements are signed, addresses wrap around. -/
inductive Opnd (R : Type*) where
  | reg (r : R)
  | baseDisp (base index : Option R) (scale : ℕ) (disp : ℤ) (size : ℕ)
  | absAddr (addr size : ℕ)

namespace Opnd

variable {R : Type*}

/-- `opnd_is_memory_reference` -/
def isMemoryReference : Opnd R → Bool
  | .reg _ => false
  | .baseDisp _ _ _ _ _ => true
  | .absAddr _ _ => true

/-- `drutil_opnd_mem_size_in_bytes` -/
def memSize : Opnd R → ℕ
  | .reg _ => 0
  | .baseDisp _ _ _ _ size => size
  | .absAddr _ size => size

/-- What `drutil_insert_get_mem_addr` leaves in the register it is given. -/
def memAddr (regs : R → ℕ) : Opnd R → ℕ
  | .reg _ => 0
  | .baseDisp base index scale disp _ =>
      (((base.elim 0 regs + index.elim 0 regs * scale : ℕ) + disp) % 2 ^ 64).toNat
  | .absAddr addr _ => addr

/-- `opnd_is_base_disp(opnd) && opnd_get_base(opnd) == xsp` -/
def onStack [DecidableEq R] (xsp : R) : Opnd R → Bool
  | .baseDisp base _ _ _ _ => decide (base = some xsp)
  | _ => false

end Opnd

/-- **An instruction**: where it comes from, its destinations, and what it does to the registers and
    the memory. It stores inside its destinations. -/
structure AppInstr (R : Type*) where
  pc : ℕ
  /-- `instr_is_app` -/
  isApp : Bool
  dsts : List (Opnd R)
  exec : (R → ℕ) → (ℕ → ℕ) → (R → ℕ) × List Store
  inside : ∀ regs mem, ∀ st ∈ (exec regs mem).2, ∀ i < st.bytes.length,
    ∃ o ∈ dsts, o.isMemoryReference = true ∧ o.memAddr regs ≤ st.addr + i ∧
      st.addr + i < o.memAddr regs + o.memSize

/-- The options of the build, and the module of the persistence code. -/
structure Build (R : Type*) where
  /-- `OPTIMIZE_SKIP_STACK` -/
  skipStack : Bool
  /-- `DR_REG_XSP` -/
  xsp : R
  /-- `dr_module_contains_addr(psm_module, pc)` -/
  inPsmModule : ℕ → Bool

/-! ## 2. The pass, and a run of the code it emits -/

section Pass

variable {R : Type*} [DecidableEq R] (b : Build R)

/-- `instr_writes_memory` -/
def AppInstr.writesMemory (i : AppInstr R) : Bool := i.dsts.any Opnd.isMemoryReference

/-- The clean call `insert_instrumentation` inserts: its operand. No result when its assertion
    fails. -/
def insertInstrumentation (o : Opnd R) : Option (Opnd R) := if 0 < o.memSize then some o else none

/-- **`event_app_instruction`**: the operands of the calls that stand before the instruction. -/
def eventAppInstruction (i : AppInstr R) : Option (List (Opnd R)) :=
  if i.isApp = false then some []
  else if b.inPsmModule i.pc = true then some []
  else if i.writesMemory = false then some []
  else
    (i.dsts.filter fun o => o.isMemoryReference && !(b.skipStack && o.onStack b.xsp)).mapM
      insertInstrumentation

/-- **`record_write`**: the range it calls `undo_log_record` for, if it does. -/
def recordWrite (addr size rsp : ℕ) : List (ℕ × ℕ) :=
  if b.skipStack = true ∧ sub64 rsp 128 ≤ addr then [] else [(addr, size)]

/-- The ranges recorded before an instruction. -/
def recordWrites (ops : List (Opnd R)) (regs : R → ℕ) : List (ℕ × ℕ) :=
  ops.flatMap fun o => recordWrite b (o.memAddr regs) o.memSize (regs b.xsp)

/-- The calls and stores of one instruction. -/
def instrAccesses (i : AppInstr R) (ops : List (Opnd R)) (regs : R → ℕ) (mem : ℕ → ℕ) : List Access :=
  (recordWrites b ops regs).map (fun r => .record r.1 r.2) ++ (i.exec regs mem).2.map .store

/-- **A run of instrumented code**: the calls and stores of the instructions executed, in order. No
    result when an assertion of the pass fails. -/
def runAccesses : (R → ℕ) → (ℕ → ℕ) → List (AppInstr R) → Option (List Access)
  | _, _, [] => some []
  | regs, mem, i :: is =>
      (eventAppInstruction b i).bind fun ops =>
        let out := i.exec regs mem
        (runAccesses out.1 (storesMem mem out.2) is).map fun rest => instrAccesses b i ops regs mem ++ rest

/-- The memory the code itself leaves, instrumented or not. -/
def runMem : (R → ℕ) → (ℕ → ℕ) → List (AppInstr R) → ℕ → ℕ
  | _, mem, [] => mem
  | regs, mem, i :: is =>
      let out := i.exec regs mem
      runMem out.1 (storesMem mem out.2) is

/-- **A destination whose stores are not recorded.** -/
def Exempt (i : AppInstr R) (regs : R → ℕ) (o : Opnd R) : Prop :=
  i.isApp = false ∨ b.inPsmModule i.pc = true ∨
    (b.skipStack = true ∧ (o.onStack b.xsp = true ∨ sub64 (regs b.xsp) 128 ≤ o.memAddr regs))

instance (i : AppInstr R) (regs : R → ℕ) (o : Opnd R) : Decidable (Exempt b i regs o) :=
  inferInstanceAs (Decidable (_ ∨ _ ∨ _))

/-- **Where the destinations of a run lie**: the exempt ones on lines without managed memory, the
    others in managed memory. -/
def Placed (table : List Region) : (R → ℕ) → (ℕ → ℕ) → List (AppInstr R) → Prop
  | _, _, [] => True
  | regs, mem, i :: is =>
      (∀ o ∈ i.dsts, o.isMemoryReference = true → ∀ k < o.memSize,
        (Exempt b i regs o → Line.mem (cacheLine (o.memAddr regs + k)) ∈ Aside table) ∧
          (¬ Exempt b i regs o → o.memAddr regs + k ∈ regionPts table)) ∧
        Placed table (i.exec regs mem).1 (storesMem mem (i.exec regs mem).2) is

/-! ## 3. What is recorded -/

variable {b} {table : List Region}

omit [DecidableEq R] in
/-- Every operand of a call has passed the assertion, and comes from the filter. -/
theorem mapM_insertInstrumentation {os ops : List (Opnd R)}
    (h : os.mapM insertInstrumentation = some ops) : ops = os ∧ ∀ o ∈ os, 0 < o.memSize := by
  induction os generalizing ops with
  | nil =>
      cases h
      exact ⟨rfl, fun o ho => absurd ho List.not_mem_nil⟩
  | cons o os ih =>
      rw [List.mapM_cons] at h
      obtain ⟨o', ho, h⟩ := Option.bind_eq_some_iff.mp h
      obtain ⟨os', hos, h⟩ := Option.bind_eq_some_iff.mp h
      cases h
      unfold insertInstrumentation at ho
      split at ho
      · rename_i hpos
        cases ho
        obtain ⟨rfl, hall⟩ := ih hos
        exact ⟨rfl, List.forall_mem_cons.mpr ⟨hpos, hall⟩⟩
      · cases ho

/-- **What the pass emits**: calls for destinations in memory, of a positive size; for each of them,
    unless it is exempt. -/
theorem mem_eventAppInstruction {i : AppInstr R} {ops : List (Opnd R)}
    (h : eventAppInstruction b i = some ops) {o : Opnd R} :
    (o ∈ ops → o ∈ i.dsts ∧ o.isMemoryReference = true ∧ 0 < o.memSize ∧ i.isApp = true ∧
        b.inPsmModule i.pc = false ∧ (b.skipStack && o.onStack b.xsp) = false) ∧
      (∀ regs, o ∈ i.dsts → o.isMemoryReference = true → ¬ Exempt b i regs o → o ∈ ops) := by
  unfold eventAppInstruction at h
  split at h
  · rename_i happ
    cases h
    exact ⟨fun ho => absurd ho List.not_mem_nil, fun regs _ _ hex => absurd (Or.inl happ) hex⟩
  split at h
  · rename_i hpsm
    cases h
    exact ⟨fun ho => absurd ho List.not_mem_nil,
      fun regs _ _ hex => absurd (Or.inr (Or.inl hpsm)) hex⟩
  split at h
  · rename_i hwr
    cases h
    refine ⟨fun ho => absurd ho List.not_mem_nil, fun regs ho hm _ => ?_⟩
    have hwrites : i.writesMemory = true := List.any_eq_true.mpr ⟨o, ho, hm⟩
    rw [hwr] at hwrites
    cases hwrites
  rename_i happ hpsm _
  obtain ⟨rfl, hpos⟩ := mapM_insertInstrumentation h
  have hmem : o ∈ (i.dsts.filter fun o => o.isMemoryReference && !(b.skipStack && o.onStack b.xsp)) ↔
      o ∈ i.dsts ∧ o.isMemoryReference = true ∧ (b.skipStack && o.onStack b.xsp) = false := by
    rw [List.mem_filter, Bool.and_eq_true, Bool.not_eq_true']
  refine ⟨fun ho => ?_, fun regs ho hm hex => hmem.mpr ⟨ho, hm, ?_⟩⟩
  · obtain ⟨h1, h2, h3⟩ := hmem.mp ho
    exact ⟨h1, h2, hpos o ho, by simpa using happ, by simpa using hpsm, h3⟩
  · rw [Bool.eq_false_iff]
    intro hst
    rw [Bool.and_eq_true] at hst
    exact hex (Or.inr (Or.inr ⟨hst.1, Or.inl hst.2⟩))

/-- **The ranges recorded are those of the destinations that are not exempt.** -/
theorem mem_recordWrites {i : AppInstr R} {ops : List (Opnd R)} {regs : R → ℕ} {r : ℕ × ℕ}
    (h : eventAppInstruction b i = some ops) :
    r ∈ recordWrites b ops regs ↔ ∃ o ∈ i.dsts, o.isMemoryReference = true ∧
      ¬ Exempt b i regs o ∧ (0 < o.memSize ∧ r = (o.memAddr regs, o.memSize)) := by
  rw [recordWrites, List.mem_flatMap]
  constructor
  · intro ⟨o, ho, hin⟩
    obtain ⟨h1, h2, h3, happ, hpsm, hstack⟩ := (mem_eventAppInstruction h).1 ho
    unfold recordWrite at hin
    split at hin
    · exact absurd hin List.not_mem_nil
    · rename_i hskip
      refine ⟨o, h1, h2, fun hex => ?_, h3, List.mem_singleton.mp hin⟩
      rcases hex with hex | hex | ⟨hsk, hex | hex⟩
      · rw [happ] at hex
        cases hex
      · rw [hpsm] at hex
        cases hex
      · rw [hsk, hex] at hstack
        cases hstack
      · exact hskip ⟨hsk, hex⟩
  · intro ⟨o, ho, hm, hex, hpos, hr⟩
    refine ⟨o, (mem_eventAppInstruction h).2 regs ho hm hex, ?_⟩
    unfold recordWrite
    rw [if_neg fun hskip => hex (Or.inr (Or.inr ⟨hskip.1, Or.inr hskip.2⟩)), hr]
    exact List.mem_singleton_self _

/-! ## 4. Every store has been recorded, or is exempt -/

/-- A guarded run may follow more records. -/
theorem Guarded.mono {seen seen' : List (ℕ × ℕ)} {cs : List Access} (h : Guarded table seen cs)
    (hsub : ∀ r ∈ seen, r ∈ seen') : Guarded table seen' cs := by
  induction cs generalizing seen seen' with
  | nil => trivial
  | cons c cs ih =>
      cases c with
      | record addr size =>
          obtain ⟨h1, h2, h3⟩ := h
          refine ⟨h1, h2, ih h3 fun r hr => ?_⟩
          rcases List.mem_cons.mp hr with rfl | hr
          · exact List.mem_cons_self
          · exact List.mem_cons_of_mem _ (hsub r hr)
      | store st =>
          refine ⟨fun i hi => (h.1 i hi).imp id fun ⟨r, hr, h1⟩ => ⟨r, hsub r hr, h1⟩, ih h.2 hsub⟩

/-- Records of managed ranges, then what they guard. -/
theorem guarded_records {seen : List (ℕ × ℕ)} {rs : List (ℕ × ℕ)} {cs : List Access}
    (h : ∀ r ∈ rs, 0 < r.2 ∧ ∀ k < r.2, r.1 + k ∈ regionPts table)
    (hcs : Guarded table (rs ++ seen) cs) :
    Guarded table seen (rs.map (fun r => Access.record r.1 r.2) ++ cs) := by
  induction rs generalizing seen with
  | nil => exact hcs
  | cons r rs ih =>
      obtain ⟨hpos, hin⟩ := h r List.mem_cons_self
      refine ⟨hpos, hin, ih (fun q hq => h q (List.mem_cons_of_mem _ hq)) (hcs.mono fun q hq => ?_)⟩
      simp only [List.cons_append, List.mem_cons, List.mem_append] at hq ⊢
      tauto

/-- Stores that are guarded, then the rest of the run. -/
theorem guarded_stores {seen : List (ℕ × ℕ)} {sts : List Store} {cs : List Access}
    (h : ∀ st ∈ sts, ∀ i < st.bytes.length, Line.mem (cacheLine (st.addr + i)) ∈ Aside table ∨
      ∃ r ∈ seen, r.1 ≤ st.addr + i ∧ st.addr + i < r.1 + r.2)
    (hcs : Guarded table seen cs) : Guarded table seen (sts.map Access.store ++ cs) := by
  induction sts with
  | nil => exact hcs
  | cons st sts ih =>
      exact ⟨h st List.mem_cons_self, ih fun st' hst' => h st' (List.mem_cons_of_mem _ hst')⟩

/-- **Every store of instrumented code has been recorded, or is aside**, when destinations lie where
    they should. -/
theorem guarded_run {is : List (AppInstr R)} {regs : R → ℕ} {mem : ℕ → ℕ} {cs : List Access}
    (h : runAccesses b regs mem is = some cs) (hp : Placed b table regs mem is) (seen : List (ℕ × ℕ)) :
    Guarded table seen cs := by
  induction is generalizing regs mem cs seen with
  | nil =>
      cases h
      trivial
  | cons i is ih =>
      obtain ⟨ops, hops, h⟩ := Option.bind_eq_some_iff.mp h
      obtain ⟨rest, hrest, rfl⟩ := Option.map_eq_some_iff.mp h
      obtain ⟨hdsts, hplaced⟩ := hp
      have hran : ∀ r ∈ recordWrites b ops regs, 0 < r.2 ∧ ∀ k < r.2, r.1 + k ∈ regionPts table :=
        fun r hr => by
          obtain ⟨o, ho, hm, hex, hpos, rfl⟩ := (mem_recordWrites hops).mp hr
          exact ⟨hpos, fun k hk => (hdsts o ho hm k hk).2 hex⟩
      rw [instrAccesses, List.append_assoc]
      refine guarded_records hran (guarded_stores (fun st hst j hj => ?_) (ih hrest hplaced _))
      obtain ⟨o, ho, hm, h1, h2⟩ := i.inside regs mem st hst j hj
      have hk : o.memAddr regs + (st.addr + j - o.memAddr regs) = st.addr + j := by omega
      by_cases hex : Exempt b i regs o
      · have haside := (hdsts o ho hm (st.addr + j - o.memAddr regs) (by omega)).1 hex
        rw [hk] at haside
        exact Or.inl haside
      · have hin : (o.memAddr regs, o.memSize) ∈ recordWrites b ops regs :=
          (mem_recordWrites hops).mpr ⟨o, ho, hm, hex, by omega, rfl⟩
        exact Or.inr ⟨_, List.mem_append_left _ hin, h1, h2⟩

/-- The run leaves the memory the code itself leaves. -/
theorem accessMem_run {is : List (AppInstr R)} {regs : R → ℕ} {mem : ℕ → ℕ} {cs : List Access}
    (h : runAccesses b regs mem is = some cs) : accessMem mem cs = runMem regs mem is := by
  induction is generalizing regs mem cs with
  | nil =>
      cases h
      rfl
  | cons i is ih =>
      obtain ⟨ops, hops, h⟩ := Option.bind_eq_some_iff.mp h
      obtain ⟨rest, hrest, rfl⟩ := Option.map_eq_some_iff.mp h
      have hrecs : ∀ (rs : List (ℕ × ℕ)) (m : ℕ → ℕ),
          accessMem m (rs.map fun r => Access.record r.1 r.2) = m := fun rs m => by
        induction rs with
        | nil => rfl
        | cons r rs ihr => exact ihr
      have hstores : accessMem mem ((i.exec regs mem).2.map Access.store) =
          storesMem mem (i.exec regs mem).2 := by
        rw [accessMem, List.foldl_map]
        rfl
      rw [instrAccesses, accessMem, List.foldl_append, List.foldl_append]
      have h1 := hrecs (recordWrites b ops regs) mem
      unfold accessMem at h1 hstores ih
      rw [h1, hstores]
      exact ih hrest

/-! ## 5. Recovery -/

/-- **Recovery from any point of a run of instrumented code and its commit**: the managed memory is
    that of the beginning, or, if a tail is returned, that which the code leaves; it is the latter
    once the commit is over. -/
theorem instrumented_atomic {d : Files} {t : Tables} {mrm : Manager} (ht : Tiled t.table)
    (hrec : Manager.new.recover d t = some mrm) {v0 : Cell → ℕ}
    (hnull : ∀ i, (logImage v0 i).isNull = true) {is : List (AppInstr R)} {regs : R → ℕ}
    {cs : List Access} (hrun : runAccesses b regs (memImage v0) is = some cs)
    (hp : Placed b t.table regs (memImage v0) is)
    (hlen : (accessLog [] (memImage v0) cs).length + 1 < undoNumEntries) {tail : ℕ}
    {part : List Event} (hpart : part <+: accessCommitted v0 cs tail) {s : Machine}
    (hs : Exec lineOf (Memory.start v0) part s) :
    ∃ log m r, recoverImage mrm.doesManage s.pm = some (log, m, r) ∧
      ((r = none ∧ part ≠ accessCommitted v0 cs tail ∧ ∀ x ∈ regionPts t.table, m x = memImage v0 x) ∨
        (r = some tail ∧ ∀ x ∈ regionPts t.table, m x = runMem regs (memImage v0) is x)) := by
  rw [← accessMem_run hrun]
  exact accesses_recover ht hrec hnull (guarded_run hrun hp []) hlen hpart hs

end Pass

/-! ## 6. A store to the page and a push -/

/-- The stack pointer and another register. -/
inductive TwoRegs where
  | xsp
  | xax
  deriving DecidableEq, Repr

/-- `mov byte [xax], 7` -/
def movByte : AppInstr TwoRegs where
  pc := 16
  isApp := true
  dsts := [.baseDisp (some .xax) none 1 0 1]
  exec regs _ := (regs, [⟨((regs .xax : ℕ) % 2 ^ 64), [7]⟩])
  inside regs mem st hst i hi := by
    obtain rfl := List.mem_singleton.mp hst
    refine ⟨_, List.mem_singleton_self _, rfl, ?_⟩
    simp only [List.length_singleton] at hi
    simp only [Opnd.memAddr, Opnd.memSize, Option.elim]
    omega

/-- `push 9`, one byte wide -/
def pushByte : AppInstr TwoRegs where
  pc := 17
  isApp := true
  dsts := [.reg .xsp, .baseDisp (some .xsp) none 1 (-1) 1]
  exec regs _ := (fun r => if r = .xsp then ((regs .xsp - 1 : ℤ) % 2 ^ 64).toNat else regs r,
    [⟨((regs .xsp - 1 : ℤ) % 2 ^ 64).toNat, [9]⟩])
  inside regs mem st hst i hi := by
    obtain rfl := List.mem_singleton.mp hst
    refine ⟨_, List.mem_cons_of_mem _ (List.mem_singleton_self _), rfl, ?_⟩
    simp only [List.length_singleton] at hi
    simp only [Opnd.memAddr, Opnd.memSize, Option.elim]
    omega

/-- The default build; the persistence code lies elsewhere. -/
def defaultBuild : Build TwoRegs := ⟨true, .xsp, fun _ => false⟩

/-- The page lies at 4096, the stack above. -/
def twoRegs : TwoRegs → ℕ
  | .xsp => 65536
  | .xax => 4100

theorem placed_two : Placed defaultBuild zeroPage.table twoRegs (fun _ => 0) [movByte, pushByte] := by
  refine ⟨fun o ho hm k hk => ?_, fun o ho hm k hk => ?_, trivial⟩
  · obtain rfl := List.mem_singleton.mp ho
    obtain rfl : k = 0 := Nat.lt_one_iff.mp hk
    exact ⟨fun hex => absurd hex (by decide), fun _ => by decide⟩
  · simp only [pushByte, List.mem_cons, List.not_mem_nil, or_false] at ho
    rcases ho with rfl | rfl
    · cases hm
    · obtain rfl : k = 0 := Nat.lt_one_iff.mp hk
      refine ⟨fun _ => ⟨1023, rfl, fun y hy => ?_⟩, fun hex => absurd (by decide) hex⟩
      obtain ⟨r, hr, hy⟩ := hy
      obtain rfl := List.mem_singleton.mp hr
      have hlt : y < 8192 := hy.2
      unfold cacheLine
      omega

/-- A crash in the middle of the commit of the two instructions. -/
theorem instrumented_two :
    ∃ cs, runAccesses defaultBuild twoRegs (fun _ => 0) [movByte, pushByte] = some cs ∧
      ∃ s : Machine, Exec lineOf (Memory.start fun _ => 0)
          ((accessCommitted (fun _ => 0) cs 64).take 40) s ∧
        ∃ log m r, recoverImage (Ranges.empty.insert 4096 4096).findPoint s.pm = some (log, m, r) ∧
          ((r = none ∧ (accessCommitted (fun _ => 0) cs 64).take 40 ≠ accessCommitted (fun _ => 0) cs 64 ∧
              ∀ x ∈ regionPts zeroPage.table, m x = 0) ∨
            (r = some 64 ∧ ∀ x ∈ regionPts zeroPage.table,
              m x = runMem twoRegs (fun _ => 0) [movByte, pushByte] x)) := by
  have hrec : Manager.new.recover ⟨fun _ => true, fun _ _ => 0, fun _ _ => 0⟩ zeroPage =
      some ⟨zeroPage.table, Ranges.empty.insert 4096 4096⟩ := rfl
  obtain ⟨cs, hcs⟩ := Option.isSome_iff_exists.mp
    (show (runAccesses defaultBuild twoRegs (fun _ => 0) [movByte, pushByte]).isSome = true by decide)
  obtain ⟨s, hs⟩ : ∃ s : Machine, Exec lineOf (Memory.start fun _ => 0)
      ((accessCommitted (fun _ => 0) cs 64).take 40) s := exists_exec _ _
  have hlen : ∀ cs ∈ runAccesses defaultBuild twoRegs (fun _ => 0) [movByte, pushByte],
      (accessLog [] (fun _ => 0) cs).length + 1 < undoNumEntries := by decide
  have hnull : ∀ i, (logImage (fun _ => 0) i).isNull = true := fun _ => rfl
  exact ⟨cs, hcs, s, hs, instrumented_atomic zeroPage_tiled hrec hnull hcs placed_two (hlen cs hcs)
    (List.take_prefix _ _) hs⟩

end Persimmon
