/-
  File:      Persimmon/Startup.lean
  Subject:   THE FIRST START: `should_replace` and `init_address_space`, and the system they start
             (src/undo/instrument.cc; src/undo/mem_region/mem_region.cc).

  The instrumentation tool asks what lies at an address (`dr_query_memory_ex`) and goes on behind
  the answer. What it finds is collected first and replaced afterwards; then the region table is
  persisted and committed.

  The queries are parameters: what they answer about a process whose memory areas follow each other
  is `Dr.Walks`. So are the results of the system calls of each replacement.

  * `shouldReplace`, `collect`, `replaceAll`, `initAddressSpace` -- the functions;
  * `collect_eq` -- the walk ends behind the last area, with the areas to be replaced in order;
  * `replaceAll_eq` -- no replacement finds its area occupied;
  * `initAddressSpace_iff` -- when the initialisation completes, and what it leaves;
  * `started_exactly_once` -- the system started on it executes entries exactly once, from the memory
    the process had.
-/
import Persimmon.Consume

namespace Persimmon

open Transition

/-! ## 1. The functions -/

/-- The bits of `dr_mem_info_t::prot` the tool looks at (`DR_MEMPROT_`). -/
structure Prot where
  read : Bool
  write : Bool
  vdso : Bool
  stack : Bool
  shared : Bool
  pretendWrite : Bool
  deriving DecidableEq, Repr

/-- `dr_mem_info_t`; `free` is `type == DR_MEMTYPE_FREE`. -/
structure MemInfo where
  basePc : ℕ
  size : ℕ
  prot : Prot
  free : Bool
  deriving DecidableEq, Repr

/-- `dr_memory_is_dr_internal`, `dr_memory_is_in_client` and `dr_query_memory_ex`. -/
structure Dr where
  isDrInternal : ℕ → Bool
  isInClient : ℕ → Bool
  queryMemory : ℕ → Option MemInfo

/-- **`should_replace`**. No result when an assertion fails. -/
def shouldReplace (dr : Dr) (info : MemInfo) : Option Bool :=
  if dr.isDrInternal info.basePc = true then some false
  else if dr.isInClient info.basePc = true then some false
  else if info.free = true then some false
  else if info.prot.write = false then some false
  else if info.prot.vdso = true then some false
  else if info.prot.stack = true then some false
  else if info.prot.shared = true then some false
  else if info.prot.pretendWrite = true then none
  else if info.prot.read = false then none
  else some true

/-- `POINTER_MAX` -/
def pointerMax : ℕ := 2 ^ 64 - 1

/-- **The walk over the memory areas** from `pc` on: `to_replace`. No result when an assertion fails
    or the fuel runs out. -/
def collect (dr : Dr) : ℕ → ℕ → Option (List MemInfo)
  | 0, _ => none
  | fuel + 1, pc =>
      if pc < pointerMax then
        match dr.queryMemory pc with
        | none => some []
        | some info =>
            match shouldReplace dr info with
            | none => none
            | some replace =>
                (collect dr fuel (add64 info.basePc info.size)).map fun toReplace =>
                  if replace = true then info :: toReplace else toReplace
      else some []

/-- **The replacements**, from the `i`-th on. No result when an assertion fails. -/
def replaceAll (outcome : ℕ → ReplaceOutcome) (mem : ℕ → ℕ) :
    ℕ → List MemInfo → Manager → Files → Option (Manager × Files)
  | _, [], m, d => some (m, d)
  | i, info :: rest, m, d =>
      match m.replaceRegion d mem info.basePc info.size (outcome i) with
      | some (.success, m', d') => replaceAll outcome mem (i + 1) rest m' d'
      | _ => none

/-- The results of the system calls. -/
structure StartCalls where
  outcome : ℕ → ReplaceOutcome
  renamed : Bool
  synced : Bool

/-- **`init_address_space`**, in a process with memory `mem`. What `commit_new_region_table` returns
    is not looked at. -/
def initAddressSpace (dr : Dr) (c : StartCalls) (mem : ℕ → ℕ) (fuel : ℕ) (d : Files) (t : Tables) :
    Option (Manager × Files × Tables) :=
  (collect dr fuel 0).bind fun toReplace =>
    (replaceAll c.outcome mem 0 toReplace Manager.new d).map fun (m, d') =>
      (m, d', (commitNewRegionTable c.renamed c.synced (persistNewRegionTable m t)).2)

/-! ## 2. The walk -/

/-- Memory areas that follow each other from `pc` to `stop`. -/
def Follow : ℕ → List MemInfo → ℕ → Prop
  | pc, [], stop => pc = stop
  | pc, a :: areas, stop => a.basePc = pc ∧ 0 < a.size ∧ Follow (pc + a.size) areas stop

/-- The address lies in the area. -/
def MemInfo.has (a : MemInfo) (x : ℕ) : Prop := a.basePc ≤ x ∧ x < a.basePc + a.size

instance (a : MemInfo) (x : ℕ) : Decidable (a.has x) := inferInstanceAs (Decidable (_ ∧ _))

/-- **The process consists of these areas**, free ones included, from address 0 on: a query answers
    with the area of its address, and fails beyond the last one. -/
structure Dr.Walks (dr : Dr) (areas : List MemInfo) (stop : ℕ) : Prop where
  follow : Follow 0 areas stop
  stop_le : stop ≤ pointerMax
  answers : ∀ a ∈ areas, ∀ x, a.has x → dr.queryMemory x = some a
  fails : ∀ x, stop ≤ x → x < pointerMax → dr.queryMemory x = none

/-- The areas to be replaced. -/
def Dr.replaced (dr : Dr) (areas : List MemInfo) : List MemInfo :=
  areas.filter fun a => shouldReplace dr a = some true

/-- What is replaced: the private memory of the application that it can read and write, its stack
    excepted. -/
theorem mem_replaced {dr : Dr} {areas : List MemInfo} {a : MemInfo} :
    a ∈ dr.replaced areas ↔ a ∈ areas ∧ dr.isDrInternal a.basePc = false ∧
      dr.isInClient a.basePc = false ∧ a.free = false ∧ a.prot = ⟨true, true, false, false, false, false⟩ := by
  obtain ⟨basePc, size, ⟨read, write, vdso, stack, shared, pretendWrite⟩, free⟩ := a
  rw [Dr.replaced, List.mem_filter, decide_eq_true_eq]
  refine and_congr_right fun _ => ?_
  simp only [Prot.mk.injEq]
  unfold shouldReplace
  simp only
  split_ifs <;> simp_all

theorem Follow.le {pc stop : ℕ} {areas : List MemInfo} (h : Follow pc areas stop) : pc ≤ stop := by
  induction areas generalizing pc with
  | nil => exact Nat.le_of_eq h
  | cons a areas ih =>
      obtain ⟨-, -, hrest⟩ := h
      exact le_trans (Nat.le_add_right pc a.size) (ih hrest)

/-- Every area lies between the two ends. -/
theorem Follow.between {pc stop : ℕ} {areas : List MemInfo} (h : Follow pc areas stop) {a : MemInfo}
    (ha : a ∈ areas) : pc ≤ a.basePc ∧ a.basePc + a.size ≤ stop ∧ 0 < a.size := by
  induction areas generalizing pc with
  | nil => cases ha
  | cons b areas ih =>
      obtain ⟨rfl, hpos, hrest⟩ := h
      rcases List.mem_cons.mp ha with rfl | ha
      · exact ⟨le_refl _, hrest.le, hpos⟩
      · obtain ⟨h1, h2⟩ := ih hrest ha
        exact ⟨le_trans (Nat.le_add_right _ _) h1, h2⟩

/-- One area ends where or before a later one begins. -/
theorem Follow.pairwise {pc stop : ℕ} {areas : List MemInfo} (h : Follow pc areas stop) :
    areas.Pairwise fun a b => a.basePc + a.size ≤ b.basePc := by
  induction areas generalizing pc with
  | nil => exact .nil
  | cons a areas ih =>
      obtain ⟨rfl, -, hrest⟩ := h
      exact List.pairwise_cons.mpr ⟨fun b hb => (hrest.between hb).1, ih hrest⟩

/-- What the walk collects from an area on. -/
theorem collect_step {dr : Dr} {fuel pc : ℕ} {a : MemInfo} (hpc : pc < pointerMax)
    (hq : dr.queryMemory pc = some a) (hstop : a.basePc + a.size ≤ pointerMax) :
    collect dr (fuel + 1) pc =
      match shouldReplace dr a with
      | none => none
      | some replace => (collect dr fuel (a.basePc + a.size)).map fun toReplace =>
          if replace = true then a :: toReplace else toReplace := by
  have hadd : add64 a.basePc a.size = a.basePc + a.size :=
    add64_of_lt (lt_of_le_of_lt hstop (by decide))
  rw [collect, if_pos hpc, hq, ← hadd]

/-- **The walk ends behind the last area**, with the areas to be replaced, unless `should_replace`
    asserts. -/
theorem collect_eq {dr : Dr} {areas : List MemInfo} {pc stop fuel : ℕ} (hf : Follow pc areas stop)
    (hstop : stop ≤ pointerMax) (hin : ∀ a ∈ areas, dr.queryMemory a.basePc = some a)
    (hout : stop < pointerMax → dr.queryMemory stop = none) (hfuel : areas.length < fuel) :
    collect dr fuel pc =
      if ∀ a ∈ areas, shouldReplace dr a ≠ none then some (dr.replaced areas) else none := by
  induction areas generalizing pc fuel with
  | nil =>
      obtain ⟨fuel, rfl⟩ := Nat.exists_eq_succ_of_ne_zero (Nat.ne_of_gt hfuel)
      obtain rfl : pc = stop := hf
      rw [if_pos (by simp), collect]
      split
      · rename_i hlt
        rw [hout hlt]
        rfl
      · rfl
  | cons a areas ih =>
      obtain ⟨fuel, rfl⟩ := Nat.exists_eq_succ_of_ne_zero (Nat.ne_of_gt (Nat.zero_lt_of_lt hfuel))
      obtain ⟨rfl, hpos, hrest⟩ := hf
      have hend : a.basePc + a.size ≤ pointerMax := le_trans hrest.le hstop
      rw [collect_step (by omega) (hin a List.mem_cons_self) hend,
        ih hrest (fun b hb => hin b (List.mem_cons_of_mem _ hb)) (Nat.lt_of_succ_lt_succ hfuel)]
      cases hsr : shouldReplace dr a with
      | none => exact (if_neg fun hall => hall a List.mem_cons_self hsr).symm
      | some replace =>
          have hrep : dr.replaced (a :: areas) =
              if replace = true then a :: dr.replaced areas else dr.replaced areas := by
            simp [Dr.replaced, List.filter_cons, hsr]
          by_cases hall : ∀ b ∈ areas, shouldReplace dr b ≠ none
          · rw [if_pos hall, if_pos (List.forall_mem_cons.mpr ⟨by simp [hsr], hall⟩), hrep]
            rfl
          · rw [if_neg hall, if_neg fun h => hall (List.forall_mem_cons.mp h).2]
            rfl

/-! ## 3. The replacements -/

/-- Every system call of a replacement succeeds. -/
def ReplaceOutcome.Good (o : ReplaceOutcome) : Prop :=
  o.persisted = true ∧ o.mapped = true ∧ o.closed = true

instance (o : ReplaceOutcome) : Decidable o.Good := inferInstanceAs (Decidable (_ ∧ _ ∧ _))

/-- The regions of areas, the first one being the `i`-th that is replaced. -/
def regionsFrom (outcome : ℕ → ReplaceOutcome) : ℕ → List MemInfo → List Region
  | _, [] => []
  | i, a :: areas => ⟨a.basePc, a.size, (outcome i).fileId⟩ :: regionsFrom outcome (i + 1) areas

theorem mem_regionsFrom {outcome : ℕ → ReplaceOutcome} {i : ℕ} {areas : List MemInfo} {r : Region}
    (h : r ∈ regionsFrom outcome i areas) : ∃ a ∈ areas, r.base = a.basePc ∧ r.size = a.size := by
  induction areas generalizing i with
  | nil => cases h
  | cons a areas ih =>
      rcases List.mem_cons.mp h with rfl | h
      · exact ⟨a, List.mem_cons_self, rfl, rfl⟩
      · obtain ⟨b, hb, heq⟩ := ih h
        exact ⟨b, List.mem_cons_of_mem _ hb, heq⟩

/-- An area that is replaced has its region. -/
theorem exists_regionsFrom {outcome : ℕ → ReplaceOutcome} {i : ℕ} {areas : List MemInfo}
    {a : MemInfo} (h : a ∈ areas) :
    ∃ r ∈ regionsFrom outcome i areas, r.base = a.basePc ∧ r.size = a.size := by
  induction areas generalizing i with
  | nil => cases h
  | cons b areas ih =>
      rcases List.mem_cons.mp h with rfl | h
      · exact ⟨_, List.mem_cons_self, rfl, rfl⟩
      · obtain ⟨r, hr, heq⟩ := @ih (i + 1) h
        exact ⟨r, List.mem_cons_of_mem _ hr, heq⟩

theorem length_regionsFrom (outcome : ℕ → ReplaceOutcome) (i : ℕ) (areas : List MemInfo) :
    (regionsFrom outcome i areas).length = areas.length := by
  induction areas generalizing i with
  | nil => rfl
  | cons a areas ih => simp only [regionsFrom, List.length_cons, ih]

/-- One replacement on memory that is not occupied. -/
theorem replaceRegion_free {m : Manager} {d : Files} {mem : ℕ → ℕ} {base size : ℕ}
    {o : ReplaceOutcome} (h : ∀ r ∈ m.regions, 0 < r.size ∧ r.stop ≤ base) :
    m.replaceRegion d mem base size o =
      if o.Good then
        some (.success, ⟨m.regions ++ [⟨base, size, o.fileId⟩], m.rs.insert base size⟩,
          d.create (base, o.fileId) mem)
      else some (.error, m, if o.persisted = true then d.create (base, o.fileId) mem else d) := by
  have hover : findOverlap m.regions ⟨base, size, o.fileId⟩ = none := findOverlap_none.mpr
    fun r hr => by
      have hr' := h r hr
      rw [← Bool.not_eq_true, Region.doesOverlapWith, Bool.or_eq_true,
        Region.doesIncludeAddr_iff, Region.doesIncludeAddr_iff, Region.mem_pts, Region.mem_pts]
      simp only [Region.stop] at hr' ⊢
      omega
  obtain ⟨fileId, persisted, mapped, closed⟩ := o
  unfold Manager.replaceRegion ReplaceOutcome.Good
  simp only [hover, Option.isSome_none, Bool.false_eq_true, if_false]
  cases persisted <;> cases mapped <;> cases closed <;> simp [Region.fileName]

/-- **The replacements succeed** exactly when their system calls do: no area is occupied. -/
theorem replaceAll_eq {outcome : ℕ → ReplaceOutcome} {mem : ℕ → ℕ} {i : ℕ} {areas : List MemInfo}
    {m : Manager} {d : Files} (hpos : ∀ a ∈ areas, 0 < a.size)
    (hap : areas.Pairwise fun a b => a.basePc + a.size ≤ b.basePc)
    (hm : ∀ r ∈ m.regions, ∀ a ∈ areas, 0 < r.size ∧ r.stop ≤ a.basePc) :
    replaceAll outcome mem i areas m d =
      if ∀ j < areas.length, (outcome (i + j)).Good then
        some (⟨m.regions ++ regionsFrom outcome i areas,
            (regionsFrom outcome i areas).foldl (fun rs r => rs.insert r.base r.size) m.rs⟩,
          d.createAll (regionsFrom outcome i areas) mem)
      else none := by
  induction areas generalizing i m d with
  | nil => simp [replaceAll, regionsFrom, Files.createAll]
  | cons a areas ih =>
      have hall : (∀ j < (a :: areas).length, (outcome (i + j)).Good) ↔
          (outcome i).Good ∧ ∀ j < areas.length, (outcome (i + 1 + j)).Good := by
        rw [List.length_cons, Nat.forall_lt_succ_left]
        simp only [Nat.add_zero, Nat.add_assoc, Nat.add_comm 1]
      rw [replaceAll, replaceRegion_free fun r hr => hm r hr a List.mem_cons_self]
      by_cases hg : (outcome i).Good
      · simp only [hall, hg, if_true, true_and]
        rw [ih (fun b hb => hpos b (List.mem_cons_of_mem _ hb)) (List.pairwise_cons.mp hap).2]
        · simp [regionsFrom, Files.createAll, Region.fileName]
        · intro r hr b hb
          rcases List.mem_append.mp hr with hr | hr
          · exact hm r hr b (List.mem_cons_of_mem _ hb)
          · rw [List.mem_singleton.mp hr]
            exact ⟨hpos a List.mem_cons_self, (List.pairwise_cons.mp hap).1 b hb⟩
      · simp only [hall, hg, if_false, false_and]

/-! ## 4. When the initialisation completes -/

section Init

variable {dr : Dr} {areas : List MemInfo} {stop fuel : ℕ} {c : StartCalls} {mem : ℕ → ℕ}
  {d : Files} {t : Tables}

/-- The regions of a first start. -/
def Dr.regions (dr : Dr) (areas : List MemInfo) (c : StartCalls) : List Region :=
  regionsFrom c.outcome 0 (dr.replaced areas)

/-- **The initialisation completes** exactly when `should_replace` does not assert on any area and
    the system calls of every replacement succeed. It leaves the areas to be replaced, in order, each
    in a file with its contents; behind their records the new table still holds what an older, longer
    `new_table.dat` held. -/
theorem initAddressSpace_iff (hw : dr.Walks areas stop) (hfuel : areas.length < fuel)
    {m : Manager} {d' : Files} {t' : Tables} :
    initAddressSpace dr c mem fuel d t = some (m, d', t') ↔
      (∀ a ∈ areas, shouldReplace dr a ≠ none) ∧
        (∀ i < (dr.replaced areas).length, (c.outcome i).Good) ∧
        m = Manager.ofTable (dr.regions areas c) ∧ d' = d.createAll (dr.regions areas c) mem ∧
        t' = (commitNewRegionTable c.renamed c.synced ⟨t.table, some (dr.regions areas c ++
          (t.newTable.getD []).drop (dr.replaced areas).length)⟩).2 := by
  have hsub : (dr.replaced areas).Sublist areas := List.filter_sublist
  have hlen : (dr.regions areas c).length = (dr.replaced areas).length :=
    length_regionsFrom _ _ _
  rw [initAddressSpace, collect_eq hw.follow hw.stop_le
    (fun a ha => hw.answers a ha _ ⟨le_refl _, Nat.lt_add_of_pos_right (hw.follow.between ha).2.2⟩)
    (hw.fails stop (le_refl _)) hfuel]
  split
  · rename_i hassert
    rw [Option.bind_some, replaceAll_eq (fun a ha => (hw.follow.between (hsub.subset ha)).2.2)
      (hw.follow.pairwise.sublist hsub) (fun r hr => absurd hr List.not_mem_nil)]
    simp only [Nat.zero_add]
    split
    · rename_i hcalls
      have hof : (⟨Manager.new.regions ++ regionsFrom c.outcome 0 (dr.replaced areas),
          (regionsFrom c.outcome 0 (dr.replaced areas)).foldl
            (fun rs r => rs.insert r.base r.size) Manager.new.rs⟩ : Manager) =
          Manager.ofTable (dr.regions areas c) := rfl
      rw [hof, Option.map_some, Option.some.injEq, Prod.mk.injEq, Prod.mk.injEq]
      have hpersist : persistNewRegionTable (Manager.ofTable (dr.regions areas c)) t =
          ⟨t.table, some (dr.regions areas c ++
            (t.newTable.getD []).drop (dr.replaced areas).length)⟩ := by
        rw [← hlen]
        rfl
      rw [hpersist]
      constructor
      · intro ⟨h1, h2, h3⟩
        exact ⟨hassert, hcalls, h1.symm, h2.symm, h3.symm⟩
      · intro ⟨_, _, h1, h2, h3⟩
        exact ⟨h1.symm, h2.symm, h3.symm⟩
    · rename_i hcalls
      simp [hcalls]
  · rename_i hassert
    simp [hassert]

/-! ## 5. The system that is started -/

/-- **What an application process has to replace** lies in user space, above page 0, on whole
    pages. -/
def Dr.UserSpace (dr : Dr) (areas : List MemInfo) : Prop :=
  ∀ a ∈ dr.replaced areas, 0 < a.basePc ∧ a.basePc % 4096 = 0 ∧ a.basePc + a.size ≤ 2 ^ 47

instance (dr : Dr) (areas : List MemInfo) : Decidable (dr.UserSpace areas) :=
  inferInstanceAs (Decidable (∀ a ∈ dr.replaced areas, _))

/-- **`dr_client_main`** on a first start, with an undo log that is empty. The application stores to
    pages of user space only. -/
def Sys.start (dr : Dr) (c : StartCalls) (mem : ℕ → ℕ) (fuel : ℕ) (d : Files) (t : Tables)
    (tail : ℕ) : Option Sys :=
  (initAddressSpace dr c mem fuel d t).map fun (m, d', t') =>
    { epoch := {
        mrm := m
        files := d'
        other := mem
        pages := fun p => decide (p < 2 ^ 35) &&
          (dr.queryMemory (4096 * p)).any fun a => !a.free
        fresh := Ranges.empty
        log := []
        newly := fun _ => false
        dirty := fun _ => false }
      tables := t'
      tail := tail
      modified := false
      phase := .idle }

/-- **The process that is started**: the areas to be replaced, with the bytes they had. -/
def Dr.image (dr : Dr) (areas : List MemInfo) (c : StartCalls) (mem : ℕ → ℕ) : Image where
  regions := dr.regions areas c
  mem x := if ∃ a ∈ dr.replaced areas, a.has x then some (mem x) else none

theorem mem_regionPts_regions (x : ℕ) :
    x ∈ regionPts (dr.regions areas c) ↔ ∃ a ∈ dr.replaced areas, a.has x := by
  constructor
  · rintro ⟨r, hr, hx⟩
    obtain ⟨a, ha, hb, hs⟩ := mem_regionsFrom hr
    rw [Region.mem_pts, Region.stop, hb, hs] at hx
    exact ⟨a, ha, hx⟩
  · rintro ⟨a, ha, hx⟩
    obtain ⟨r, hr, hb, hs⟩ := exists_regionsFrom ha
    refine ⟨r, hr, ?_⟩
    rw [Region.mem_pts, Region.stop, hb, hs]
    exact hx

theorem pairwise_regionsFrom {outcome : ℕ → ReplaceOutcome} {i : ℕ} {areas : List MemInfo}
    (h : areas.Pairwise fun a b => a.basePc + a.size ≤ b.basePc) :
    (regionsFrom outcome i areas).Pairwise Region.Apart := by
  induction areas generalizing i with
  | nil => exact .nil
  | cons a areas ih =>
      obtain ⟨ha, hrest⟩ := List.pairwise_cons.mp h
      refine List.pairwise_cons.mpr ⟨fun r hr => ?_, ih hrest⟩
      obtain ⟨b, hb, heq, -⟩ := mem_regionsFrom hr
      exact Or.inl (heq ▸ ha b hb)

/-- The regions of a first start are apart, on whole pages of user space. -/
theorem tiled_regions (hw : dr.Walks areas stop) (hu : dr.UserSpace areas) :
    Tiled (dr.regions areas c) := by
  have hsub : (dr.replaced areas).Sublist areas := List.filter_sublist
  have harea : ∀ r ∈ dr.regions areas c, 0 < r.base ∧ 0 < r.size ∧ r.base % 4096 = 0 ∧
      r.stop ≤ 2 ^ 47 := by
    intro r hr
    obtain ⟨a, ha, hb, hs⟩ := mem_regionsFrom hr
    obtain ⟨h1, h2, h3⟩ := hu a ha
    rw [Region.stop, hb, hs]
    exact ⟨h1, (hw.follow.between (hsub.subset ha)).2.2, h2, h3⟩
  exact {
    apart := pairwise_regionsFrom (hw.follow.pairwise.sublist hsub)
    pos := fun r hr => ⟨(harea r hr).1, (harea r hr).2.1⟩
    aligned := fun r hr => (harea r hr).2.2.1
    user := fun r hr => (harea r hr).2.2.2 }

/-- The files of a first start hold the memory of the process. -/
theorem imageOf_start (ht : Tiled (dr.regions areas c)) {content : FileName → ℕ → ℕ}
    (h : ∀ r ∈ dr.regions areas c, content r.fileName = mem) :
    imageOf (dr.regions areas c) content = dr.image areas c mem := by
  refine Image.ext_some rfl fun x v => ?_
  rw [imageOf_mem ht]
  simp only [Dr.image]
  constructor
  · intro ⟨r, hr, hx, hv⟩
    rw [if_pos ((mem_regionPts_regions x).mp ⟨r, hr, hx⟩), ← hv, h r hr]
  · intro hv
    split at hv
    · rename_i hx
      obtain ⟨r, hr, hxr⟩ := (mem_regionPts_regions (c := c) x).mpr hx
      refine ⟨r, hr, hxr, ?_⟩
      rw [h r hr]
      exact Option.some.inj hv
    · cases hv

variable {Msg : Type*} {cb : Msg → (ℕ → Option ℕ) → List Op → Prop} {entryAt : ℕ → Msg}
  {next : ℕ → ℕ} {tail : ℕ} {s0 s : Sys}

/-- What is mapped at a page of a region. -/
theorem queryMemory_region (hw : dr.Walks areas stop) {a : MemInfo} (ha : a ∈ dr.replaced areas)
    (hal : a.basePc % 4096 = 0) {x : ℕ} (hx : a.has x) :
    (dr.queryMemory (4096 * (x / 4096))).any (fun a => !a.free) = true := by
  obtain ⟨hmem, -, -, hfree, -⟩ := mem_replaced.mp ha
  have hpage : a.has (4096 * (x / 4096)) := by
    unfold MemInfo.has at hx ⊢
    omega
  rw [hw.answers a hmem _ hpage, Option.any_some, hfree]
  rfl

/-- **The system that is started satisfies the invariant of the commits.** -/
theorem consistent_start (hw : dr.Walks areas stop) (hu : dr.UserSpace areas)
    (hfuel : areas.length < fuel) (hren : c.renamed = true) (hsync : c.synced = true)
    (hold : (t.newTable.getD []).length ≤ (dr.replaced areas).length)
    (hs : Sys.start dr c mem fuel d t tail = some s0) :
    Consistent cb entryAt next (dr.image areas c mem) tail s0 ∧ s0.phase = .idle := by
  have ht : Tiled (dr.regions areas c) := tiled_regions hw hu
  obtain ⟨⟨m, d', t'⟩, hinit, rfl⟩ := Option.map_eq_some_iff.mp hs
  obtain ⟨-, -, rfl, rfl, rfl⟩ := (initAddressSpace_iff hw hfuel).mp hinit
  have himage : imageOf (dr.regions areas c) (d.createAll (dr.regions areas c) mem).cache =
      dr.image areas c mem := imageOf_start ht fun r hr => (createAll_new hr).1
  refine ⟨⟨⟨⟨ht, ?_, ?_, Ranges.wf_empty⟩, ⟨rfl, rfl, fun _ => rfl, fun _ => rfl⟩, ?_, ?_⟩,
    ⟨0, ?_⟩, ?_, rfl⟩, rfl⟩
  · intro x hx
    obtain ⟨a, ha, hxa⟩ := (mem_regionPts_regions x).mp hx
    obtain ⟨-, hal, hup⟩ := hu a ha
    have hlt : x / 4096 < 2 ^ 35 := by
      unfold MemInfo.has at hxa
      omega
    simp only [hlt, decide_true, Bool.true_and]
    exact queryMemory_region hw ha hal hxa
  · intro p hp
    simp only [Bool.and_eq_true, decide_eq_true_eq] at hp
    exact hp.1
  · intro r hr
    exact createAll_made.mpr (Or.inl (List.mem_map_of_mem hr))
  · have hpm : imageOf (dr.regions areas c) (d.createAll (dr.regions areas c) mem).pm =
        dr.image areas c mem := imageOf_start ht fun r hr => (createAll_new hr).2
    exact hpm.trans himage.symm
  · have hstart : Executed cb entryAt next (dr.image areas c mem) tail 0
        (dr.image areas c mem) tail := .start
    rw [← himage] at hstart ⊢
    exact hstart
  · rw [List.drop_eq_nil_of_le hold, List.append_nil, commitNewRegionTable, hren, hsync]
    rfl

/-- **From the first start on entries are executed exactly once**, relative to the memory the process
    had: after every iteration of a run whose callbacks perform recoverable operations, and after
    every recovery, the region table, the persistent memory and the tail are those of executing the
    first `k` entries on it; and after every crash recovery completes. -/
theorem started_exactly_once (hw : dr.Walks areas stop) (hu : dr.UserSpace areas)
    (hfuel : areas.length < fuel) (hren : c.renamed = true) (hsync : c.synced = true)
    (hold : (t.newTable.getD []).length ≤ (dr.replaced areas).length)
    (hs : Sys.start dr c mem fuel d t tail = some s0)
    (h : Runs (Sys.Step cb entryAt next) Sys.Recoverable s0 s) :
    (s.phase = .idle → ExactlyOnce cb entryAt next (dr.image areas c mem) tail s) ∧
      (s.phase = .crashed → ∃ s', s.Step cb entryAt next .recover s' ∧
        ExactlyOnce cb entryAt next (dr.image areas c mem) tail s') := by
  have hinv : Consistent cb entryAt next (dr.image areas c mem) tail s :=
    h.invariant (consistent_start hw hu hfuel hren hsync hold hs).1
      fun _ _ _ h hok hstep => consistent_step h hok hstep
  exact ⟨hinv.exactlyOnce, hinv.recovers⟩

end Init

/-! ## 6. A process with one page to replace -/

/-- Free memory, a page of data, a page of the tool, free memory. -/
def onePageAreas : List MemInfo :=
  let data : Prot := ⟨true, true, false, false, false, false⟩
  let hole : Prot := ⟨false, false, false, false, false, false⟩
  [⟨0, 8192, hole, true⟩, ⟨8192, 4096, data, false⟩, ⟨12288, 4096, data, false⟩,
    ⟨16384, pointerMax - 16384, hole, true⟩]

def onePageDr : Dr where
  isDrInternal x := decide (x = 12288)
  isInClient _ := false
  queryMemory x := onePageAreas.find? fun a => decide (a.has x)

theorem onePageDr_walks : onePageDr.Walks onePageAreas pointerMax where
  follow := ⟨rfl, by decide, rfl, by decide, rfl, by decide, rfl, by decide, rfl⟩
  stop_le := le_refl _
  answers a ha x hx := by
    simp only [onePageAreas, List.mem_cons, List.not_mem_nil, or_false] at ha
    simp only [onePageDr, onePageAreas, List.find?_cons]
    unfold MemInfo.has at *
    rcases ha with rfl | rfl | rfl | rfl <;> simp only at hx ⊢ <;> grind
  fails x h1 h2 := absurd h2 (Nat.not_lt.mpr h1)

/-- Every system call succeeds; the file is `mem_2000_0`. -/
def onePageCalls : StartCalls := ⟨fun _ => .ok 0, true, true⟩

theorem initAddressSpace_onePage :
    initAddressSpace onePageDr onePageCalls (fun _ => 5) 5 noFiles ⟨[], none⟩ =
      some (Manager.ofTable [⟨8192, 4096, 0⟩], noFiles.createAll [⟨8192, 4096, 0⟩] fun _ => 5,
        ⟨[⟨8192, 4096, 0⟩], none⟩) :=
  (initAddressSpace_iff onePageDr_walks (by decide)).mpr
    ⟨by decide, by decide, rfl, rfl, rfl⟩

/-- The iteration of `mapAndStore` on the page, and a crash behind the commit record. -/
theorem started_once_committed :
    ∃ s, s.tail = 64 ∧ ExactlyOnce (always mapAndStore) (fun _ => ()) nextLine
      (onePageDr.image onePageAreas onePageCalls fun _ => 5) 0 s := by
  have hend : ((Sys.start onePageDr onePageCalls (fun _ => 5) 5 noFiles ⟨[], none⟩ 0).bind fun s =>
      (s.run nextLine crashCommitted).map fun s => (s.tail, s.phase)) = some (64, .idle) := by decide
  obtain ⟨s0, hs0, hrun0⟩ := Option.bind_eq_some_iff.mp hend
  obtain ⟨s, hs, hfin⟩ := Option.map_eq_some_iff.mp hrun0
  rw [Prod.mk.injEq] at hfin
  have hmeets : ∀ s ∈ Sys.start onePageDr onePageCalls (fun _ => 5) 5 noFiles ⟨[], none⟩ 0,
      s.Meets nextLine Sys.Recoverable crashCommitted := by decide
  have hrun : Runs (Sys.Step (always mapAndStore) (fun _ => ()) nextLine) Sys.Recoverable s0 s := by
    refine runs_of_run (fun ops hops _ _ => ?_) (hmeets s0 hs0) hs
    simpa [crashCommitted, always] using hops
  exact ⟨s, hfin.1, (started_exactly_once onePageDr_walks (by decide) (by decide) rfl rfl (by decide)
    hs0 hrun).1 hfin.2⟩

end Persimmon
