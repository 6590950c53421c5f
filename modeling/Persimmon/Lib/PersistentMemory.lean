/-
  File:      Persimmon/Lib/PersistentMemory.lean
  Subject:   MEMORY BEHIND A WRITE-BACK CACHE, and what a power failure leaves of it.

  Cells are grouped into cache lines. A store reaches the cache; a line reaches the persistent
  medium as a whole and at any moment the hardware likes (`evict`), so stores to one line persist
  in program order and stores to two lines in any order. A flush asks for a write-back of one line
  and a drain waits for the write-backs its own thread has asked for: here `pending` holds the
  lines a thread has flushed and the hardware has not written back since, and a drain is enabled
  when that set is empty. A power failure keeps `pm` and nothing else.

  * `Memory`, `Memory.store`, `Memory.flush`, `Memory.fill`, `Memory.evict` -- the state and what
    moves it;
  * `Synced`, `Covered` -- a line is persistent; a line is persistent or asked for. `Covered` is
    the invariant between a flush and its drain (`Covered.synced`);
  * `Keeps` -- a step leaves a line alone;
  * `Exec` -- a program's events with evictions anywhere between them;
  * `exec_prefix` -- every line holds what the cache held of it after some PREFIX of the events;
  * `exists_exec` -- no program is stuck at a drain;
  * `exec_durable` -- a line flushed, drained and not touched since is persistent; `Durable` says
    that of an event list;
  * `exec_project` -- a run without its stores to some lines ends the same way on the others.
-/
import Mathlib.Data.List.Induction
import Mathlib.Data.Set.Insert
import Mathlib.Logic.Function.Basic

set_option linter.unusedSectionVars false

namespace PersistentMemory

/-- Cells `A` with values `B`, in cache lines `L`, used by threads `T`. -/
structure Memory (A L T B : Type*) where
  cache : A → B
  pm : A → B
  /-- The lines a thread has flushed and the hardware has not written back since. -/
  pending : T → Set L

variable {A L T B : Type*} [DecidableEq A] [DecidableEq L] [DecidableEq T]

/-! ## 1. The moves -/

namespace Memory

/-- The machine after a restart: the cache reads the persistent contents. -/
def start (m : A → B) : Memory A L T B := ⟨m, m, fun _ => ∅⟩

def store (s : Memory A L T B) (a : A) (b : B) : Memory A L T B :=
  { s with cache := Function.update s.cache a b }

def flush (s : Memory A L T B) (t : T) (l : L) : Memory A L T B :=
  { s with pending := Function.update s.pending t (insert l (s.pending t)) }

/-- A non-temporal store of a whole line: visible at once, persistent by the thread's next drain. -/
def fill (line : A → L) (s : Memory A L T B) (t : T) (l : L) (v : A → B) : Memory A L T B :=
  flush { s with cache := fun a => if line a = l then v a else s.cache a } t l

/-- The hardware writes one line back. -/
def evict (line : A → L) (s : Memory A L T B) (l : L) : Memory A L T B where
  cache := s.cache
  pm a := if line a = l then s.cache a else s.pm a
  pending t := s.pending t \ {l}

def Drained (s : Memory A L T B) (t : T) : Prop := s.pending t = ∅

@[simp] theorem store_pm (s : Memory A L T B) (a : A) (b : B) : (s.store a b).pm = s.pm := rfl

@[simp] theorem store_pending (s : Memory A L T B) (a : A) (b : B) :
    (s.store a b).pending = s.pending := rfl

@[simp] theorem store_cache (s : Memory A L T B) (a : A) (b : B) :
    (s.store a b).cache = Function.update s.cache a b := rfl

@[simp] theorem flush_pm (s : Memory A L T B) (t : T) (l : L) : (s.flush t l).pm = s.pm := rfl

@[simp] theorem flush_cache (s : Memory A L T B) (t : T) (l : L) :
    (s.flush t l).cache = s.cache := rfl

@[simp] theorem evict_cache (line : A → L) (s : Memory A L T B) (l : L) :
    (s.evict line l).cache = s.cache := rfl

@[simp] theorem fill_pm (line : A → L) (s : Memory A L T B) (t : T) (l : L) (v : A → B) :
    (s.fill line t l v).pm = s.pm := rfl

@[simp] theorem fill_cache (line : A → L) (s : Memory A L T B) (t : T) (l : L) (v : A → B) :
    (s.fill line t l v).cache = fun a => if line a = l then v a else s.cache a := rfl

theorem mem_flush_pending {s : Memory A L T B} {t u : T} {l m : L} (h : m ∈ s.pending u) :
    m ∈ (s.flush t l).pending u := by
  unfold flush
  by_cases e : u = t
  · subst e
    simp only [Function.update_self]
    exact Set.mem_insert_of_mem _ h
  · simpa only [Function.update_of_ne e] using h

theorem self_mem_flush_pending (s : Memory A L T B) (t : T) (l : L) :
    l ∈ (s.flush t l).pending t := by
  simp [flush]

end Memory

open Memory

/-! ## 2. Lines that are persistent, and lines that are asked for -/

/-- **The line is persistent**: the medium holds what the cache holds of it. -/
def Synced (line : A → L) (s : Memory A L T B) (l : L) : Prop :=
  ∀ a, line a = l → s.pm a = s.cache a

/-- **The line is persistent or thread `t` has asked for it** since the last store to it. -/
def Covered (line : A → L) (s : Memory A L T B) (t : T) (l : L) : Prop :=
  l ∈ s.pending t ∨ Synced line s l

section Lines

variable {line : A → L} {s : Memory A L T B} {t : T} {l : L}

theorem Synced.start (m : A → B) (l : L) : Synced line (Memory.start m : Memory A L T B) l :=
  fun _ _ => rfl

theorem Synced.store (h : Synced line s l) {a : A} (ha : line a ≠ l) (b : B) :
    Synced line (s.store a b) l := by
  intro c hc
  have hca : c ≠ a := fun e => ha (e ▸ hc)
  rw [store_pm, store_cache, Function.update_of_ne hca]
  exact h c hc

theorem Synced.flush (h : Synced line s l) (t : T) (m : L) : Synced line (s.flush t m) l := h

theorem Synced.fill (h : Synced line s l) (t : T) {m : L} (hm : m ≠ l) (v : A → B) :
    Synced line (s.fill line t m v) l := by
  intro c hc
  have hcm : line c ≠ m := fun e => hm (e.symm.trans hc)
  rw [fill_pm, fill_cache]
  simp only [hcm, if_false]
  exact h c hc

theorem Synced.evict (h : Synced line s l) (m : L) : Synced line (s.evict line m) l := by
  intro c hc
  by_cases e : line c = m
  · simp [Memory.evict, e]
  · simpa [Memory.evict, e] using h c hc

/-- Writing a line back makes it persistent. -/
theorem Synced.of_evict (s : Memory A L T B) (l : L) : Synced line (s.evict line l) l := by
  intro c hc
  simp [Memory.evict, hc]

theorem Covered.of_flush (s : Memory A L T B) (t : T) (l : L) : Covered line (s.flush t l) t l :=
  Or.inl (self_mem_flush_pending s t l)

theorem Covered.store (h : Covered line s t l) {a : A} (ha : line a ≠ l) (b : B) :
    Covered line (s.store a b) t l :=
  h.imp id fun h => h.store ha b

theorem Covered.flush (h : Covered line s t l) (u : T) (m : L) : Covered line (s.flush u m) t l :=
  h.imp mem_flush_pending id

theorem Covered.fill (h : Covered line s t l) (u : T) {m : L} (hm : m ≠ l) (v : A → B) :
    Covered line (s.fill line u m v) t l :=
  h.imp mem_flush_pending fun h => h.fill u hm v

theorem Covered.of_fill (s : Memory A L T B) (t : T) (l : L) (v : A → B) :
    Covered line (s.fill line t l v) t l :=
  Or.inl (self_mem_flush_pending _ t l)

theorem Covered.evict (h : Covered line s t l) (m : L) : Covered line (s.evict line m) t l := by
  by_cases e : m = l
  · subst e
    exact Or.inr (Synced.of_evict s m)
  · refine h.imp (fun h => ⟨h, ?_⟩) fun h => h.evict m
    exact fun hl => e (Set.mem_singleton_iff.mp hl).symm

/-- **A drain makes every line the thread has asked for persistent.** -/
theorem Covered.synced (h : Covered line s t l) (hd : s.Drained t) : Synced line s l := by
  rcases h with h | h
  · rw [hd] at h
    exact absurd h (Set.notMem_empty l)
  · exact h

end Lines

/-! ### What leaves a line alone -/

/-- **The line is left alone**: its cells keep their contents, a write-back apart, and it stays
    persistent and asked for. -/
structure Keeps (line : A → L) (s s' : Memory A L T B) (l : L) : Prop where
  cache : ∀ a, line a = l → s'.cache a = s.cache a
  pm : ∀ a, line a = l → s'.pm a = s.pm a ∨ s'.pm a = s.cache a
  synced : Synced line s l → Synced line s' l
  covered : ∀ t, Covered line s t l → Covered line s' t l

section Keeps

variable {line : A → L} {s s1 s2 : Memory A L T B} {l : L}

theorem Keeps.refl (s : Memory A L T B) (l : L) : Keeps line s s l :=
  ⟨fun _ _ => rfl, fun _ _ => Or.inl rfl, id, fun _ => id⟩

theorem Keeps.trans (h1 : Keeps line s s1 l) (h2 : Keeps line s1 s2 l) : Keeps line s s2 l := by
  refine ⟨fun a ha => (h2.cache a ha).trans (h1.cache a ha), fun a ha => ?_,
    fun h => h2.synced (h1.synced h), fun t h => h2.covered t (h1.covered t h)⟩
  rcases h2.pm a ha with he | he
  · rw [he]
    exact h1.pm a ha
  · rw [he]
    exact Or.inr (h1.cache a ha)

/-- A store leaves the other lines alone. -/
theorem Keeps.store (s : Memory A L T B) {a : A} (ha : line a ≠ l) (b : B) :
    Keeps line s (s.store a b) l := by
  refine ⟨fun c hc => ?_, fun _ _ => Or.inl rfl, fun h => h.store ha b, fun _ h => h.store ha b⟩
  have hca : c ≠ a := fun e => ha (e ▸ hc)
  rw [store_cache, Function.update_of_ne hca]

/-- A flush leaves every line alone. -/
theorem Keeps.flush (s : Memory A L T B) (t : T) (m l : L) : Keeps line s (s.flush t m) l :=
  ⟨fun _ _ => rfl, fun _ _ => Or.inl rfl, fun h => h.flush t m, fun _ h => h.flush t m⟩

/-- A write-back leaves every line alone. -/
theorem Keeps.evict (s : Memory A L T B) (m l : L) : Keeps line s (s.evict line m) l := by
  refine ⟨fun _ _ => rfl, fun a _ => ?_, fun h => h.evict m, fun _ h => h.evict m⟩
  simp only [Memory.evict]
  split_ifs
  · exact Or.inr rfl
  · exact Or.inl rfl

end Keeps

/-! ## 3. Programs as event lists -/

/-- What a program does to the memory. -/
inductive Ev (A L T B : Type*) where
  | store (a : A) (b : B)
  | fill (t : T) (l : L) (v : A → B)
  | flush (t : T) (l : L)
  | drain (t : T)

variable (line : A → L)

/-- The event stores to the line. -/
def Ev.Touches : Ev A L T B → L → Prop
  | .store a _, l => line a = l
  | .fill _ m _, l => m = l
  | .flush _ _, _ => False
  | .drain _, _ => False

/-- A flush or a non-temporal store by `t` asks for the line. -/
def Ev.Asks (t : T) (l : L) : Ev A L T B → Prop
  | .fill u m _ => u = t ∧ m = l
  | .flush u m => u = t ∧ m = l
  | .store _ _ => False
  | .drain _ => False

/-- The program's own view of an event: evictions do not show in it. -/
def Ev.view : Ev A L T B → (A → B) → (A → B)
  | .store a b, c => Function.update c a b
  | .fill _ l v, c => fun a => if line a = l then v a else c a
  | .flush _ _, c => c
  | .drain _, c => c

def Ev.Enabled : Ev A L T B → Memory A L T B → Prop
  | .drain t, s => s.Drained t
  | _, _ => True

def Ev.apply : Ev A L T B → Memory A L T B → Memory A L T B
  | .store a b, s => s.store a b
  | .fill t l v, s => s.fill line t l v
  | .flush t l, s => s.flush t l
  | .drain _, s => s

/-- The program's view after a list of events. -/
def viewAfter (es : List (Ev A L T B)) (c : A → B) : A → B := es.foldl (fun c e => e.view line c) c

/-- **A run**: the events in order, the hardware writing lines back anywhere in between. -/
inductive Exec (s0 : Memory A L T B) : List (Ev A L T B) → Memory A L T B → Prop where
  | start : Exec s0 [] s0
  | ev {es : List (Ev A L T B)} {s : Memory A L T B} (e : Ev A L T B)
      (h : Exec s0 es s) (he : e.Enabled s) : Exec s0 (es ++ [e]) (e.apply line s)
  | evict {es : List (Ev A L T B)} {s : Memory A L T B} (l : L)
      (h : Exec s0 es s) : Exec s0 es (s.evict line l)

variable {line}

section View

@[simp] theorem viewAfter_nil (c : A → B) : viewAfter line ([] : List (Ev A L T B)) c = c := rfl

@[simp] theorem viewAfter_cons (e : Ev A L T B) (es : List (Ev A L T B)) (c : A → B) :
    viewAfter line (e :: es) c = viewAfter line es (e.view line c) := rfl

@[simp] theorem viewAfter_append (es fs : List (Ev A L T B)) (c : A → B) :
    viewAfter line (es ++ fs) c = viewAfter line fs (viewAfter line es c) := by
  unfold viewAfter
  rw [List.foldl_append]

theorem Ev.apply_cache (e : Ev A L T B) (s : Memory A L T B) :
    (e.apply line s).cache = e.view line s.cache := by
  cases e <;> rfl

theorem Ev.apply_pm (e : Ev A L T B) (s : Memory A L T B) : (e.apply line s).pm = s.pm := by
  cases e <;> rfl

/-- An event leaves the cells of a line it does not touch. -/
theorem Ev.view_other {e : Ev A L T B} {a : A} (h : ¬ e.Touches line (line a)) (c : A → B) :
    e.view line c a = c a := by
  cases e with
  | store a' b =>
      have hne : a ≠ a' := fun e => h (e ▸ rfl)
      simp only [Ev.view, Function.update_of_ne hne]
  | fill t l v =>
      have hne : line a ≠ l := fun e => h e.symm
      simp only [Ev.view, hne, if_false]
  | flush t l => rfl
  | drain t => rfl

theorem viewAfter_other {es : List (Ev A L T B)} {a : A}
    (h : ∀ e ∈ es, ¬ e.Touches line (line a)) (c : A → B) : viewAfter line es c a = c a := by
  induction es generalizing c with
  | nil => rfl
  | cons e es ih =>
      rw [viewAfter_cons, ih (fun e' he' => h e' (List.mem_cons_of_mem _ he')),
        Ev.view_other (h e List.mem_cons_self)]

/-- **Where a value comes from**: it was there, or an event has put it there. -/
theorem viewAfter_origin (es : List (Ev A L T B)) (c : A → B) (a : A) :
    viewAfter line es c a = c a ∨ .store a (viewAfter line es c a) ∈ es ∨
      ∃ t v, .fill t (line a) v ∈ es ∧ viewAfter line es c a = v a := by
  induction es generalizing c with
  | nil => exact Or.inl rfl
  | cons e es ih =>
      rw [viewAfter_cons]
      rcases ih (e.view line c) with h | h | ⟨t, v, hmem, h⟩
      · rw [h]
        cases e with
        | store a' b =>
            by_cases ha : a = a'
            · subst ha
              right; left
              simp [Ev.view]
            · left
              simp [Ev.view, ha]
        | fill t l v =>
            by_cases ha : line a = l
            · subst ha
              right; right
              exact ⟨t, v, List.mem_cons_self, by simp [Ev.view]⟩
            · left
              simp [Ev.view, ha]
        | flush t l => exact Or.inl rfl
        | drain t => exact Or.inl rfl
      · exact Or.inr (Or.inl (List.mem_cons_of_mem _ h))
      · exact Or.inr (Or.inr ⟨t, v, List.mem_cons_of_mem _ hmem, h⟩)

end View

section Exec

variable {s0 s : Memory A L T B} {es : List (Ev A L T B)}

/-- The cache is the program's view. -/
theorem exec_cache (h : Exec line s0 es s) : s.cache = viewAfter line es s0.cache := by
  induction h with
  | start => rfl
  | ev e _ _ ih => rw [Ev.apply_cache, ih, viewAfter_append]; rfl
  | evict l _ ih => exact ih

/-- **A line holds what the program had written to it after some prefix of its events.** -/
theorem exec_prefix {l : L} (h : Exec line s0 es s) (h0 : Synced line s0 l) :
    ∃ p, p <+: es ∧ ∀ a, line a = l → s.pm a = viewAfter line p s0.cache a := by
  induction h with
  | start => exact ⟨[], List.prefix_rfl, fun a ha => h0 a ha⟩
  | @ev es s e _ _ ih =>
      obtain ⟨p, hp, hl⟩ := ih
      refine ⟨p, hp.trans (List.prefix_append es [e]), fun a ha => ?_⟩
      rw [Ev.apply_pm]
      exact hl a ha
  | @evict es s m hs ih =>
      obtain ⟨p, hp, hl⟩ := ih
      by_cases e : m = l
      · refine ⟨es, List.prefix_rfl, fun a ha => ?_⟩
        rw [← exec_cache hs]
        exact Synced.of_evict s m a (ha.trans e.symm)
      · refine ⟨p, hp, fun a ha => ?_⟩
        have hne : line a ≠ m := fun h => e (h.symm.trans ha)
        simpa only [Memory.evict, hne, if_false] using hl a ha

/-- A run over two event lists passes through a state between them. -/
theorem exec_append {fs : List (Ev A L T B)} (h : Exec line s0 (es ++ fs) s) :
    ∃ s1, Exec line s0 es s1 ∧ Exec line s1 fs s := by
  generalize hes : es ++ fs = gs at h
  induction h generalizing fs with
  | start =>
      obtain ⟨rfl, rfl⟩ := List.append_eq_nil_iff.mp hes
      exact ⟨s0, .start, .start⟩
  | @ev gs s e hg he ih =>
      rcases List.eq_nil_or_concat fs with rfl | ⟨fs', f, rfl⟩
      · rw [List.append_nil] at hes
        subst hes
        exact ⟨_, .ev e hg he, .start⟩
      · rw [List.concat_eq_append, ← List.append_assoc] at hes
        obtain ⟨rfl, hf⟩ := List.append_inj' hes rfl
        obtain rfl : f = e := by simpa using hf
        obtain ⟨s1, h1, h2⟩ := ih rfl
        exact ⟨s1, h1, by simpa using Exec.ev f h2 he⟩
  | evict l _ ih =>
      obtain ⟨s1, h1, h2⟩ := ih hes
      exact ⟨s1, h1, .evict l h2⟩

theorem covered_event {e : Ev A L T B} {t : T} {l : L} (h : Covered line s t l)
    (he : ¬ e.Touches line l) : Covered line (e.apply line s) t l := by
  cases e with
  | store a b => exact h.store he b
  | fill u m v => exact h.fill u he v
  | flush u m => exact h.flush u m
  | drain u => exact h

/-- A covered line stays covered while no event stores to it. -/
theorem exec_covered {t : T} {l : L} (h : Exec line s0 es s) (h0 : Covered line s0 t l)
    (hes : ∀ e ∈ es, ¬ e.Touches line l) : Covered line s t l := by
  induction h with
  | start => exact h0
  | ev e _ _ ih =>
      exact covered_event (ih fun e' he' => hes e' (List.mem_append_left _ he'))
        (hes e (List.mem_append_right _ (List.mem_singleton_self e)))
  | evict m _ ih => exact (ih hes).evict m

/-- A persistent line stays persistent while no event stores to it. -/
theorem exec_synced {l : L} (h : Exec line s0 es s) (h0 : Synced line s0 l)
    (hes : ∀ e ∈ es, ¬ e.Touches line l) : Synced line s l := by
  induction h with
  | start => exact h0
  | ev e _ _ ih =>
      have hs := ih fun e' he' => hes e' (List.mem_append_left _ he')
      have he := hes e (List.mem_append_right _ (List.mem_singleton_self e))
      cases e with
      | store a b => exact hs.store he b
      | fill u m v => exact hs.fill u he v
      | flush u m => exact hs
      | drain u => exact hs
  | evict m _ ih => exact (ih hes).evict m

/-- What the last event of a run leaves, up to evictions. -/
theorem exec_singleton {e : Ev A L T B} (h : Exec line s0 [e] s) :
    ∃ s1, Exec line s0 [] s1 ∧ e.Enabled s1 ∧ Exec line (e.apply line s1) [] s := by
  generalize hes : [e] = gs at h
  induction h with
  | start => cases hes
  | @ev gs s f hg he ih =>
      have h2 : [] ++ [e] = gs ++ [f] := hes
      obtain ⟨rfl, hf⟩ := List.append_inj' h2 rfl
      obtain rfl : e = f := by simpa using hf
      exact ⟨s, hg, he, .start⟩
  | evict l _ ih =>
      obtain ⟨s1, h1, h2, h3⟩ := ih hes
      exact ⟨s1, h1, h2, .evict l h3⟩

/-- **A line flushed, then drained, and stored to by nothing since the flush is persistent.** -/
theorem exec_durable {t : T} {l : L} {p q r : List (Ev A L T B)} {f : Ev A L T B}
    (h : Exec line s0 (p ++ f :: (q ++ .drain t :: r)) s) (hf : f.Asks t l)
    (hq : ∀ e ∈ q, ¬ e.Touches line l) (hr : ∀ e ∈ r, ¬ e.Touches line l) :
    Synced line s l := by
  have hsplit : p ++ f :: (q ++ .drain t :: r) = p ++ ([f] ++ (q ++ ([.drain t] ++ r))) := by simp
  rw [hsplit] at h
  obtain ⟨s1, -, h1⟩ := exec_append h
  obtain ⟨s2, hf2, h2⟩ := exec_append h1
  obtain ⟨s3, hq3, h3⟩ := exec_append h2
  obtain ⟨s4, hd4, h4⟩ := exec_append h3
  have hc2 : Covered line s2 t l := by
    obtain ⟨s', -, -, he⟩ := exec_singleton hf2
    refine exec_covered he ?_ (fun e he => absurd he List.not_mem_nil)
    cases f with
    | store a b => exact absurd hf id
    | fill u m v =>
        obtain ⟨rfl, rfl⟩ := hf
        exact Covered.of_fill s' u m v
    | flush u m =>
        obtain ⟨rfl, rfl⟩ := hf
        exact Covered.of_flush s' u m
    | drain u => exact absurd hf id
  have hc3 : Covered line s3 t l := exec_covered hq3 hc2 hq
  have hs4 : Synced line s4 l := by
    obtain ⟨s', hs', hen, he⟩ := exec_singleton hd4
    have hc' : Covered line s' t l := exec_covered hs' hc3 (fun e he => absurd he List.not_mem_nil)
    exact exec_synced he (hc'.synced hen) (fun e he => absurd he List.not_mem_nil)
  exact exec_synced h4 hs4 hr

end Exec

/-! ## 4. Every program runs -/

section Progress

variable {s0 s : Memory A L T B} {es : List (Ev A L T B)}

/-- Writing back the lines that are asked for empties every `pending` set. -/
theorem exec_evictAll (h : Exec line s0 es s) {ls : List L} (hls : ∀ t, ∀ l ∈ s.pending t, l ∈ ls) :
    ∃ s', Exec line s0 es s' ∧ ∀ t, s'.Drained t := by
  induction ls generalizing s with
  | nil =>
      refine ⟨s, h, fun t => Set.eq_empty_iff_forall_notMem.mpr fun l hl => ?_⟩
      exact absurd (hls t l hl) List.not_mem_nil
  | cons m ls ih =>
      refine ih (.evict m h) fun t l hl => ?_
      exact (List.mem_cons.mp (hls t l hl.1)).resolve_left fun e => hl.2 (Set.mem_singleton_iff.mpr e)

/-- The line an event asks for. -/
def Ev.asked : Ev A L T B → List L
  | .fill _ l _ => [l]
  | .flush _ l => [l]
  | .store _ _ => []
  | .drain _ => []

theorem mem_pending_apply {e : Ev A L T B} {t : T} {l : L}
    (h : l ∈ (e.apply line s).pending t) : l ∈ s.pending t ∨ l ∈ e.asked := by
  have hflush : ∀ (s : Memory A L T B) (u : T) (m : L), l ∈ (s.flush u m).pending t →
      l ∈ s.pending t ∨ l = m := by
    intro s u m h
    simp only [Memory.flush] at h
    by_cases e : t = u
    · subst e
      rw [Function.update_self] at h
      exact h.symm
    · rw [Function.update_of_ne e] at h
      exact Or.inl h
  cases e with
  | store a b => exact Or.inl h
  | fill u m v => exact (hflush _ u m h).imp id List.mem_singleton.mpr
  | flush u m => exact (hflush _ u m h).imp id List.mem_singleton.mpr
  | drain u => exact Or.inl h

/-- **No program is stuck at a drain**: the hardware can always write back what is asked for. -/
theorem exists_exec (m : A → B) (es : List (Ev A L T B)) :
    ∃ s, Exec line (Memory.start m) es s := by
  suffices h : ∃ s, Exec line (Memory.start m) es s ∧
      ∀ t, ∀ l ∈ s.pending t, l ∈ es.flatMap Ev.asked from h.imp fun _ h => h.1
  induction es using List.reverseRecOn with
  | nil => exact ⟨_, .start, fun t l hl => absurd hl (Set.notMem_empty l)⟩
  | append_singleton es e ih =>
      obtain ⟨s, hs, hp⟩ := ih
      obtain ⟨s', hs', hd⟩ := exec_evictAll hs hp
      have hen : e.Enabled s' := by
        cases e with
        | drain t => exact hd t
        | store a b => trivial
        | fill t l v => trivial
        | flush t l => trivial
      refine ⟨_, .ev e hs' hen, fun t l hl => ?_⟩
      rw [List.flatMap_append, List.mem_append, List.flatMap_singleton]
      refine Or.inr ((mem_pending_apply hl).resolve_left fun h => ?_)
      rw [hd t] at h
      exact Set.notMem_empty l h

/-- Without a drain nothing need be written back. -/
theorem exists_exec_of_noDrain (hes : ∀ e ∈ es, ∀ t, e ≠ .drain t) :
    ∃ s, Exec line s0 es s ∧ s.pm = s0.pm := by
  induction es using List.reverseRecOn with
  | nil => exact ⟨s0, .start, rfl⟩
  | append_singleton es e ih =>
      obtain ⟨s, hs, hpm⟩ := ih fun e' he' => hes e' (List.mem_append_left _ he')
      have hen : e.Enabled s := by
        cases e with
        | drain t => exact absurd rfl (hes _ (List.mem_append_right _ List.mem_cons_self) t)
        | store a b => trivial
        | fill t l v => trivial
        | flush t l => trivial
      exact ⟨_, .ev e hs hen, by rw [Ev.apply_pm, hpm]⟩

end Progress

/-! ## 5. Durable lines of an event list -/

section Durable

variable {t : T} {l : L} {es fs : List (Ev A L T B)}

variable (line t) in
/-- **The line is durable**: nothing stored to it, or it was flushed and drained and nothing stored
    to it since. -/
def Durable (es : List (Ev A L T B)) (l : L) : Prop :=
  (∀ e ∈ es, ¬ e.Touches line l) ∨
    ∃ p f q r, es = p ++ f :: (q ++ .drain t :: r) ∧ f.Asks t l ∧
      (∀ e ∈ q, ¬ e.Touches line l) ∧ ∀ e ∈ r, ¬ e.Touches line l

theorem Durable.nil : Durable line t ([] : List (Ev A L T B)) l :=
  Or.inl fun _ he => absurd he List.not_mem_nil

/-- Events that do not store to the line leave it durable. -/
theorem Durable.append (h : Durable line t es l) (hf : ∀ e ∈ fs, ¬ e.Touches line l) :
    Durable line t (es ++ fs) l := by
  rcases h with h | ⟨p, f, q, r, rfl, hask, hq, hr⟩
  · refine Or.inl fun e he => ?_
    rcases List.mem_append.mp he with he | he
    · exact h e he
    · exact hf e he
  · refine Or.inr ⟨p, f, q, r ++ fs, by simp, hask, hq, fun e he => ?_⟩
    rcases List.mem_append.mp he with he | he
    · exact hr e he
    · exact hf e he

/-- A flush, then events that do not store to the line, then a drain make it durable. -/
theorem Durable.of_drain {p q : List (Ev A L T B)} {f : Ev A L T B} (hask : f.Asks t l)
    (hq : ∀ e ∈ q, ¬ e.Touches line l) : Durable line t (p ++ f :: (q ++ [.drain t])) l :=
  Or.inr ⟨p, f, q, [], rfl, hask, hq, fun _ he => absurd he List.not_mem_nil⟩

/-- What the events before do does not matter to a line that is durable at the end. -/
theorem Durable.prepend (hes : Durable line t es l) (hfs : Durable line t fs l) :
    Durable line t (es ++ fs) l := by
  rcases hfs with h | ⟨p, f, q, r, rfl, hask, hq, hr⟩
  · exact hes.append h
  · exact Or.inr ⟨es ++ p, f, q, r, by simp, hask, hq, hr⟩

/-- **A durable line is persistent**, whatever the hardware wrote back and when. -/
theorem exec_synced_of_durable {s0 s : Memory A L T B} (h : Exec line s0 es s)
    (h0 : Synced line s0 l) (hd : Durable line t es l) : Synced line s l := by
  rcases hd with hd | ⟨p, f, q, r, rfl, hask, hq, hr⟩
  · exact exec_synced h h0 hd
  · exact exec_durable h hask hq hr

/-- Stores to distinct cells, in any order. -/
theorem viewAfter_stores {I : Type*} {f : I → A} (hf : Function.Injective f) (g : I → B)
    [DecidableEq I] (is : List I) (c : A → B) (i : I) :
    viewAfter line (T := T) (is.map fun j => .store (f j) (g j)) c (f i) =
      if i ∈ is then g i else c (f i) := by
  induction is generalizing c with
  | nil => simp
  | cons j is ih =>
      rw [List.map_cons, viewAfter_cons, ih]
      by_cases hij : i = j
      · subst hij
        simp [Ev.view]
      · have hne : f i ≠ f j := fun e => hij (hf e)
        simp [Ev.view, Function.update_of_ne hne, hij]

theorem viewAfter_stores_of_ne {I : Type*} {f : I → A} {a : A} (h : ∀ i, a ≠ f i) (g : I → B)
    (is : List I) (c : A → B) :
    viewAfter line (T := T) (is.map fun j => .store (f j) (g j)) c a = c a := by
  induction is generalizing c with
  | nil => rfl
  | cons j is ih =>
      rw [List.map_cons, viewAfter_cons, ih]
      exact Function.update_of_ne (h j) _ _

/-- A prefix of a concatenation ends in the first part or in the second. -/
theorem prefix_append_iff {α : Type*} {p a b : List α} :
    p <+: a ++ b ↔ p <+: a ∨ ∃ q, p = a ++ q ∧ q <+: b := by
  constructor
  · intro h
    rcases List.prefix_or_prefix_of_prefix h (List.prefix_append a b) with hp | ⟨q, rfl⟩
    · exact Or.inl hp
    · exact Or.inr ⟨q, rfl, (List.prefix_append_right_inj a).mp h⟩
  · intro hcase
    rcases hcase with h | ⟨q, rfl, hq⟩
    · exact h.trans (List.prefix_append a b)
    · exact (List.prefix_append_right_inj a).mpr hq

end Durable

/-! ## 6. Stores that can be left out -/

section Project

variable {ls : Set L} {s0 s : Memory A L T B} {es : List (Ev A L T B)}

variable (line ls) in
/-- A store to one of the lines. -/
def Ev.StoresInto : Ev A L T B → Prop
  | .store a _ => line a ∈ ls
  | .fill _ _ _ => False
  | .flush _ _ => False
  | .drain _ => False

/-- **A run without its stores to some lines** ends the same way on the others, with the same lines
    asked for. -/
theorem exec_project [DecidablePred (Ev.StoresInto line ls (T := T) (B := B))]
    (h : Exec line s0 es s) :
    ∃ s', Exec line s0 (es.filter fun e => ¬ e.StoresInto line ls) s' ∧ s'.pending = s.pending ∧
      ∀ a, line a ∉ ls → s'.cache a = s.cache a ∧ s'.pm a = s.pm a := by
  induction h with
  | start => exact ⟨s0, .start, rfl, fun _ _ => ⟨rfl, rfl⟩⟩
  | @ev es s e _ he ih =>
      obtain ⟨s', hs', hpend, hcells⟩ := ih
      rw [List.filter_append]
      by_cases hin : e.StoresInto line ls
      · rw [List.filter_cons_of_neg (by simpa using hin), List.filter_nil, List.append_nil]
        refine ⟨s', hs', ?_, fun a ha => ?_⟩
        · cases e with
          | store a b => exact hpend
          | fill t l v => exact absurd hin id
          | flush t l => exact absurd hin id
          | drain t => exact absurd hin id
        · obtain ⟨hc, hp⟩ := hcells a ha
          cases e with
          | store a' b =>
              have hne : a ≠ a' := fun heq => ha (heq ▸ hin)
              exact ⟨by rw [hc]; exact (Function.update_of_ne hne _ _).symm, hp⟩
          | fill t l v => exact absurd hin id
          | flush t l => exact absurd hin id
          | drain t => exact absurd hin id
      · rw [List.filter_cons_of_pos (by simpa using hin), List.filter_nil]
        have hen : e.Enabled s' := by
          cases e with
          | drain t => exact (congrFun hpend t).trans he
          | store a b => trivial
          | fill t l v => trivial
          | flush t l => trivial
        refine ⟨_, .ev e hs' hen, ?_, fun a ha => ?_⟩
        · cases e with
          | store a b => exact hpend
          | drain t => exact hpend
          | fill t l v => simp only [Ev.apply, Memory.fill, Memory.flush, hpend]
          | flush t l => simp only [Ev.apply, Memory.flush, hpend]
        · obtain ⟨hc, hp⟩ := hcells a ha
          refine ⟨?_, by rw [Ev.apply_pm, Ev.apply_pm, hp]⟩
          rw [Ev.apply_cache, Ev.apply_cache]
          cases e with
          | store a' b =>
              simp only [Ev.view, Function.update_apply, hc]
          | fill t l v => simp only [Ev.view, hc]
          | flush t l => exact hc
          | drain t => exact hc
  | @evict es s l _ ih =>
      obtain ⟨s', hs', hpend, hcells⟩ := ih
      refine ⟨_, .evict l hs', by simp only [Memory.evict, hpend], fun a ha => ?_⟩
      obtain ⟨hc, hp⟩ := hcells a ha
      exact ⟨hc, by simp only [Memory.evict, hc, hp]⟩

/-- The program's view, away from these lines. -/
theorem viewAfter_project [DecidablePred (Ev.StoresInto line ls (T := T) (B := B))] (c : A → B)
    {a : A} (ha : line a ∉ ls) :
    viewAfter line (es.filter fun e => ¬ e.StoresInto line ls) c a = viewAfter line es c a := by
  obtain ⟨s, hs⟩ : ∃ s : Memory A L T B, Exec line (Memory.start c) es s := exists_exec c es
  obtain ⟨s', hs', -, hcells⟩ : ∃ s' : Memory A L T B, Exec line (Memory.start c)
      (es.filter fun e => ¬ e.StoresInto line ls) s' ∧ _ := exec_project hs
  have h := (hcells a ha).1
  rwa [exec_cache hs', exec_cache hs] at h

end Project

end PersistentMemory
