import Benedias.Interleaving
import Mathlib.Algebra.BigOperators.Group.Finset.Basic
import Mathlib.Algebra.Order.BigOperators.Group.Finset
import Mathlib.Algebra.Order.Group.Int
import Mathlib.Data.Fintype.BigOperators
import Mathlib.Tactic.Ring

/-! Threads over one shared memory that may sleep on futex words. Every atomic operation,
every `futex_wait` and every `futex_wake` is one step; a sleeper wakes when some thread
wakes its word, or spuriously. -/
namespace Benedias
namespace FutexMachine

open Interleaving

/-- What one step of a thread does: an operation on the memory, going to sleep on a word,
or waking at most one sleeper of a word. -/
inductive Effect (M A L : Type)
  | go (m : M) (l : L)
  | sleep (a : A) (l : L)
  | wake (a : A) (l : L)

/-- `futex_wait`: sleeps only if the word still has the expected value. -/
def futexWait {M A L : Type} (m : M) (a : A) (word expected : ℤ) (l : L) : Effect M A L :=
  if word = expected then .sleep a l else .go m l

def Effect.map {M A L M' A' L' : Type} (fm : M → M') (fa : A → A') (fl : L → L') :
    Effect M A L → Effect M' A' L'
  | .go m l => .go (fm m) (fl l)
  | .sleep a l => .sleep (fa a) (fl l)
  | .wake a l => .wake (fa a) (fl l)

/-- The memory after an effect. -/
def Effect.mem {M A L : Type} (m : M) : Effect M A L → M
  | .go m' _ => m'
  | .sleep _ _ | .wake _ _ => m

/-- The program point after an effect. -/
def Effect.pc {M A L : Type} : Effect M A L → L
  | .go _ l | .sleep _ l | .wake _ l => l

@[simp] theorem Effect.map_pc {M A L L' : Type} (f : L → L') (e : Effect M A L) :
    (e.map id id f).pc = f e.pc := by cases e <;> rfl

@[simp] theorem Effect.map_mem {M A L L' : Type} (f : L → L') (e : Effect M A L) (m : M) :
    (e.map id id f).mem m = e.mem m := by cases e <;> rfl

/-- A sleeping thread's program point is the one it resumes at. -/
structure Conf (T M A L : Type) where
  mem : M
  pc : T → L
  asleep : T → Option A

inductive Label (T : Type)
  | run (t : T) (choice : ℕ) (woken : Option T)
  | spurious (t : T)

variable {T M A L : Type} [DecidableEq T]

/-- The steps of the machine whose threads follow `next`. -/
inductive Step (next : L → M → List (Effect M A L)) (c : Conf T M A L) : Conf T M A L → Prop
  | go {t : T} {m : M} {l : L} (ha : c.asleep t = none) (he : .go m l ∈ next (c.pc t) c.mem) :
      Step next c ⟨m,Function.update c.pc t l,c.asleep⟩
  | sleep {t : T} {a : A} {l : L} (ha : c.asleep t = none)
      (he : .sleep a l ∈ next (c.pc t) c.mem) :
      Step next c ⟨c.mem,Function.update c.pc t l,Function.update c.asleep t (some a)⟩
  | wakeOne {t u : T} {a : A} {l : L} (ha : c.asleep t = none)
      (he : .wake a l ∈ next (c.pc t) c.mem) (hu : c.asleep u = some a) :
      Step next c ⟨c.mem,Function.update c.pc t l,Function.update c.asleep u none⟩
  | wakeNone {t : T} {a : A} {l : L} (ha : c.asleep t = none)
      (he : .wake a l ∈ next (c.pc t) c.mem) (hn : ∀ u, c.asleep u ≠ some a) :
      Step next c ⟨c.mem,Function.update c.pc t l,c.asleep⟩
  | spurious {t : T} {a : A} (ha : c.asleep t = some a) :
      Step next c ⟨c.mem,c.pc,Function.update c.asleep t none⟩

/-- How one effect of a concrete thread looks through an abstraction that hides some words. -/
def EffectMaps {M' A' L' : Type} (next' : L' → M' → List (Effect M' A' L')) (fm : M → M')
    (fa : A → Option A') (fl : L → L') (m : M) (l : L) : Effect M A L → Prop
  | .go m₁ l₁ => fm m₁ = fm m ∧ fl l₁ = fl l ∨ .go (fm m₁) (fl l₁) ∈ next' (fl l) (fm m)
  | .sleep a l₁ =>
    (∀ a', fa a = some a' → .sleep a' (fl l₁) ∈ next' (fl l) (fm m)) ∧
      (fa a = none → fl l₁ = fl l)
  | .wake a l₁ =>
    (∀ a', fa a = some a' → .wake a' (fl l₁) ∈ next' (fl l) (fm m)) ∧
      (fa a = none → fl l₁ = fl l)

section Projection

variable {M' A' L' : Type} {next : L → M → List (Effect M A L)}
  {next' : L' → M' → List (Effect M' A' L')} (fm : M → M') (fa : A → Option A') (fl : L → L')

def project (c : Conf T M A L) : Conf T M' A' L' :=
  ⟨fm c.mem,fun t => fl (c.pc t),fun t => (c.asleep t).bind fa⟩

theorem project_pc_update (c : Conf T M A L) (t : T) (l : L) :
    (fun u => fl (Function.update c.pc t l u)) =
      Function.update (fun u => fl (c.pc u)) t (fl l) := by
  funext u; by_cases h : u = t <;> simp [Function.update,h]

theorem project_asleep_update (c : Conf T M A L) (t : T) (a : Option A) :
    (fun u => (Function.update c.asleep t a u).bind fa) =
      Function.update (fun u => (c.asleep u).bind fa) t (a.bind fa) := by
  funext u; by_cases h : u = t <;> simp [Function.update,h]

/-- Steps project to steps or to nothing when every effect does and no two words are
shown as one. -/
theorem project_step (hfa : ∀ a b a', fa a = some a' → fa b = some a' → a = b)
    {c c' : Conf T M A L}
    (hmap : ∀ t e, e ∈ next (c.pc t) c.mem → EffectMaps next' fm fa fl c.mem (c.pc t) e)
    (h : Step next c c') : project fm fa fl c' = project fm fa fl c ∨
      Step next' (project fm fa fl c) (project fm fa fl c') := by
  cases h with
  | @go t m l ha he =>
    rcases hmap _ _ he with ⟨hm,hl⟩ | hm
    · left
      simp only [project,project_pc_update,hm,hl,Function.update_eq_self]
    · right
      simp only [project,project_pc_update]
      exact .go (c:=project fm fa fl c) (by simp [project,ha]) hm
  | @sleep t a l ha he =>
    obtain ⟨hs,hn⟩ := hmap _ _ he
    have hself : Function.update (fun u => (c.asleep u).bind fa) t none =
        fun u => (c.asleep u).bind fa := Function.update_eq_self_iff.mpr (by simp [ha])
    cases hfa' : fa a with
    | none =>
      left
      simp only [project,project_pc_update,project_asleep_update,hn hfa',Option.bind_some,hfa',
        Function.update_eq_self,hself]
    | some a' =>
      right
      simp only [project,project_pc_update,project_asleep_update,Option.bind_some,hfa']
      exact .sleep (c:=project fm fa fl c) (by simp [project,ha]) (hs a' hfa')
  | @wakeOne t u a l ha he hu =>
    obtain ⟨hs,hn⟩ := hmap _ _ he
    cases hfa' : fa a with
    | none =>
      left
      have hself : Function.update (fun u => (c.asleep u).bind fa) u none =
          fun u => (c.asleep u).bind fa := Function.update_eq_self_iff.mpr (by simp [hu,hfa'])
      simp only [project,project_pc_update,project_asleep_update,hn hfa',Option.bind_none,
        Function.update_eq_self,hself]
    | some a' =>
      right
      simp only [project,project_pc_update,project_asleep_update,Option.bind_none]
      exact .wakeOne (c:=project fm fa fl c) (by simp [project,ha]) (hs a' hfa')
        (by simp [project,hu,hfa'])
  | @wakeNone t a l ha he hw =>
    obtain ⟨hs,hn⟩ := hmap _ _ he
    cases hfa' : fa a with
    | none =>
      left
      simp only [project,project_pc_update,hn hfa',Function.update_eq_self]
    | some a' =>
      right
      simp only [project,project_pc_update]
      refine .wakeNone (c:=project fm fa fl c) (by simp [project,ha]) (hs a' hfa') ?_
      intro u hu
      obtain ⟨b,hb,hb'⟩ := Option.bind_eq_some_iff.mp hu
      exact hw u (hfa a b a' hfa' hb' ▸ hb)
  | @spurious t a ha =>
    cases hfa' : fa a with
    | none =>
      left
      have hself : Function.update (fun u => (c.asleep u).bind fa) t none =
          fun u => (c.asleep u).bind fa := Function.update_eq_self_iff.mpr (by simp [ha,hfa'])
      simp only [project,project_asleep_update,Option.bind_none,hself]
    | some a' =>
      right
      simp only [project,project_asleep_update,Option.bind_none]
      exact .spurious (c:=project fm fa fl c) (a:=a') (by simp [project,ha,hfa'])

end Projection

section Machine

variable [Fintype T] [DecidableEq A]

/-- The same steps, computed from a label. -/
def fire (next : L → M → List (Effect M A L)) (c : Conf T M A L) :
    Label T → Option (Conf T M A L)
  | .run t choice woken =>
    if c.asleep t = none then
      match (next (c.pc t) c.mem)[choice]?, woken with
      | some (.go m l), _ => some ⟨m,Function.update c.pc t l,c.asleep⟩
      | some (.sleep a l), _ =>
        some ⟨c.mem,Function.update c.pc t l,Function.update c.asleep t (some a)⟩
      | some (.wake a l), some u =>
        if c.asleep u = some a then
          some ⟨c.mem,Function.update c.pc t l,Function.update c.asleep u none⟩
        else none
      | some (.wake a l), none =>
        if ∀ u, c.asleep u ≠ some a then some ⟨c.mem,Function.update c.pc t l,c.asleep⟩ else none
      | none, _ => none
    else none
  | .spurious t =>
    if c.asleep t = none then none
    else some ⟨c.mem,c.pc,Function.update c.asleep t none⟩

/-- The effect that a label chooses is all of the code that its step needs. -/
theorem fire_step_in {next next' : L → M → List (Effect M A L)} {c c' : Conf T M A L}
    {b : Label T} (hin : ∀ t choice woken, b = .run t choice woken →
      ∀ e, (next (c.pc t) c.mem)[choice]? = some e → e ∈ next' (c.pc t) c.mem)
    (h : fire next c b = some c') : Step next' c c' := by
  cases b with
  | run t choice woken =>
    have hmem := hin t choice woken rfl
    simp only [fire] at h
    split at h
    · rename_i ha
      split at h
      · rename_i he
        obtain rfl := Option.some.inj h
        exact .go ha (hmem _ he)
      · rename_i he
        obtain rfl := Option.some.inj h
        exact .sleep ha (hmem _ he)
      · rename_i he
        split at h
        · rename_i hu
          obtain rfl := Option.some.inj h
          exact .wakeOne ha (hmem _ he) hu
        · cases h
      · rename_i he
        split at h
        · rename_i hn
          obtain rfl := Option.some.inj h
          exact .wakeNone ha (hmem _ he) hn
        · cases h
      · cases h
    · cases h
  | spurious t =>
    simp only [fire] at h
    split at h
    · cases h
    · rename_i ha
      obtain rfl := Option.some.inj h
      obtain ⟨a,ha⟩ := Option.ne_none_iff_exists'.mp ha
      exact .spurious ha

theorem fire_step {next : L → M → List (Effect M A L)} {c c' : Conf T M A L} {b : Label T}
    (h : fire next c b = some c') : Step next c c' :=
  fire_step_in (fun _ _ _ _ _ => List.mem_of_getElem?) h

theorem step_fire {next : L → M → List (Effect M A L)} {c c' : Conf T M A L}
    (h : Step next c c') : ∃ b, fire next c b = some c' := by
  cases h with
  | @go t m l ha he =>
    obtain ⟨k,hk⟩ := List.mem_iff_getElem?.mp he
    exact ⟨.run t k none,by simp [fire,ha,hk]⟩
  | @sleep t a l ha he =>
    obtain ⟨k,hk⟩ := List.mem_iff_getElem?.mp he
    exact ⟨.run t k none,by simp [fire,ha,hk]⟩
  | @wakeOne t u a l ha he hu =>
    obtain ⟨k,hk⟩ := List.mem_iff_getElem?.mp he
    exact ⟨.run t k (some u),by simp [fire,ha,hk,hu]⟩
  | @wakeNone t a l ha he hn =>
    obtain ⟨k,hk⟩ := List.mem_iff_getElem?.mp he
    exact ⟨.run t k none,by simp [fire,ha,hk,hn]⟩
  | @spurious t a ha => exact ⟨.spurious t,by simp [fire,ha]⟩

theorem fire_run {next : L → M → List (Effect M A L)} {c c' : Conf T M A L} {t : T} {choice : ℕ}
    {woken : Option T} (h : fire next c (.run t choice woken) = some c') :
    ∃ e, (next (c.pc t) c.mem)[choice]? = some e ∧ c'.mem = e.mem c.mem ∧
      c'.pc = Function.update c.pc t e.pc := by
  simp only [fire] at h
  split at h
  · split at h
    · rename_i he
      obtain rfl := Option.some.inj h
      exact ⟨_,he,rfl,rfl⟩
    · rename_i he
      obtain rfl := Option.some.inj h
      exact ⟨_,he,rfl,rfl⟩
    · rename_i he
      split at h
      · obtain rfl := Option.some.inj h
        exact ⟨_,he,rfl,rfl⟩
      · cases h
    · rename_i he
      split at h
      · obtain rfl := Option.some.inj h
        exact ⟨_,he,rfl,rfl⟩
      · cases h
    · cases h
  · cases h

theorem fire_spurious {next : L → M → List (Effect M A L)} {c c' : Conf T M A L} {t : T}
    (h : fire next c (.spurious t) = some c') :
    c.asleep t ≠ none ∧ c'.mem = c.mem ∧ c'.pc = c.pc := by
  simp only [fire] at h
  split at h
  · cases h
  · rename_i ha
    obtain rfl := Option.some.inj h
    exact ⟨ha,rfl,rfl⟩

/-- An awake thread that has an effect can take it without any spurious wakeup. -/
theorem awake_fires {next : L → M → List (Effect M A L)} {c : Conf T M A L} {t : T}
    (ha : c.asleep t = none) (hn : next (c.pc t) c.mem ≠ []) :
    ∃ woken c', fire next c (.run t 0 woken) = some c' := by
  obtain ⟨e,es,he⟩ := List.exists_cons_of_ne_nil hn
  have h0 : (next (c.pc t) c.mem)[0]? = some e := by simp [he]
  cases e with
  | go m l => exact ⟨none,_,by simp only [fire,ha,h0]; rfl⟩
  | sleep a l => exact ⟨none,_,by simp only [fire,ha,h0]; rfl⟩
  | wake a l =>
    by_cases hw : ∀ u, c.asleep u ≠ some a
    · exact ⟨none,_,by simp only [fire,ha,h0,if_true]; exact if_pos hw⟩
    · obtain ⟨u,hu⟩ := not_forall_not.mp hw
      exact ⟨some u,_,by simp only [fire,ha,h0,if_true]; exact if_pos hu⟩

/-- The threads start at the program point `l` with the memory `m`, nobody asleep. -/
def start (m : M) (l : L) : Conf T M A L := ⟨m,fun _ => l,fun _ => none⟩

def machine (next : L → M → List (Effect M A L)) (m : M) (l : L) :
    System (Conf T M A L) (Label T) where
  init c := c = start m l
  fire := fire next

theorem machine_invariant {next : L → M → List (Effect M A L)} {m : M} {l : L}
    {I : Conf T M A L → Prop} {c : Conf T M A L} (hr : (machine next m l).Reachable c)
    (hinit : I (start m l))
    (hstep : ∀ c c', (machine next m l).Reachable c → I c → Step next c c' → I c') : I c := by
  refine hr.invariant (fun s hs => ?_) fun s b s' hr hi hf => hstep s s' hr hi (fire_step hf)
  obtain rfl := hs
  exact hinit

/-- What every effect of a thread keeps about its own program point holds for all threads. -/
theorem machine_local {next : L → M → List (Effect M A L)} {m : M} {l : L} {I : L → Prop}
    {c : Conf T M A L} (hr : (machine next m l).Reachable c) (h0 : I l)
    (hnext : ∀ p m e, e ∈ next p m → I p → I e.pc) (t : T) : I (c.pc t) := by
  have keep : ∀ (c : Conf T M A L) (u : T) (e : Effect M A L), (∀ t, I (c.pc t)) →
      e ∈ next (c.pc u) c.mem → ∀ t, I (Function.update c.pc u e.pc t) := by
    intro c u e hi he t
    by_cases htu : t = u
    · subst htu; simpa using hnext _ _ e he (hi t)
    · simpa [htu] using hi t
  suffices hall : ∀ t, I (c.pc t) from hall t
  refine machine_invariant (I:=fun c => ∀ t, I (c.pc t)) hr (fun _ => h0) fun c c' _ hi hs => ?_
  cases hs with
  | go ha he => exact keep c _ _ hi he
  | sleep ha he => exact keep c _ _ hi he
  | wakeOne ha he hu => exact keep c _ _ hi he
  | wakeNone ha he hn => exact keep c _ _ hi he
  | spurious ha => exact hi

/-- The projection of a machine, as a simulation. -/
def projection {M' A' L' : Type} [DecidableEq A'] {next : L → M → List (Effect M A L)}
    {next' : L' → M' → List (Effect M' A' L')} (fm : M → M') (fa : A → Option A') (fl : L → L')
    (hfa : ∀ a b a', fa a = some a' → fa b = some a' → a = b)
    (hmap : ∀ l m e, e ∈ next l m → EffectMaps next' fm fa fl m l e) (m : M) (l : L) :
    Simulation (machine (T:=T) next m l) (machine (T:=T) next' (fm m) (fl l)) where
  abs := project fm fa fl
  init := by rintro c rfl; rfl
  step c b c' _ hf :=
    (project_step fm fa fl hfa (fun _ _ => hmap _ _ _) (fire_step hf)).imp_right step_fire

/-- The machine without the effects that do not meet `ok`. -/
def restrict (ok : L → Effect M A L → Bool) (next : L → M → List (Effect M A L)) (l : L) (m : M) :
    List (Effect M A L) := (next l m).filter (ok l)

/-- The step takes an effect that meets `ok`. -/
def Meets (ok : L → Effect M A L → Bool) (next : L → M → List (Effect M A L))
    (c : Conf T M A L) : Label T → Prop
  | .run t choice _ => ((next (c.pc t) c.mem)[choice]?.all (ok (c.pc t))) = true
  | .spurious _ => True

instance (ok : L → Effect M A L → Bool) (next : L → M → List (Effect M A L))
    (c : Conf T M A L) (b : Label T) : Decidable (Meets ok next c b) := by
  cases b <;> simp only [Meets] <;> infer_instance

theorem fire_restrict {ok : L → Effect M A L → Bool} {next : L → M → List (Effect M A L)}
    {c c' : Conf T M A L} {b : Label T} (hb : Meets ok next c b) (h : fire next c b = some c') :
    Step (restrict ok next) c c' := by
  refine fire_step_in (fun t choice woken hb' e he => ?_) h
  subst hb'
  simp only [Meets,he,Option.all_some] at hb
  exact List.mem_filter.mpr ⟨List.mem_of_getElem? he,hb⟩

/-- Runs whose steps all meet `ok` are the runs of the restricted machine. -/
theorem restrict_reachable {ok : L → Effect M A L → Bool} {next : L → M → List (Effect M A L)}
    {m : M} {l : L} {c : Conf T M A L}
    (hr : (machine next m l).ReachableVia (Meets ok next) c) :
    (machine (restrict ok next) m l).Reachable c := by
  refine hr.invariant (fun c hc => .init hc) fun c b c' _ hi hb hf => ?_
  obtain ⟨b',hb'⟩ := step_fire (fire_restrict hb hf)
  exact hi.step hb'

end Machine

/-- A property of the program point that a thread's step keeps is kept for all threads. -/
theorem update_same {T L β : Type} [DecidableEq T] (f : L → β) {pc : T → L} {t : T} {l : L}
    (h : f l = f (pc t)) (u : T) : f (Function.update pc t l u) = f (pc u) := by
  by_cases hut : u = t
  · subst hut; simpa using h
  · simp [hut]

/-! Counting threads by the program points they are at. -/

section Total

variable {T L : Type} [Fintype T]

/-- The sum of a weight over all threads. -/
def total (w : L → ℤ) (pc : T → L) : ℤ := ∑ t, w (pc t)

theorem total_update [DecidableEq T] (w : L → ℤ) (pc : T → L) (t : T) (l : L) :
    total w (Function.update pc t l) = total w pc - w (pc t) + w l := by
  have h := Finset.sum_update_of_mem (Finset.mem_univ t) (fun u => w (pc u)) (w l)
  have h' := Finset.sum_sdiff (Finset.subset_univ {t}) (f:=fun u => w (pc u))
  simp only [Finset.sum_singleton] at h'
  have hu : (fun u => w (Function.update pc t l u)) =
      Function.update (fun u => w (pc u)) t (w l) := by
    funext u; by_cases h : u = t <;> simp [Function.update,h]
  simp only [total,hu,h,← h']
  ring

theorem total_sub (w v : L → ℤ) (pc : T → L) :
    total (fun l => w l - v l) pc = total w pc - total v pc := Finset.sum_sub_distrib _ _

theorem le_total {w : L → ℤ} (hw : ∀ l, 0 ≤ w l) (pc : T → L) (t : T) : w (pc t) ≤ total w pc :=
  Finset.single_le_sum (f:=fun u => w (pc u)) (fun u _ => hw (pc u)) (Finset.mem_univ t)

theorem total_nonneg {w : L → ℤ} (hw : ∀ l, 0 ≤ w l) (pc : T → L) : 0 ≤ total w pc :=
  Finset.sum_nonneg fun t _ => hw (pc t)

theorem total_le_card {w : L → ℤ} (hw : ∀ l, w l ≤ 1) (pc : T → L) :
    total w pc ≤ Fintype.card T := by
  have h := Finset.sum_le_card_nsmul Finset.univ (fun t => w (pc t)) 1 fun t _ => hw (pc t)
  simpa [total,Finset.card_univ] using h

theorem exists_of_total_pos {w : L → ℤ} {pc : T → L} (h : 0 < total w pc) :
    ∃ t, 0 < w (pc t) := by
  by_contra hn
  have hz : ∀ t, w (pc t) ≤ 0 := fun t => not_lt.mp fun ht => hn ⟨t,ht⟩
  exact absurd h (not_lt.mpr (Finset.sum_nonpos fun t _ => hz t))

/-- A weight that at most one thread has, and only once, adds up to at most one. -/
theorem total_le_one [DecidableEq T] {w : L → ℤ} {pc : T → L} (hw : ∀ l, w l ≤ 1)
    (hone : ∀ t u, 0 < w (pc t) → 0 < w (pc u) → t = u) : total w pc ≤ 1 := by
  by_cases h : ∃ t, 0 < w (pc t)
  · obtain ⟨t,ht⟩ := h
    have hrest : ∑ u ∈ Finset.univ.erase t, w (pc u) ≤ 0 :=
      Finset.sum_nonpos fun u hu => not_lt.mp fun hu' =>
        Finset.ne_of_mem_erase hu (hone u t hu' ht)
    have hsum := Finset.add_sum_erase Finset.univ (fun u => w (pc u)) (Finset.mem_univ t)
    have := hw (pc t)
    simp only [total] at *
    omega
  · have : total w pc ≤ 0 := Finset.sum_nonpos fun t _ => not_lt.mp fun ht => h ⟨t,ht⟩
    omega

end Total

end FutexMachine
end Benedias
