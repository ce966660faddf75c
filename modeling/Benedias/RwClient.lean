import Benedias.RwObject
import Benedias.RwProgress

/-! Threads that share data under one `futex_rw_control`. What a thread does between two calls is
given by its client program, a step on the data at a time; assertions about the client's locals
and the data, checked one action at a time, hold in every interleaving. -/
namespace Benedias
namespace RwClient

open Interleaving FutexMachine RwControl

/-- A step on the shared data and the client's own locals, or the call of an operation. -/
inductive Action (D B : Type)
  | data (d : D) (b : B) | call (q : Thread) (b : B)

/-- What a thread may do next when it is outside, reading or writing. -/
abbrev Client (D B : Type) := Thread → B → D → List (Action D B)

variable {D B : Type}

/-- The thread is in no call. -/
def between : Thread → Bool
  | .outside | .reading | .writing _ => true
  | _ => false

def Action.effect (p : Thread) (m : Mem × D) : Action D B → Effect (Mem × D) Word (Thread × B)
  | .data d b => .go (m.1,d) (p,b)
  | .call q b => .go m (q,b)

/-- A step of the control leaves data and locals as they are. -/
def lift (m : Mem × D) (b : B) (e : Effect Mem Word Thread) :
    Effect (Mem × D) Word (Thread × B) := e.map (fun m' => (m',m.2)) id fun q => (q,b)

def next {n : ℕ} (w : IntWord n) (C : Client D B) (l : Thread × B) (m : Mem × D) :
    List (Effect (Mem × D) Word (Thread × B)) :=
  if between l.1 then (C l.1 l.2 m.2).map (Action.effect l.1 m)
  else (RwControl.next w l.1 m.1).map (lift m l.2)

/-- Assertions about a thread's locals: outside, in a call that will make it a reader or a writer,
and, about the data too, inside a section or in `try_write_modify`. The invariant holds of the
data while nobody writes. -/
structure Assertions (D B : Type) where
  inv : D → Prop
  out : B → Prop
  toRead : B → Prop
  toWrite : B → Prop
  read : B → D → Prop
  upgrade : B → D → Prop
  write : B → D → Prop

def Assertions.holds (A : Assertions D B) : Thread → B → D → Prop
  | .outside, b, _ | .drop .readUnlock, b, _ | .wakeWriter .readUnlock, b, _
  | .leave .writeUnlock _, b, _ => A.out b
  | .enter .readLock _, b, _ | .addReader, b, _ => A.toRead b
  | .leave .readLock _, b, d | .reading, b, d => A.read b d
  | .tryEnter, b, d | .dropOwn, b, d | .announce .tryWriteModify, b, d
  | .drainWait .tryWriteModify _, b, d | .drainLoad .tryWriteModify, b, d => A.upgrade b d
  | .drop .writeModify, b, _ | .wakeWriter .writeModify, b, _ | .enter _ _, b, _ | .announce _, b, _
  | .drainWait _ _, b, _ | .drainLoad _, b, _ => A.toWrite b
  | .writing _, b, d => A.write b d
  | .clearReaders, b, d => A.out b ∧ A.inv d
  | .aborted, _, _ => False

/-- An action that keeps the assertions: only a writer changes the data, and it gives the lock
back with the invariant restored, by the call that belongs to the way it holds the lock. -/
def Assertions.Allows (A : Assertions D B) (d : D) : Thread → Action D B → Prop
  | .outside, .data d' b' => d' = d ∧ A.out b'
  | .outside, .call q b' => q = readLock ∧ A.toRead b' ∨ q = writeLock ∧ A.toWrite b'
  | .reading, .data d' b' => d' = d ∧ A.read b' d
  | .reading, .call q b' => q = readUnlock ∧ A.out b' ∨
      q = tryWriteModify ∧ A.upgrade b' d ∨ q = writeModify ∧ A.toWrite b'
  | .writing _, .data d' b' => A.write b' d'
  | .writing _, .call q b' => q = writeUnlock ∧ A.out b' ∧ A.inv d
  | _, _ => False

/-- Assertions that the actions of the client keep, and that taking the lock establishes. -/
structure Outline (C : Client D B) extends Assertions D B where
  acquireRead : ∀ b d, toRead b → inv d → read b d
  acquireWrite : ∀ b d, toWrite b → inv d → write b d
  upgraded : ∀ b d, upgrade b d → inv d → write b d
  refused : ∀ b d, upgrade b d → read b d
  allows : ∀ p b d a, between p → toAssertions.holds p b d → a ∈ C p b d →
    toAssertions.Allows d p a

theorem next_cases {n : ℕ} {w : IntWord n} {C : Client D B} {p : Thread} {b : B} {m : Mem × D}
    {e : Effect (Mem × D) Word (Thread × B)} (h : e ∈ next w C (p,b) m) :
    (between p ∧ ∃ a ∈ C p b m.2, e = a.effect p m) ∨
      (between p = false ∧ ∃ e₀ ∈ RwControl.next w p m.1, e = lift m b e₀) := by
  simp only [next] at h
  split at h
  · rename_i hp
    obtain ⟨a,ha,rfl⟩ := List.mem_map.mp h
    exact .inl ⟨hp,a,ha,rfl⟩
  · rename_i hp
    obtain ⟨e₀,he₀,rfl⟩ := List.mem_map.mp h
    exact .inr ⟨by simpa using hp,e₀,he₀,rfl⟩

@[simp] theorem lift_pc (m : Mem × D) (b : B) (e : Effect Mem Word Thread) :
    (lift m b e).pc = (e.pc,b) := by cases e <;> rfl

@[simp] theorem lift_mem (m : Mem × D) (b : B) (e : Effect Mem Word Thread) :
    (lift m b e).mem m = (e.mem m.1,m.2) := by cases e <;> rfl

/-- What an allowed action is to the control. -/
theorem Assertions.Allows.maps {A : Assertions D B} {n : ℕ} {w : IntWord n} {p : Thread}
    {m : Mem × D} {a : Action D B} {b : B} (h : A.Allows m.2 p a) :
    EffectMaps (RwControl.next w) Prod.fst some Prod.fst m (p,b) (a.effect p m) := by
  cases a with
  | data d' b' => exact .inl ⟨rfl,rfl⟩
  | call q b' =>
    right
    cases p with
    | outside => rcases h with ⟨rfl,-⟩ | ⟨rfl,-⟩ <;> simp [RwControl.next]
    | reading => rcases h with ⟨rfl,-⟩ | ⟨rfl,-⟩ | ⟨rfl,-⟩ <;> simp [RwControl.next]
    | writing k => obtain ⟨rfl,-⟩ := h; simp [RwControl.next]
    | _ => exact h.elim

theorem lift_maps {n : ℕ} {w : IntWord n} {p : Thread} {m : Mem × D} {b : B}
    {e : Effect Mem Word Thread} (he : e ∈ RwControl.next w p m.1) :
    EffectMaps (RwControl.next w) Prod.fst some Prod.fst m (p,b) (lift m b e) := by
  cases e with
  | go m' q => exact .inr he
  | sleep a q => exact ⟨fun a' ha => by obtain rfl := Option.some.inj ha; exact he,fun h => by cases h⟩
  | wake a q => exact ⟨fun a' ha => by obtain rfl := Option.some.inj ha; exact he,fun h => by cases h⟩

/-- The control's own assertion has not failed. -/
theorem Assertions.holds_ne_aborted {A : Assertions D B} {p : Thread} {b : B} {d : D}
    (h : A.holds p b d) : p ≠ .aborted := by
  rintro rfl
  exact h

/-- After an allowed action the thread's own assertion holds. -/
theorem Assertions.Allows.holds {A : Assertions D B} {p : Thread} {m : Mem × D} {a : Action D B}
    (h : A.Allows m.2 p a) :
    A.holds (a.effect p m).pc.1 (a.effect p m).pc.2 ((a.effect p m).mem m).2 := by
  cases a with
  | data d' b' =>
    cases p with
    | outside | reading => obtain ⟨rfl,h⟩ := h; exact h
    | writing k => exact h
    | _ => exact h.elim
  | call q b' =>
    cases p with
    | outside => rcases h with ⟨rfl,h⟩ | ⟨rfl,h⟩ <;> exact h
    | reading => rcases h with ⟨rfl,h⟩ | ⟨rfl,h⟩ | ⟨rfl,h⟩ <;> exact h
    | writing k => obtain ⟨rfl,h⟩ := h; exact h
    | _ => exact h.elim

/-- Only a writer changes the data, and it is a writer after its action too. -/
theorem Assertions.Allows.data {A : Assertions D B} {p : Thread} {m : Mem × D} {a : Action D B}
    (h : A.Allows m.2 p a) :
    p.mode = .write ∧ (a.effect p m).pc.1.mode = .write ∨
      ((a.effect p m).mem m).2 = m.2 ∧ p.mode ≠ .write ∧ (a.effect p m).pc.1.mode ≠ .write := by
  cases a with
  | data d' b' =>
    cases p with
    | outside | reading => exact .inr ⟨h.1,by simp [Thread.mode],by simp [Action.effect,Effect.pc,Thread.mode]⟩
    | writing k => exact .inl ⟨rfl,rfl⟩
    | _ => exact h.elim
  | call q b' =>
    cases p with
    | outside =>
      rcases h with ⟨rfl,-⟩ | ⟨rfl,-⟩ <;>
        exact .inr ⟨rfl,by simp [Thread.mode],by simp [Action.effect,Effect.pc,readLock,writeLock,Thread.mode]⟩
    | reading =>
      rcases h with ⟨rfl,-⟩ | ⟨rfl,-⟩ | ⟨rfl,-⟩ <;>
        exact .inr ⟨rfl,by simp [Thread.mode],by
          simp [Action.effect,Effect.pc,readUnlock,tryWriteModify,writeModify,Thread.mode]⟩
    | writing k => obtain ⟨rfl,-⟩ := h; exact .inl ⟨rfl,rfl⟩
    | _ => exact h.elim

/-- The assertion of a thread that does not hold the lock is not about the data. -/
theorem Assertions.holds_of_mode {A : Assertions D B} {p : Thread} {b : B} {d d' : D}
    (hp : p.mode = .none) (h : A.holds p b d) : A.holds p b d' := by
  rcases p with _ | _ | _ | ⟨_ | _ | _,_⟩ | _ | ⟨_ | _,_⟩ | ⟨_ | _⟩ | ⟨_ | _⟩ | _ | _ |
    ⟨_ | _ | _⟩ | ⟨_ | _ | _,_⟩ | ⟨_ | _ | _⟩ | _ | _ <;>
    first | exact h | (simp [Thread.mode] at hp)

/-- A step of the control keeps the thread's assertion, by the invariant where it makes the thread
a reader or a writer. -/
theorem Outline.holds_lock {C : Client D B} (A : Outline C) {n : ℕ} {w : IntWord n} {m : Mem}
    {p : Thread} {b : B} {d : D} {e : Effect Mem Word Thread} (he : e ∈ RwControl.next w p m)
    (hb : between p = false) (hq : e.pc ≠ .aborted) (h : A.holds p b d)
    (hinv : p.mode ≠ .write → p = .addReader ∨ e.pc.drained → A.inv d) : A.holds e.pc b d := by
  rcases p with _ | _ | _ | ⟨k,pc⟩ | _ | ⟨k,pc⟩ | k | k | _ | _ | k | ⟨k,v⟩ | k | _ | _
  case outside => simp [between] at hb
  case reading => simp [between] at hb
  case writing => simp [between] at hb
  case aborted => exact h.elim
  all_goals simp only [RwControl.next,List.mem_singleton] at he
  case enter =>
    subst he
    cases k <;> rcases pc with _ | x | _ | _ <;> simp only [Gate.enterGate,futexWait] <;>
      (repeat' split) <;> exact h
  case leave =>
    subst he
    cases k <;> cases pc <;> simp only [Gate.leaveGate] <;> (repeat' split) <;> exact h
  case addReader =>
    subst he
    exact A.acquireRead b d h (hinv (by simp [Thread.mode]) (.inl rfl))
  case clearReaders => subst he; exact h.1
  case dropOwn => subst he; exact h
  case wakeWriter => subst he; cases k <;> exact h
  case drop =>
    cases k
    all_goals
      simp only [List.mem_singleton,subFetch] at he
      subst he
      simp only [Effect.pc] at hq ⊢
    · split
      · split
        · exact h
        · rename_i h1 h2
          simp [h1,h2] at hq
      · exact h
    · split <;> exact h
  case tryEnter =>
    subst he
    simp only [Gate.tryEnterGate,Effect.pc]
    split
    · exact h
    · exact A.refused b d h
  case announce =>
    subst he
    simp only [subFetch,Effect.pc] at hinv ⊢
    split
    · cases k <;> exact h
    · rename_i h0
      rw [if_neg h0] at hinv
      cases k
      · exact A.acquireWrite b d h (hinv (by simp [Thread.mode]) (.inr rfl))
      · exact A.upgraded b d h (hinv (by simp [Thread.mode]) (.inr rfl))
      · exact A.acquireWrite b d h (hinv (by simp [Thread.mode]) (.inr rfl))
  case drainWait =>
    subst he
    simp only [futexWait]
    split <;> cases k <;> exact h
  case drainLoad =>
    subst he
    simp only [Effect.pc] at hinv ⊢
    split
    · cases k <;> exact h
    · rename_i h0
      rw [if_neg h0] at hinv
      cases k
      · exact A.acquireWrite b d h (hinv (by simp [Thread.mode]) (.inr rfl))
      · exact A.upgraded b d h (hinv (by simp [Thread.mode]) (.inr rfl))
      · exact A.acquireWrite b d h (hinv (by simp [Thread.mode]) (.inr rfl))

theorem mode_write_of_call {p : Thread} (hb : between p = false) (hp : p.mode = .write) :
    p = .clearReaders := by
  rcases p with _ | _ | _ | _ | _ | ⟨_ | _,_⟩ | _ | _ | _ | _ | ⟨_ | _ | _⟩ | ⟨_ | _ | _,_⟩ |
    ⟨_ | _ | _⟩ | _ | _ <;> simp_all [Thread.mode,between]

section System

variable {T : Type} [DecidableEq T] [Fintype T]

abbrev ClientConf (T D B : Type) := Conf T (Mem × D) Word (Thread × B)

/-- Any threads that follow `C`, with the data `d` and the locals `b` at the start. -/
def clientSystem (w : IntWord (Fintype.card T)) (C : Client D B) (d : D) (b : B) :
    System (ClientConf T D B) (Label T) := machine (next w C) (⟨0,0⟩,d) (.outside,b)

/-- The control without its clients. -/
def control (c : ClientConf T D B) : RwConf T := project Prod.fst some Prod.fst c

/-- The threads use the control as its sections ask for, and all assertions hold. -/
structure Sound {C : Client D B} (A : Outline C) (w : IntWord (Fintype.card T))
    (c : ClientConf T D B) : Prop where
  bracketed : (rwSystem w).Reachable (control c)
  holds : ∀ t, A.holds (c.pc t).1 (c.pc t).2 c.mem.2
  inv : (∀ t, (c.pc t).1.mode ≠ .write) → A.inv c.mem.2

variable {w : IntWord (Fintype.card T)} {C : Client D B} {A : Outline C}

theorem Sound.maps {c : ClientConf T D B} (hi : Sound A w c) (t : T)
    (e : Effect (Mem × D) Word (Thread × B)) (he : e ∈ next w C (c.pc t) c.mem) :
    EffectMaps (RwControl.next w) Prod.fst some Prod.fst c.mem (c.pc t) e := by
  rcases next_cases (p:=(c.pc t).1) (b:=(c.pc t).2) he with ⟨hb,a,ha,rfl⟩ | ⟨-,e₀,he₀,rfl⟩
  · exact (A.allows _ _ _ a hb (hi.holds t) ha).maps
  · exact lift_maps he₀

theorem Sound.step {c c' : ClientConf T D B} {l : Label T} (hi : Sound A w c)
    (h : fire (next w C) c l = some c') : Sound A w c' := by
  have hr' : (rwSystem w).Reachable (control c') := by
    have hsome (a b a' : Word) (ha : some a = some a') (hb : some b = some a') : a = b :=
      Option.some.inj (ha.trans hb.symm)
    have hp := project_step Prod.fst some Prod.fst hsome hi.maps (fire_step h)
    rcases hp with he | hs
    · rw [show control c' = control c from he]; exact hi.bracketed
    · obtain ⟨l',hl⟩ := step_fire hs
      exact hi.bracketed.step hl
  cases l with
  | spurious t =>
    obtain ⟨-,hm,hp⟩ := fire_spurious h
    exact ⟨hr',by rw [hm,hp]; exact hi.holds,by rw [hm,hp]; exact hi.inv⟩
  | run t choice woken =>
    obtain ⟨e,he,hm,hp⟩ := fire_run h
    have ht := hi.holds t
    have hother : ∀ u, u ≠ t → c'.pc u = c.pc u := fun u hu => by rw [hp,Function.update_of_ne hu]
    have hself : c'.pc t = e.pc := by rw [hp,Function.update_self]
    have hmode : ∀ u, ((control c').pc u) = (c'.pc u).1 := fun _ => rfl
    have halive := (reachable_inv hr').alive t
    rw [hmode,hself] at halive
    have hwas : ∀ u, (c.pc u).1.mode = .write → u ≠ t → (c'.pc u).1.mode = .write :=
      fun u hu hut => by rw [hother u hut]; exact hu
    rcases next_cases (p:=(c.pc t).1) (b:=(c.pc t).2) (List.mem_of_getElem? he) with
      ⟨hb,a,ha,rfl⟩ | ⟨hb,e₀,he₀,rfl⟩
    · have hal := A.allows _ _ _ a hb ht ha
      refine ⟨hr',fun u => ?_,fun hn => ?_⟩
      · by_cases hut : u = t
        · subst hut
          rw [hself,hm]
          exact hal.holds
        · rw [hother u hut,hm]
          rcases hal.data with ⟨hw,-⟩ | ⟨hd,-⟩
          · have hnone := mode_of_drained hi.bracketed hut (Thread.drained_of_mode hw)
            exact Assertions.holds_of_mode hnone (hi.holds u)
          · rw [hd]; exact hi.holds u
      · rcases hal.data with ⟨-,hw⟩ | ⟨hd,hw,-⟩
        · exact absurd (by rw [hself]; exact hw) (hn t)
        · rw [hm,hd]
          refine hi.inv fun u hu => ?_
          by_cases hut : u = t
          · subst hut; exact hw hu
          · exact hn u (hwas u hu hut)
    · simp only [lift_pc] at hself halive
      simp only [lift_mem] at hm
      have hinv : (c.pc t).1.mode ≠ .write → (c.pc t).1 = .addReader ∨ e₀.pc.drained →
          A.inv c.mem.2 := by
        refine fun hnw hwhen => hi.inv fun u hu => ?_
        have hut : u ≠ t := by rintro rfl; exact hnw hu
        rcases hwhen with ha | hd
        · have ho := Thread.owns_of_announced
            (Thread.announced_of_drained (Thread.drained_of_mode hu))
          exact hut (owner_unique hi.bracketed ho (by
            change (c.pc t).1.phase.owns
            rw [ha]; rfl))
        · have hnone := mode_of_drained hr' hut (by rw [hmode,hself]; exact hd)
          rw [hmode,hother u hut,hu] at hnone
          cases hnone
      refine ⟨hr',fun u => ?_,fun hn => ?_⟩
      · by_cases hut : u = t
        · subst hut
          rw [hself,hm]
          exact A.holds_lock he₀ hb halive ht hinv
        · rw [hother u hut,hm]; exact hi.holds u
      · rw [hm]
        by_cases hw : (c.pc t).1.mode = .write
        · rw [mode_write_of_call hb hw] at ht
          exact ht.2
        · refine hi.inv fun u hu => ?_
          by_cases hut : u = t
          · subst hut; exact hw hu
          · exact hn u (hwas u hu hut)

/-- The assertions of an outline hold in every interleaving of its clients. -/
theorem Outline.sound (A : Outline C) {d : D} {b : B} (hd : A.inv d) (hb : A.out b)
    {c : ClientConf T D B} (hr : (clientSystem w C d b).Reachable c) : Sound A w c := by
  refine hr.invariant (fun c hc => ?_) fun c l c' _ hi hf => hi.step hf
  obtain rfl := hc
  exact ⟨.init rfl,fun _ => hb,fun _ => hd⟩

/-- A thread that sleeps is not the only one left: another one can go on, if the client has an
action at every point of its sections. -/
theorem Sound.progress {c : ClientConf T D B} (hi : Sound A w c)
    (hlive : ∀ p b d, between p → p ≠ .outside → A.holds p b d → C p b d ≠ []) {t : T}
    (ht : c.asleep t ≠ none) : ∃ u, u ≠ t ∧ c.asleep u = none ∧
      ∃ woken c', fire (next w C) c (.run u 0 woken) = some c' := by
  have hasleep : ∀ u, (control c).asleep u = c.asleep u := fun u => by simp [control,project]
  obtain ⟨u,hu,hout⟩ : ∃ u, (control c).asleep u = none ∧ (control c).pc u ≠ .outside := by
    cases ha : c.asleep t with
    | none => exact absurd ha ht
    | some a =>
      cases a with
      | gate => exact gate_progress hi.bracketed ((hasleep t).trans ha)
      | nreaders => exact draining_progress hi.bracketed ((hasleep t).trans ha)
  rw [hasleep] at hu
  refine ⟨u,by rintro rfl; exact ht hu,hu,awake_fires hu ?_⟩
  have halive := (reachable_inv hi.bracketed).alive u
  change (c.pc u).1 ≠ .outside at hout
  change (c.pc u).1 ≠ .aborted at halive
  simp only [next]
  split
  · rename_i hb
    simpa using hlive _ _ _ hb hout (hi.holds u)
  · simpa using next_ne_nil w halive c.mem.1

end System

end RwClient
end Benedias
