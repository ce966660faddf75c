import Benedias.AtomicObject
import Benedias.RwExclusion

/-! The reader/writer lock that `futex_rw_control` is meant to be, as an atomic object: who holds
it for reading and who for writing. Every history of calls and returns of the control is a
history of that object. -/
namespace Benedias
namespace RwControl

open Interleaving FutexMachine Gate AtomicObject

/-- How a thread holds the lock. -/
inductive Mode
  | none | read | write
  deriving DecidableEq

inductive Op
  | readLock | readUnlock | writeLock | writeUnlock | tryWriteModify | writeModify
  deriving DecidableEq

/-- What a call returns. -/
inductive Result
  | void | upgraded (b : Bool)
  deriving DecidableEq

abbrev ObjectConf (T : Type) := AtomicObject.Conf T (T → Mode) Op Result

abbrev Progress := Status Op Result

section Object

variable {T : Type} [DecidableEq T] [Fintype T]

/-- Readers share, a writer is alone. `try_write_modify` turns a read hold into a write hold in
one step, or is refused while another thread is inside a call or writes; `write_modify` lets go
and goes on as `write_lock`. -/
def act (c : ObjectConf T) (t : T) : Op → List ((T → Mode) × (Op ⊕ Result))
  | .readLock =>
    if ∀ u, c.state u ≠ .write then [(Function.update c.state t .read,.inr .void)] else []
  | .readUnlock => [(Function.update c.state t .none,.inr .void)]
  | .writeLock =>
    if ∀ u, c.state u = .none then [(Function.update c.state t .write,.inr .void)] else []
  | .writeUnlock => [(Function.update c.state t .none,.inr .void)]
  | .tryWriteModify =>
    (if ∀ u, u ≠ t → c.state u = .none then
      [(Function.update c.state t .write,.inr (.upgraded true))] else []) ++
    if ∃ u, u ≠ t ∧ (c.status u ≠ .idle ∨ c.state u = .write) then
      [(c.state,.inr (.upgraded false))] else []
  | .writeModify => [(Function.update c.state t .none,.inl .writeLock)]

def rwObject (T : Type) [DecidableEq T] [Fintype T] : Spec T (T → Mode) Op Result where
  init := fun _ => .none
  act := act

theorem mem_readLock {c : ObjectConf T} {t : T} (h : ∀ u, c.state u ≠ .write) :
    (Function.update c.state t .read,.inr .void) ∈ (rwObject T).act c t .readLock := by
  simp [rwObject,act,h]

theorem mem_writeLock {c : ObjectConf T} {t : T} (h : ∀ u, c.state u = .none) :
    (Function.update c.state t .write,.inr .void) ∈ (rwObject T).act c t .writeLock := by
  simp [rwObject,act,h]

theorem mem_upgrade {c : ObjectConf T} {t : T} (h : ∀ u, u ≠ t → c.state u = .none) :
    (Function.update c.state t .write,.inr (.upgraded true)) ∈
      (rwObject T).act c t .tryWriteModify := by
  simp only [rwObject,act,if_pos h]
  exact List.mem_append_left _ (List.mem_singleton.mpr rfl)

theorem mem_refuse {c : ObjectConf T} {t : T}
    (h : ∃ u, u ≠ t ∧ (c.status u ≠ .idle ∨ c.state u = .write)) :
    (c.state,.inr (.upgraded false)) ∈ (rwObject T).act c t .tryWriteModify := by
  simp only [rwObject,act,if_pos h]
  exact List.mem_append_right _ (List.mem_singleton.mpr rfl)

/-- Whoever holds the lock for writing is alone. -/
def Exclusive (m : T → Mode) : Prop := ∀ t u, m t = .write → u ≠ t → m u = .none

omit [Fintype T] in
theorem Exclusive.update_none {m : T → Mode} (h : Exclusive m) (t : T) :
    Exclusive (Function.update m t .none) := by
  intro v u hv hu
  by_cases hvt : v = t
  · subst hvt; simp at hv
  · by_cases hut : u = t
    · subst hut; simp
    · simpa [hut] using h v u (by simpa [hvt] using hv) hu

omit [Fintype T] in
theorem Exclusive.update_read {m : T → Mode} (h : ∀ u, m u ≠ .write) (t : T) :
    Exclusive (Function.update m t .read) := by
  intro v u hv hu
  by_cases hvt : v = t
  · subst hvt; simp at hv
  · exact absurd (by simpa [hvt] using hv) (h v)

omit [Fintype T] in
theorem Exclusive.update_write {m : T → Mode} {t : T} (h : ∀ u, u ≠ t → m u = .none) :
    Exclusive (Function.update m t .write) := by
  intro v u hv hu
  by_cases hvt : v = t
  · subst hvt; simpa [hu] using h u hu
  · have := h v hvt
    simp_all

theorem act_exclusive {c : ObjectConf T} {t : T} {o : Op} {m : T → Mode} {x : Op ⊕ Result}
    (h : Exclusive c.state) (hx : (m,x) ∈ act c t o) : Exclusive m := by
  cases o with
  | readLock =>
    simp only [act] at hx
    split at hx
    · rename_i hn
      obtain ⟨rfl,-⟩ : _ = _ ∧ _ := by simpa using hx
      exact .update_read hn t
    · simp at hx
  | writeLock =>
    simp only [act] at hx
    split at hx
    · rename_i hn
      obtain ⟨rfl,-⟩ : _ = _ ∧ _ := by simpa using hx
      exact .update_write fun u _ => hn u
    · simp at hx
  | tryWriteModify =>
    simp only [act,List.mem_append] at hx
    rcases hx with hx | hx
    · split at hx
      · rename_i hn
        obtain ⟨rfl,-⟩ : _ = _ ∧ _ := by simpa using hx
        exact .update_write hn
      · simp at hx
    · split at hx
      · obtain ⟨rfl,-⟩ : _ = _ ∧ _ := by simpa using hx
        exact h
      · simp at hx
  | readUnlock | writeUnlock | writeModify =>
    obtain ⟨rfl,-⟩ : _ = _ ∧ _ := by simpa [act] using hx
    exact h.update_none t

theorem object_exclusive {c : ObjectConf T} (hr : (rwObject T).system.Reachable c) :
    Exclusive c.state :=
  Spec.invariant (N:=rwObject T) (I:=Exclusive) (fun _ _ h => by simp [rwObject] at h)
    (fun _ _ _ _ _ h hx => act_exclusive h hx) hr

end Object

/-! The control, seen as the object. -/

/-- How a thread holds the lock: a reader from its increment to its decrement, an upgraded one
until it has drained the others; a writer from then to its store of 0. -/
def Thread.mode : Thread → Mode
  | .reading | .leave .readLock _ | .drop _ | .tryEnter | .dropOwn | .announce .tryWriteModify
  | .drainWait .tryWriteModify _ | .drainLoad .tryWriteModify => .read
  | .writing _ | .clearReaders => .write
  | _ => .none

/-- The call that a thread is in, and whether it has taken effect. -/
def Thread.status : Thread → Progress
  | .outside | .reading | .writing _ | .aborted => .idle
  | .enter .readLock _ | .addReader => .pending .readLock
  | .leave .readLock _ | .wakeWriter .readUnlock | .leave .writeUnlock _ => .done .void
  | .drop .readUnlock => .pending .readUnlock
  | .clearReaders => .pending .writeUnlock
  | .tryEnter | .dropOwn | .announce .tryWriteModify | .drainWait .tryWriteModify _
  | .drainLoad .tryWriteModify => .pending .tryWriteModify
  | .drop .writeModify => .pending .writeModify
  | .wakeWriter .writeModify | .enter _ _ | .announce _ | .drainWait _ _ | .drainLoad _ =>
    .pending .writeLock

/-- What the step of thread `t` from `p` to `q` shows: that it calls or that it returns. -/
def event {T : Type} (t : T) (p q : Thread) : Option (Event T Op Result) :=
  match p.status, q.status with
  | .idle, .pending o => some (.call t o)
  | .pending .tryWriteModify, .idle => some (.ret t (.upgraded (q = .writing .tryWriteModify)))
  | .pending _, .idle | .done _, .idle => some (.ret t .void)
  | _, _ => none

variable {T : Type}

theorem event_same {t : T} {p q : Thread} (h : q.status = p.status) : event t p q = none := by
  simp only [event,h]
  cases p.status <;> simp

theorem event_call {t : T} {p q : Thread} {o : Op} (hp : p.status = .idle)
    (hq : q.status = .pending o) : event t p q = some (.call t o) := by
  simp only [event,hp,hq]

theorem event_ret {t : T} {p q : Thread} (hp : p.status = .done .void) (hq : q.status = .idle) :
    event t p q = some (.ret t .void) := by
  simp only [event,hp,hq]

theorem event_acquire {t : T} {p q : Thread} (hp : p.status = .pending .writeLock)
    (hq : q.status = .idle) : event t p q = some (.ret t .void) := by
  simp only [event,hp,hq]

theorem event_upgrade {t : T} {p q : Thread} (hp : p.status = .pending .tryWriteModify)
    (hq : q.status = .idle) :
    event t p q = some (.ret t (.upgraded (q = .writing .tryWriteModify))) := by
  simp only [event,hp,hq]

theorem event_pending {t : T} {p q : Thread} {o o' : Op} (hp : p.status = .pending o)
    (hq : q.status = .pending o') : event t p q = none := by
  cases o <;> simp only [event,hp,hq]

def history {n : ℕ} (w : IntWord n) (c : RwConf T) : Label T → Option (Event T Op Result)
  | .run t choice _ => (next w (c.pc t) c.mem)[choice]?.bind fun e => event t (c.pc t) e.pc
  | .spurious _ => none

def abstraction (c : RwConf T) : ObjectConf T := ⟨fun t => (c.pc t).mode,fun t => (c.pc t).status⟩

/-- The steps of a thread, by what they do to the object. -/
inductive Shift (m : Mem) : Thread → Thread → Prop
  | hidden {p q : Thread} (hm : q.mode = p.mode) (hs : q.status = p.status) : Shift m p q
  | call {p q : Thread} {o : Op} (hp : p.status = .idle) (hq : q.status = .pending o)
      (hm : q.mode = p.mode) : Shift m p q
  | ret {p q : Thread} (hp : p.status = .done .void) (hq : q.status = .idle)
      (hm : q.mode = p.mode) : Shift m p q
  | addReader : Shift m .addReader (.leave .readLock .sub)
  | dropLast : Shift m (.drop .readUnlock) (.wakeWriter .readUnlock)
  | drop : Shift m (.drop .readUnlock) .outside
  | dropModify {q : Thread} (hm : q.mode = .none) (hs : q.status = .pending .writeLock) :
      Shift m (.drop .writeModify) q
  | acquire {p : Thread} {k : Writer} (hm : p.mode = .none) (hs : p.status = .pending .writeLock) :
      Shift m p (.writing k)
  | upgrade {p : Thread} (hs : p.status = .pending .tryWriteModify) :
      Shift m p (.writing .tryWriteModify)
  | refuse (hg : m.gate ≠ 0) : Shift m .tryEnter .reading
  | clear : Shift m .clearReaders (.leave .writeUnlock .sub)
  | abort {p : Thread} : Shift m p .aborted

theorem next_shift {n : ℕ} {w : IntWord n} {m : Mem} {p : Thread} {e : Effect Mem Word Thread}
    (h : e ∈ next w p m) : Shift m p e.pc := by
  rcases p with _ | _ | _ | ⟨k,pc⟩ | _ | ⟨k,pc⟩ | k | k | _ | _ | k | ⟨k,v⟩ | k | _ | _
  case outside =>
    simp only [next,List.mem_cons,List.not_mem_nil,or_false] at h
    rcases h with rfl | rfl <;> exact .call rfl rfl rfl
  case reading =>
    simp only [next,List.mem_cons,List.not_mem_nil,or_false] at h
    rcases h with rfl | rfl | rfl <;> exact .call rfl rfl rfl
  case aborted => simp [next] at h
  all_goals simp only [next,List.mem_singleton] at h
  case writing => subst h; exact .call rfl rfl rfl
  case enter =>
    subst h
    cases k <;> rcases pc with _ | x | _ | _ <;> simp only [enterGate,futexWait] <;>
      (repeat' split) <;> exact .hidden rfl rfl
  case leave =>
    subst h
    cases k <;> cases pc <;> simp only [leaveGate] <;> (repeat' split) <;>
      first | exact .hidden rfl rfl | exact .ret rfl rfl rfl
  case addReader => subst h; exact .addReader
  case clearReaders => subst h; exact .clear
  case dropOwn => subst h; exact .hidden rfl rfl
  case wakeWriter =>
    subst h
    cases k
    · exact .ret rfl rfl rfl
    · exact .hidden rfl rfl
  case drop =>
    cases k
    all_goals
      simp only [List.mem_singleton,subFetch] at h
      subst h
      simp only [Effect.pc]
    · split
      · split
        · exact .dropLast
        · exact .abort
      · exact .drop
    · split <;> exact .dropModify rfl rfl
  case tryEnter =>
    subst h
    simp only [tryEnterGate,Effect.pc]
    split
    · exact .hidden rfl rfl
    · exact .refuse ‹_›
  case announce =>
    subst h
    simp only [subFetch,Effect.pc]
    split
    · cases k <;> exact .hidden rfl rfl
    · cases k
      · exact .acquire rfl rfl
      · exact .upgrade rfl
      · exact .acquire rfl rfl
  case drainWait =>
    subst h
    simp only [futexWait]
    split <;> cases k <;> exact .hidden rfl rfl
  case drainLoad =>
    subst h
    simp only [Effect.pc]
    split
    · cases k <;> exact .hidden rfl rfl
    · cases k
      · exact .acquire rfl rfl
      · exact .upgrade rfl
      · exact .acquire rfl rfl

theorem Thread.drained_of_mode {l : Thread} (h : l.mode = .write) : l.drained := by
  rcases l with _ | _ | _ | _ | _ | ⟨_ | _,_⟩ | _ | _ | _ | _ | ⟨_ | _ | _⟩ | ⟨_ | _ | _,_⟩ |
    ⟨_ | _ | _⟩ | _ | _ <;> simp_all [Thread.mode,Thread.drained]

/-- A read hold is counted, or belongs to a thread behind the gate. -/
theorem Thread.mode_cases (l : Thread) : l.mode = .none ∨ l.counted ∨ l.phase.owns := by
  rcases l with _ | _ | _ | _ | _ | ⟨_ | _,_⟩ | _ | _ | _ | _ | ⟨_ | _ | _⟩ | ⟨_ | _ | _,_⟩ |
    ⟨_ | _ | _⟩ | _ | _ <;> simp [Thread.mode,Thread.counted,Thread.phase,Phase.owns]

theorem Thread.busy_of_owns {l : Thread} (h : l.phase.owns) : l.status ≠ .idle ∨ l.mode = .write := by
  rcases l with _ | _ | _ | ⟨_ | _ | _,_⟩ | _ | ⟨_ | _,_⟩ | ⟨_ | _⟩ | ⟨_ | _⟩ | _ | _ | ⟨_ | _ | _⟩ |
    ⟨_ | _ | _,_⟩ | ⟨_ | _ | _⟩ | _ | _ <;>
    simp_all [Thread.mode,Thread.status,Thread.phase,Phase.owns]

variable [DecidableEq T] [Fintype T] {w : IntWord (Fintype.card T)}

/-- Beside a writer that has drained the readers nobody holds the lock. -/
theorem mode_of_drained {c : RwConf T} (hr : (rwSystem w).Reachable c) {t u : T} (hut : u ≠ t)
    (ht : (c.pc t).drained) : (c.pc u).mode = .none := by
  rcases (c.pc u).mode_cases with h | h | h
  · exact h
  · have h0 := (reachable_inv hr).alone t ht
    have h1 := one_le_readers h
    omega
  · exact absurd (owner_unique hr h (Thread.owns_of_announced (Thread.announced_of_drained ht))) hut

omit [Fintype T] in
theorem abstraction_update {c c' : RwConf T} {t : T} {q : Thread}
    (h : c'.pc = Function.update c.pc t q) :
    abstraction c' = ⟨Function.update (abstraction c).state t q.mode,
      Function.update (abstraction c).status t q.status⟩ := by
  simp only [abstraction,h,AtomicObject.Conf.mk.injEq]
  constructor <;> funext u <;> by_cases hut : u = t <;> simp [Function.update,hut]

/-- A step of the control shows what the object shows in some steps of its own. -/
theorem abstraction_step {c c' : RwConf T} {b : Label T} (hr : (rwSystem w).Reachable c)
    (h : (rwSystem w).fire c b = some c') :
    (rwObject T).Shows (abstraction c) (abstraction c') (history w c b).toList := by
  have hr' := hr.step h
  have hf : fire (next w) c b = some c' := h
  cases b with
  | spurious t =>
    obtain ⟨-,-,hp⟩ := fire_spurious hf
    rw [show abstraction c' = abstraction c by simp [abstraction,hp]]
    exact .refl _
  | run t choice woken =>
    obtain ⟨e,he,-,hp⟩ := fire_run hf
    have hshift := next_shift (List.mem_of_getElem? he)
    have hpc : c'.pc t = e.pc := by simp [hp]
    have hstate : (abstraction c).state t = (c.pc t).mode := rfl
    have hstatus : (abstraction c).status t = (c.pc t).status := rfl
    have halive := (reachable_inv hr').alive t
    simp only [history,he,Option.bind_some]
    rw [abstraction_update hp]
    have hread : c.pc t = .addReader → ∀ u, (abstraction c).state u ≠ .write := fun ha u hu => by
      have ho := Thread.owns_of_announced (Thread.announced_of_drained (Thread.drained_of_mode hu))
      obtain rfl := owner_unique hr ho (u:=t) (by rw [ha]; rfl)
      have hm : (c.pc u).mode = .write := hu
      simp [ha,Thread.mode] at hm
    have halone : e.pc.drained → ∀ u, u ≠ t → (abstraction c).state u = .none := fun hd u hu => by
      have := mode_of_drained hr' hu (by rw [hpc]; exact hd)
      rwa [hp,Function.update_of_ne hu] at this
    have hbusy : c.pc t = .tryEnter → c.mem.gate ≠ 0 → ∃ u, u ≠ t ∧
        ((abstraction c).status u ≠ .idle ∨ (abstraction c).state u = .write) := fun ht hg => by
      obtain ⟨u,hu⟩ := (gate_inv hr).held hg
      change (c.pc u).phase.owns at hu
      exact ⟨u,by rintro rfl; simp [ht,Thread.phase,Phase.owns] at hu,Thread.busy_of_owns hu⟩
    rw [hpc] at halive
    generalize c.pc t = p at *
    generalize e.pc = q at *
    cases hshift with
    | hidden hm hs =>
      rw [hm,hs,← hstate,← hstatus,Function.update_eq_self,Function.update_eq_self,event_same hs]
      exact .refl _
    | @call _ _ o ho hq hm =>
      rw [hm,← hstate,Function.update_eq_self,hq,event_call ho hq]
      exact Spec.shows_call o (hstatus.trans ho)
    | ret ho hq hm =>
      rw [hm,← hstate,Function.update_eq_self,hq,event_ret ho hq]
      exact Spec.shows_ret (hstatus.trans ho)
    | addReader => exact Spec.shows_act hstatus (mem_readLock (hread rfl))
    | dropLast => exact Spec.shows_act (N:=rwObject T) hstatus (List.mem_singleton.mpr rfl)
    | drop => exact Spec.shows_act_ret (N:=rwObject T) hstatus (List.mem_singleton.mpr rfl)
    | dropModify hm hs =>
      rw [event_pending (p:=.drop .writeModify) rfl hs,hm,hs]
      exact Spec.shows_act (N:=rwObject T) hstatus (List.mem_singleton.mpr rfl)
    | @acquire _ k hm hs =>
      rw [event_acquire hs (q:=.writing k) rfl]
      refine Spec.shows_act_ret (hstatus.trans hs) (mem_writeLock fun u => ?_)
      by_cases hut : u = t
      · subst hut; exact hstate.trans hm
      · exact halone rfl u hut
    | upgrade hs =>
      rw [event_upgrade hs (q:=.writing .tryWriteModify) rfl]
      exact Spec.shows_act_ret (hstatus.trans hs) (mem_upgrade (halone rfl))
    | refuse hg =>
      rw [event_upgrade (p:=.tryEnter) (q:=.reading) rfl rfl,
        show Thread.reading.mode = Thread.tryEnter.mode from rfl,← hstate,Function.update_eq_self]
      exact Spec.shows_act_ret hstatus (mem_refuse (hbusy rfl hg))
    | clear => exact Spec.shows_act (N:=rwObject T) hstatus (List.mem_singleton.mpr rfl)
    | abort => exact absurd rfl halive

/-- The control as a linearizable reader/writer lock. -/
def linearization (w : IntWord (Fintype.card T)) :
    Linearization (rwSystem w) (history w) (rwObject T) where
  abs := abstraction
  init := by rintro c rfl; rfl
  step _ _ _ hr hf := abstraction_step hr hf

/-- Whatever the threads do, their calls and returns are those of a run of the reader/writer lock
in which every call takes effect at one moment between its call and its return, `write_modify` in
two; it ends with everybody holding the lock as the program points say. -/
theorem linearizable (w : IntWord (Fintype.card T)) {as : List (Label T)} {c : RwConf T}
    (h : (rwSystem w).exec (start ⟨0,0⟩ .outside) as = some c) :
    (∃ bs, (rwObject T).system.exec (rwObject T).start bs = some (abstraction c) ∧
      (rwObject T).system.trace seen (rwObject T).start bs =
        (rwSystem w).trace (history w) (start ⟨0,0⟩ .outside) as) ∧
      Exclusive fun t => (c.pc t).mode := by
  have h0 : (rwSystem w).Reachable (start ⟨0,0⟩ .outside) := .init rfl
  exact ⟨(linearization w).history h0 h,
    object_exclusive ((linearization w).reachable (h0.exec h))⟩

def upgradedConf : RwConf Party :=
  ((rwSystem partyWord).exec (start ⟨0,0⟩ .outside) upgradeSchedule).getD (start ⟨0,0⟩ .outside)

theorem linearizable_upgradedConf :
    (rwSystem partyWord).trace (history partyWord) (start ⟨0,0⟩ .outside) upgradeSchedule =
      [.call 0 .readLock,.ret 0 .void,.call 0 .tryWriteModify,.ret 0 (.upgraded true),
        .call 1 .writeLock] ∧
    ((∃ bs, (rwObject Party).system.exec (rwObject Party).start bs =
        some (abstraction upgradedConf) ∧
      (rwObject Party).system.trace seen (rwObject Party).start bs =
        (rwSystem partyWord).trace (history partyWord) (start ⟨0,0⟩ .outside) upgradeSchedule) ∧
      Exclusive fun t => (upgradedConf.pc t).mode) :=
  ⟨by decide,linearizable partyWord rfl⟩

end RwControl
end Benedias
