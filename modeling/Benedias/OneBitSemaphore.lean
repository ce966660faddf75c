import Benedias.AtomicObject
import Benedias.BinarySemaphore

/-! The abstract one-bit semaphore, an atomic object, and `binary_semaphore` as a refinement of it:
the same calls and returns, every operation one effect, every token accounted for. -/
namespace Benedias
namespace OneBitSemaphore

open AtomicObject BinarySemaphore

inductive Op
  | post | wait | tryWait
  deriving DecidableEq

/-- The effect of an operation on the bit and its result, when it can take effect. -/
def Op.act : Op → Bool → Option (Bool × Result)
  | .post, _ => some (true,.post)
  | .wait, bit => if bit then some (false,.wait) else none
  | .tryWait, bit => some (false,.tryWait bit)

def oneBit (T : Type) (initialState : Bool) : Spec T Bool Op Result where
  init := initialState
  act c _ o := (o.act c.state).toList.map fun r => (r.1,.inr r.2)

variable {T : Type} {initialState : Bool}

theorem mem_act {c : AtomicObject.Conf T Bool Op Result} {t : T} {o : Op} {bit : Bool} {r : Result}
    (h : o.act c.state = some (bit,r)) : (bit,.inr r) ∈ (oneBit T initialState).act c t o := by
  simp [oneBit,h]

theorem oneBit_once : (oneBit T initialState).Once := by
  intro c t o s x hx
  obtain ⟨r,-,he⟩ := List.mem_map.mp hx
  exact ⟨r.2,(Prod.ext_iff.mp he).2.symm⟩

end OneBitSemaphore

namespace BinarySemaphore

open Interleaving FutexMachine AtomicObject OneBitSemaphore

/-- A post has taken effect when its compare-exchange is done, also one that found the gate
set. -/
def Thread.status : Thread → Status Op Result
  | .idle => .idle
  | .posting .exchange => .pending .post
  | .posting .wake => .done .post
  | .waiting _ => .pending .wait
  | .trying => .pending .tryWait
  | .returning r => .done r

def callOf : ℕ → Op
  | 0 => .post
  | 1 => .wait
  | _ => .tryWait

variable {T : Type} [DecidableEq T]

def history (c : SemConf T) : Label T → Option (Event T Op Result)
  | .run t choice _ =>
    match c.pc t with
    | .idle => some (.call t (callOf choice))
    | .returning r => some (.ret t r)
    | _ => none
  | .spurious _ => none

def abstraction (c : SemConf T) : AtomicObject.Conf T Bool Op Result :=
  ⟨c.mem = 1,fun t => (c.pc t).status⟩

/-- How a step of a thread looks to the abstract semaphore. -/
inductive Shift (g g' : ℤ) (choice : ℕ) : Thread → Thread → Prop
  | hidden {p q : Thread} (hg : g' = g) (hp : q.status = p.status) (hi : p ≠ .idle)
      (hr : ∀ r, p ≠ .returning r) : Shift g g' choice p q
  | call {q : Thread} (hg : g' = g) (hq : q.status = .pending (callOf choice)) :
      Shift g g' choice .idle q
  | act {p q : Thread} {o : Op} {r : Result} (hp : p.status = .pending o)
      (ho : o.act (g = 1) = some (decide (g' = 1),r)) (hq : q.status = .done r) :
      Shift g g' choice p q
  | ret {r : Result} (hg : g' = g) : Shift g g' choice (.returning r) .idle

theorem next_shift {g : ℤ} (hg : g = 0 ∨ g = 1) {p : Thread} {choice : ℕ}
    {e : Effect ℤ Unit Thread} (h : (next p g)[choice]? = some e) :
    Shift g (e.mem g) choice p e.pc := by
  rcases p with _ | (_ | _) | (_ | _) | _ | r
  case idle =>
    rcases choice with _ | _ | _ | k
    · obtain rfl := Option.some.inj h; exact .call rfl rfl
    · obtain rfl := Option.some.inj h; exact .call rfl rfl
    · obtain rfl := Option.some.inj h; exact .call rfl rfl
    · simp [next] at h
  all_goals
    rcases choice with _ | k
    case succ => simp [next] at h
    obtain rfl := Option.some.inj h
  case posting.exchange =>
    rcases hg with rfl | rfl
    · exact .act (o:=.post) rfl rfl rfl
    · exact .act (o:=.post) rfl rfl rfl
  case posting.wake => exact .hidden rfl rfl (by simp) (by simp)
  case waiting.exchange =>
    rcases hg with rfl | rfl
    · exact .hidden rfl rfl (by simp) (by simp)
    · exact .act (o:=.wait) rfl rfl rfl
  case waiting.sleep =>
    rcases hg with rfl | rfl <;> exact .hidden rfl rfl (by simp) (by simp)
  case trying =>
    rcases hg with rfl | rfl
    · exact .act (o:=.tryWait) rfl rfl rfl
    · exact .act (o:=.tryWait) rfl rfl rfl
  case returning => exact .ret rfl

theorem abstraction_update {c c' : SemConf T} {t : T} {q : Thread}
    (h : c'.pc = Function.update c.pc t q) :
    abstraction c' = ⟨c'.mem = 1,Function.update (abstraction c).status t q.status⟩ := by
  simp only [abstraction,AtomicObject.Conf.mk.injEq,true_and]
  funext u
  by_cases hut : u = t
  · subst hut; simp [h]
  · simp [h,hut]

variable [Fintype T]

/-- A step of `binary_semaphore` shows what one step of the one bit shows, or none. -/
theorem abstraction_step {initialState : Bool} {c c' : SemConf T} {b : Label T}
    (hr : (semaphore T initialState).Reachable c)
    (h : FutexMachine.fire next c b = some c') :
    (oneBit T initialState).Shows (abstraction c) (abstraction c') (history c b).toList := by
  cases b with
  | spurious t =>
    obtain ⟨-,hm,hp⟩ := fire_spurious h
    rw [show abstraction c' = abstraction c by simp [abstraction,hm,hp]]
    exact .refl _
  | run t choice woken =>
    obtain ⟨e,he,hm,hp⟩ := fire_run h
    have hs := next_shift (reachable_inv hr).word he
    rw [← hm] at hs
    rw [abstraction_update hp]
    generalize e.pc = q at hs
    generalize hpt : c.pc t = p at hs
    have hstatus : (abstraction c).status t = p.status := by simp [abstraction,hpt]
    cases hs with
    | hidden hg hq hi hr =>
      have hnone : history c (.run t choice woken) = none := by
        simp only [history,hpt]
      rw [hnone,hq,← hstatus,Function.update_eq_self,hg]
      exact .refl _
    | call hg hq =>
      rw [show history c (.run t choice woken) = some (.call t (callOf choice)) by
        simp [history,hpt],hq,hg]
      exact Spec.shows_call _ hstatus
    | @act _ _ o r hp' ho hq =>
      have hnone : history c (.run t choice woken) = none := by
        simp only [history,hpt]
        rcases p with _ | (_ | _) | _ | _ | _ <;> first | rfl | cases hp'
      rw [hnone,hq]
      exact Spec.shows_act (hstatus.trans hp') (mem_act ho)
    | @ret r hg =>
      rw [show history c (.run t choice woken) = some (.ret t r) by simp [history,hpt],hg]
      exact Spec.shows_ret hstatus

def linearization (initialState : Bool) :
    Linearization (semaphore T initialState) history (oneBit T initialState) where
  abs := abstraction
  init := by rintro c rfl; cases initialState <;> rfl
  step _ _ _ hr hf := abstraction_step hr hf

/-! Steps of `binary_semaphore` that count. -/

/-- One for a thread's step from a program point and a gate that meet `P`. -/
def counts (P : T → Thread → ℤ → Bool) (c : SemConf T) : Label T → ℕ
  | .run t _ _ => if P t (c.pc t) c.mem then 1 else 0
  | .spurious _ => 0

/-- A post that finds the gate 0. -/
def effectivePost : SemConf T → Label T → ℕ :=
  counts fun _ p gate => p = .posting .exchange ∧ gate = 0

def waitTaken : SemConf T → Label T → ℕ :=
  counts fun _ p gate => p = .waiting .exchange ∧ gate = 1

def tryTaken : SemConf T → Label T → ℕ :=
  counts fun _ p gate => p = .trying ∧ gate = 1

def taken (c : SemConf T) (b : Label T) : ℕ := waitTaken c b+tryTaken c b

def waitTakenBy (t : T) : SemConf T → Label T → ℕ :=
  counts fun u p gate => u = t ∧ p = .waiting .exchange ∧ gate = 1

def waitReturnedBy (t : T) : SemConf T → Label T → ℕ :=
  counts fun u p _ => u = t ∧ p = .returning .wait

/-- A wait that has its token and has still to return. -/
def Thread.waited : Thread → ℕ
  | .returning .wait => 1
  | _ => 0

theorem next_token {g : ℤ} (hg : g = 0 ∨ g = 1) {p : Thread} {choice : ℕ}
    {e : Effect ℤ Unit Thread} (h : (next p g)[choice]? = some e) :
    g.toNat + (if p = .posting .exchange ∧ g = 0 then 1 else 0) =
        (if p = .waiting .exchange ∧ g = 1 then 1 else 0) +
          (if p = .trying ∧ g = 1 then 1 else 0) + (e.mem g).toNat ∧
      p.waited + (if p = .waiting .exchange ∧ g = 1 then 1 else 0) =
        (if p = .returning .wait then 1 else 0) + e.pc.waited := by
  rcases p with _ | (_ | _) | (_ | _) | _ | r
  case idle =>
    rcases choice with _ | _ | _ | k
    · obtain rfl := Option.some.inj h; simp [Effect.mem,Effect.pc,Thread.waited]
    · obtain rfl := Option.some.inj h; simp [Effect.mem,Effect.pc,Thread.waited]
    · obtain rfl := Option.some.inj h; simp [Effect.mem,Effect.pc,Thread.waited]
    · simp [next] at h
  all_goals
    rcases choice with _ | k
    case succ => simp [next] at h
    obtain rfl := Option.some.inj h
    rcases hg with rfl | rfl
  case returning.zero.inl => cases r <;> simp [Effect.mem,Effect.pc,Thread.waited]
  case returning.zero.inr => cases r <;> simp [Effect.mem,Effect.pc,Thread.waited]
  all_goals exact ⟨rfl,rfl⟩

/-- Every step keeps the tokens: the gate and the posts give, the waits take. -/
theorem step_tokens {initialState : Bool} {c c' : SemConf T} {b : Label T}
    (hr : (semaphore T initialState).Reachable c) (h : FutexMachine.fire next c b = some c') :
    c.mem.toNat + effectivePost c b = taken c b + c'.mem.toNat := by
  have hw := (reachable_inv hr).word
  cases b with
  | spurious t =>
    obtain ⟨-,hm,-⟩ := fire_spurious h
    simp [effectivePost,taken,waitTaken,tryTaken,counts,hm]
  | run t choice woken =>
    obtain ⟨e,he,hm,-⟩ := fire_run h
    simpa [effectivePost,taken,waitTaken,tryTaken,counts,hm] using (next_token hw he).1

/-- Each wait of a thread that returns has taken a token of its own. -/
theorem step_waited {initialState : Bool} {c c' : SemConf T} {b : Label T} (t : T)
    (hr : (semaphore T initialState).Reachable c) (h : FutexMachine.fire next c b = some c') :
    (c.pc t).waited + waitTakenBy t c b = waitReturnedBy t c b + (c'.pc t).waited := by
  cases b with
  | spurious u =>
    obtain ⟨-,-,hp⟩ := fire_spurious h
    simp [waitTakenBy,waitReturnedBy,counts,hp]
  | run u choice woken =>
    obtain ⟨e,he,-,hp⟩ := fire_run h
    by_cases hut : u = t
    · subst hut
      have hn := (next_token (reachable_inv hr).word he).2
      simpa [waitTakenBy,waitReturnedBy,counts,hp] using hn
    · simp [waitTakenBy,waitReturnedBy,counts,hp,hut,Function.update_of_ne (Ne.symm hut)]

/-- What a run of `binary_semaphore` from its construction to `c` is. -/
structure OneBitRun (initialState : Bool) (as : List (Label T)) (c : SemConf T) : Prop where
  word : c.mem = 0 ∨ c.mem = 1
  /-- The calls and returns are those of a run of the abstract semaphore, in which every
  operation has one effect between its call and its return. -/
  refines : ∃ bs, (oneBit T initialState).system.exec (oneBit T initialState).start bs =
      some (abstraction c) ∧
    (oneBit T initialState).system.trace seen (oneBit T initialState).start bs =
      (semaphore T initialState).trace history (start (initial initialState) .idle) as ∧
    ∀ t, (oneBit T initialState).system.tally (calls t) (oneBit T initialState).start bs =
        (oneBit T initialState).system.tally (acts t) (oneBit T initialState).start bs +
          (c.pc t).status.waiting ∧
      (oneBit T initialState).system.tally (acts t) (oneBit T initialState).start bs =
        (oneBit T initialState).system.tally (rets t) (oneBit T initialState).start bs +
          (c.pc t).status.effected
  tokens : (initial initialState).toNat +
      (semaphore T initialState).tally effectivePost (start (initial initialState) .idle) as =
    (semaphore T initialState).tally waitTaken (start (initial initialState) .idle) as +
      (semaphore T initialState).tally tryTaken (start (initial initialState) .idle) as +
      c.mem.toNat
  waits : ∀ t,
    (semaphore T initialState).tally (waitTakenBy t) (start (initial initialState) .idle) as =
      (semaphore T initialState).tally (waitReturnedBy t) (start (initial initialState) .idle) as +
        (c.pc t).waited
  /-- However many posts there are in `bs`, if nobody takes a token meanwhile then the posts of
  `ds` that find the gate 0 let all but one of its takers through. -/
  coalesced : ∀ bs c₁ ds c₂, (semaphore T initialState).exec c bs = some c₁ →
    (semaphore T initialState).tally taken c bs = 0 →
    (semaphore T initialState).exec c₁ ds = some c₂ →
    (semaphore T initialState).tally effectivePost c bs ≤ 1 ∧
      (semaphore T initialState).tally taken c₁ ds ≤
        1+(semaphore T initialState).tally effectivePost c₁ ds
  /-- A spurious wakeup leads back to the compare-exchange. -/
  spurious : ∀ t c', FutexMachine.fire next c (.spurious t) = some c' →
    c'.mem = c.mem ∧ c'.pc = c.pc ∧ c'.pc t = .waiting .exchange

theorem segment_tokens {initialState : Bool} {c c' : SemConf T} {bs : List (Label T)}
    (hr : (semaphore T initialState).Reachable c)
    (h : (semaphore T initialState).exec c bs = some c') :
    c.mem.toNat + (semaphore T initialState).tally effectivePost c bs =
      (semaphore T initialState).tally taken c bs + c'.mem.toNat :=
  hr.balance (f:=fun c => c.mem.toNat) (fun _ _ _ hr hf => step_tokens hr hf) h

theorem refines_oneBit {initialState : Bool} {as : List (Label T)} {c : SemConf T}
    (h : (semaphore T initialState).exec (start (initial initialState) .idle) as = some c) :
    OneBitRun initialState as c := by
  have h0 : (semaphore T initialState).Reachable (start (initial initialState) .idle) := .init rfl
  have hr := h0.exec h
  have hi := reachable_inv hr
  refine ⟨hi.word,?_,?_,fun t => ?_,?_,fun t c' hf => ?_⟩
  · obtain ⟨bs,hbs,htr⟩ := (linearization initialState).history h0 h
    have hs : (linearization initialState).abs (start (initial initialState) .idle : SemConf T) =
        (oneBit T initialState).start := (linearization initialState).init _ rfl
    rw [hs] at hbs htr
    exact ⟨bs,hbs,htr,oneBit_once.exec_status hbs⟩
  · have hseg := segment_tokens h0 h
    have hadd := (semaphore T initialState).tally_add waitTaken tryTaken
      (start (initial initialState) .idle) as
    rw [← hadd]
    exact hseg
  · have hb := h0.balance (f:=fun c => (c.pc t).waited)
      (fun _ _ _ hr hf => step_waited t hr hf) h
    have hz : ((start (initial initialState) .idle : SemConf T).pc t).waited = 0 := rfl
    omega
  · intro bs c₁ ds c₂ hbs hz hds
    have hr₁ := hr.exec hbs
    have hseg := segment_tokens hr hbs
    have hseg₁ := segment_tokens hr₁ hds
    have hw := (reachable_inv hr).word
    have hw₁ := (reachable_inv hr₁).word
    constructor <;> omega
  · obtain ⟨ha,hm,hp⟩ := fire_spurious hf
    exact ⟨hm,hp,hp ▸ hi.parked t ha⟩

theorem refines_oneBit_parked : OneBitRun false parkedSchedule parkedConf :=
  refines_oneBit (T:=Party) rfl

end BinarySemaphore
end Benedias
