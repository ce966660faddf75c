import Benedias.FutexMachine

/-! `binary_semaphore`: `post`, `wait` and `try_wait` one compare-exchange, `futex_wait` or
`futex_wake` at a time, and the wakeup invariant of any threads that call them. -/
namespace Benedias
namespace BinarySemaphore

open Interleaving FutexMachine

inductive PostPc
  | exchange | wake
  deriving DecidableEq

/-- `exchange` is the head of the loop, `sleep` its body. -/
inductive WaitPc
  | exchange | sleep
  deriving DecidableEq

/-- `binary_semaphore(bool initial_state)`; without an argument the gate is 0. -/
def initial (initialState : Bool) : ℤ := if initialState then 1 else 0

/-- One step of `post`; `none` is the return. -/
def post (gate : ℤ) : PostPc → Effect ℤ Unit (Option PostPc)
  | .exchange => if gate = 0 then .go 1 (some .wake) else .go gate none
  | .wake => .wake () none

/-- One step of `wait`; `none` is the return. -/
def wait (gate : ℤ) : WaitPc → Effect ℤ Unit (Option WaitPc)
  | .exchange => if gate = 1 then .go 0 none else .go gate (some .sleep)
  | .sleep => futexWait gate () gate 0 (some .exchange)

/-- The single compare-exchange of `try_wait`, with its result. -/
def tryWait (gate : ℤ) : ℤ × Bool :=
  if gate = 1 then (0,true) else (gate,false)

/-- What a call returned. -/
inductive Result
  | post | wait | tryWait (ok : Bool)
  deriving DecidableEq

/-- Where a thread is: between two calls, in one, or at its return. -/
inductive Thread
  | idle | posting (pc : PostPc) | waiting (pc : WaitPc) | trying | returning (r : Result)
  deriving DecidableEq

def Thread.post : Option PostPc → Thread
  | some pc => .posting pc
  | none => .returning .post

def Thread.wait : Option WaitPc → Thread
  | some pc => .waiting pc
  | none => .returning .wait

/-- The one step of a thread, or the calls it may make next. -/
def next : Thread → ℤ → List (Effect ℤ Unit Thread)
  | .idle, gate => [.go gate (.posting .exchange),.go gate (.waiting .exchange),.go gate .trying]
  | .posting pc, gate => [(BinarySemaphore.post gate pc).map id id Thread.post]
  | .waiting pc, gate => [(BinarySemaphore.wait gate pc).map id id Thread.wait]
  | .trying, gate =>
    let r := tryWait gate
    [.go r.1 (.returning (.tryWait r.2))]
  | .returning _, gate => [.go gate .idle]

variable {T : Type}

abbrev SemConf (T : Type) := Conf T ℤ Unit Thread

/-- Any threads of `T` on one live `binary_semaphore`. -/
def semaphore (T : Type) [DecidableEq T] [Fintype T] (initialState : Bool) :
    System (SemConf T) (Label T) :=
  machine next (initial initialState) .idle

/-- What one `go` step does to the word and to the thread. -/
inductive Move (g : ℤ) : Thread → ℤ → Thread → Prop
  | callPost : Move g .idle g (.posting .exchange)
  | callWait : Move g .idle g (.waiting .exchange)
  | callTry : Move g .idle g .trying
  | posts (h : g = 0) : Move g (.posting .exchange) 1 (.posting .wake)
  | coalesces (h : g ≠ 0) : Move g (.posting .exchange) g (.returning .post)
  | takes (h : g = 1) : Move g (.waiting .exchange) 0 (.returning .wait)
  | misses (h : g ≠ 1) : Move g (.waiting .exchange) g (.waiting .sleep)
  | retries (h : g ≠ 0) : Move g (.waiting .sleep) g (.waiting .exchange)
  | tryTakes (h : g = 1) : Move g .trying 0 (.returning (.tryWait true))
  | tryMisses (h : g ≠ 1) : Move g .trying g (.returning (.tryWait false))
  | returns (r : Result) : Move g (.returning r) g .idle

theorem go_move {g g' : ℤ} {p q : Thread} (h : .go g' q ∈ next p g) : Move g p g' q := by
  rcases p with _ | (_ | _) | (_ | _) | _ | r <;>
    simp only [next,post,wait,tryWait,futexWait,List.mem_cons,List.not_mem_nil,or_false] at h <;>
    (repeat' split at h) <;>
    simp only [Effect.map,Thread.post,Thread.wait,id,Effect.go.injEq,reduceCtorEq] at h
  · rcases h with ⟨rfl,rfl⟩ | ⟨rfl,rfl⟩ | ⟨rfl,rfl⟩
    · exact .callPost
    · exact .callWait
    · exact .callTry
  · obtain ⟨rfl,rfl⟩ := h; exact .posts ‹_›
  · obtain ⟨rfl,rfl⟩ := h; exact .coalesces ‹_›
  · obtain ⟨rfl,rfl⟩ := h; exact .takes ‹_›
  · obtain ⟨rfl,rfl⟩ := h; exact .misses ‹_›
  · obtain ⟨rfl,rfl⟩ := h; exact .retries ‹_›
  · obtain ⟨rfl,rfl⟩ := h; exact .tryTakes ‹_›
  · obtain ⟨rfl,rfl⟩ := h; exact .tryMisses ‹_›
  · obtain ⟨rfl,rfl⟩ := h; exact .returns r

theorem sleep_move {g : ℤ} {p q : Thread} {a : Unit} (h : .sleep a q ∈ next p g) :
    g = 0 ∧ p = .waiting .sleep ∧ q = .waiting .exchange := by
  rcases p with _ | (_ | _) | (_ | _) | _ | r <;>
    simp only [next,post,wait,tryWait,futexWait,List.mem_cons,List.not_mem_nil,or_false] at h <;>
    (repeat' split at h) <;>
    simp_all [Effect.map,Thread.wait]

theorem wake_move {g : ℤ} {p q : Thread} {a : Unit} (h : .wake a q ∈ next p g) :
    p = .posting .wake ∧ q = .returning .post := by
  rcases p with _ | (_ | _) | (_ | _) | _ | r <;>
    simp only [next,post,wait,tryWait,futexWait,List.mem_cons,List.not_mem_nil,or_false] at h <;>
    (repeat' split at h) <;>
    simp_all [Effect.map,Thread.post]

/-- A post that has set the gate and not yet performed its wake, or a thread in the loop of
`wait`. -/
def Thread.rousing : Thread → Bool
  | .posting .wake | .waiting _ => true
  | _ => false

structure Inv (c : SemConf T) : Prop where
  word : c.mem = 0 ∨ c.mem = 1
  parked : ∀ t, c.asleep t ≠ none → c.pc t = .waiting .exchange
  covered : c.mem = 1 → (∃ t, c.asleep t ≠ none) → ∃ t, c.asleep t = none ∧ (c.pc t).rousing

theorem inv_start (initialState : Bool) : Inv (start (initial initialState) .idle : SemConf T) where
  word := by cases initialState <;> simp [start,initial]
  parked := fun _ h => absurd rfl h
  covered := fun _ ⟨_,h⟩ => absurd rfl h

variable [DecidableEq T]

/-- A step of an awake thread that does not raise the gate under a sleeper, unless the thread
itself is left to wake one. -/
theorem Inv.go {c : SemConf T} (hi : Inv c) {t : T} (ha : c.asleep t = none) {g : ℤ} {q : Thread}
    (hm : Move c.mem (c.pc t) g q) : Inv ⟨g,Function.update c.pc t q,c.asleep⟩ where
  word := by
    have hw := hi.word
    generalize c.pc t = p at hm
    cases hm <;> simp_all
  parked := by
    intro u hu
    have hut : u ≠ t := fun h => hu (h ▸ ha)
    simpa [hut] using hi.parked u hu
  covered := by
    intro hg hs
    by_cases hq : q.rousing
    · exact ⟨t,ha,by simpa using hq⟩
    have hkeep : c.mem = 1 ∧ (c.pc t).rousing = false := by
      revert hg hq
      generalize c.pc t = p at hm
      cases hm <;> simp_all [Thread.rousing]
    obtain ⟨u,hu,hr⟩ := hi.covered hkeep.1 hs
    have hut : u ≠ t := by rintro rfl; simp [hkeep.2] at hr
    exact ⟨u,hu,by simpa [hut] using hr⟩

theorem Inv.step {c c' : SemConf T} (hi : Inv c) (h : Step next c c') : Inv c' := by
  cases h with
  | @go t m q ha he => exact hi.go ha (go_move he)
  | @sleep t a q ha he =>
    obtain ⟨h0,hp,rfl⟩ := sleep_move he
    refine ⟨hi.word,fun u hu => ?_,fun h1 => ?_⟩
    · by_cases hut : u = t
      · subst hut; simp
      · simpa [hut] using hi.parked u (by simpa [hut] using hu)
    · exact absurd h1 (by change c.mem ≠ 1; omega)
  | @wakeOne t u a q ha he hu =>
    obtain ⟨hp,rfl⟩ := wake_move he
    have hloop := hi.parked u (by simp [hu])
    have hut : u ≠ t := by rintro rfl; rw [hp] at hloop; cases hloop
    refine ⟨hi.word,fun v hv => ?_,fun _ _ => ⟨u,by simp,by simp [hut,hloop,Thread.rousing]⟩⟩
    have hvu : v ≠ u := by rintro rfl; simp at hv
    have hva : c.asleep v ≠ none := by simpa [hvu] using hv
    have hvt : v ≠ t := by rintro rfl; exact hva ha
    simpa [hvt] using hi.parked v hva
  | @wakeNone t a q ha he hn =>
    have hnone : ∀ u, c.asleep u = none := fun u => by
      cases hu : c.asleep u with
      | none => rfl
      | some b => exact absurd hu (hn u)
    exact ⟨hi.word,fun v hv => absurd (hnone v) hv,fun _ ⟨v,hv⟩ => absurd (hnone v) hv⟩
  | @spurious t a ha =>
    have hloop := hi.parked t (by simp [ha])
    refine ⟨hi.word,fun v hv => ?_,fun _ _ => ⟨t,by simp,by simp [hloop,Thread.rousing]⟩⟩
    have hvt : v ≠ t := by rintro rfl; simp at hv
    exact hi.parked v (by simpa [hvt] using hv)

variable [Fintype T]

theorem reachable_inv {initialState : Bool} {c : SemConf T}
    (hr : (semaphore T initialState).Reachable c) : Inv c :=
  machine_invariant hr (inv_start initialState) fun _ _ _ hi hs => hi.step hs

theorem next_ne_nil (p : Thread) (g : ℤ) : next p g ≠ [] := by
  rcases p with _ | _ | _ | _ | _ <;> simp [next]

/-- With the gate set and a waiter parked somebody is about to wake it or to take the token,
and can run. -/
theorem no_lost_wakeup {initialState : Bool} {c : SemConf T}
    (hr : (semaphore T initialState).Reachable c) (hg : c.mem = 1) {u : T}
    (hu : c.asleep u ≠ none) :
    ∃ t, c.asleep t = none ∧ (c.pc t = .posting .wake ∨ ∃ pc, c.pc t = .waiting pc) ∧
      ∃ woken c', (semaphore T initialState).fire c (.run t 0 woken) = some c' := by
  obtain ⟨t,ht,hrouse⟩ := (reachable_inv hr).covered hg ⟨u,hu⟩
  refine ⟨t,ht,?_,awake_fires ht (next_ne_nil _ _)⟩
  generalize c.pc t = p at hrouse
  rcases p with _ | (_ | _) | pc | _ | _ <;> simp_all [Thread.rousing]

/-! Thread 1 has parked and thread 0 has posted. -/

def parkedSchedule : List (Label Party) :=
  [.run 1 1 none,.run 1 0 none,.run 1 0 none,.run 0 0 none,.run 0 0 none]

def parkedConf : SemConf Party :=
  (((semaphore Party false).exec (start 0 .idle) parkedSchedule).getD (start 0 .idle))

theorem parkedConf_reachable : (semaphore Party false).Reachable parkedConf :=
  System.Reachable.execD parkedSchedule (.init rfl)

theorem no_lost_wakeup_parkedConf :
    ∃ t, parkedConf.asleep t = none ∧
      (parkedConf.pc t = .posting .wake ∨ ∃ pc, parkedConf.pc t = .waiting pc) ∧
      ∃ woken c', (semaphore Party false).fire parkedConf (.run t 0 woken) = some c' :=
  no_lost_wakeup parkedConf_reachable (by decide) (u:=1) (by decide)

end BinarySemaphore
end Benedias
