import Benedias.CollectorPass
import Benedias.OneBitSemaphore

/-! `CollectorThread::Run` on its own thread, the thread that constructs and stops the collector,
and the threads that call `Delete`: every access to `active`, `thrd` and `collector_thread` and
every operation on the semaphore is one step, and so is every step of the clients. -/
namespace Benedias
namespace CollectorRun

open Interleaving CollectorThread

inductive RunPc
  | unborn | test | collect | sleep | post | wait | clear | done
  deriving DecidableEq

/-- Program points of the constructor and of `Stop`; `nullJoin` is `thrd->join()` with a NULL
`thrd`. -/
inductive OwnerPc
  | conActive | conNew | conThrd
  | idle
  | stopActive (join : Bool) | stopSignal (join : Bool) | stopTest (join : Bool)
  | stopLoad | stopJoin
  | nullJoin
  deriving DecidableEq

/-- Program points of `EnqueueRecordForCollection` after its push. -/
inductive DeletePc (C : Type)
  | idle | load (c : C) | signal
  deriving DecidableEq

structure Conf (D T C : Type) where
  base : CollectorThread.Conf T C
  active : Bool
  /-- `thrd` is not NULL -/
  thrd : Bool
  /-- `BinarySemaphore` is taken to be `binary_semaphore`, which refines this bit -/
  sema : Bool
  run : RunPc
  owner : OwnerPc
  deleter : D → DeletePc C
  signalled : Bool
  /-- a `Stop(true)` has returned -/
  joined : Bool

variable {D T C : Type} [DecidableEq D] [DecidableEq T] [DecidableEq C]

def OwnerPc.constructing : OwnerPc → Bool
  | .conActive | .conNew | .conThrd => true
  | _ => false

def next : CollectorPc C → RunPc
  | .unlock _ pending none => if pending then .sleep else .wait
  | _ => .collect

/-- The next step of `Run`. The `Collect` of a client returns whether its gc list is empty,
so a return of true leaves nothing. -/
def stepRun (s : Conf D T C) (ok left : Bool) : Option (Conf D T C) :=
  match s.run with
  | .unborn | .done => none
  | .test =>
    if s.active then
      (CollectorThread.fire s.base .pass).map fun b => { s with base := b, run := .collect }
    else some { s with run := .clear }
  | .collect =>
    if ok ∧ left then none
    else (stepCollector s.base ok left).map fun b =>
      { s with base := b, run := next s.base.collector }
  | .sleep => some { s with run := .post }
  | .post => (OneBitSemaphore.Op.post.act s.sema).map fun r => { s with sema := r.1, run := .wait }
  | .wait => (OneBitSemaphore.Op.wait.act s.sema).map fun r => { s with sema := r.1, run := .test }
  | .clear => some { s with thrd := false, run := .done }

def stepOwner (s : Conf D T C) : Option (Conf D T C) :=
  match s.owner with
  | .idle | .nullJoin => none
  | .conActive => some { s with active := true, owner := .conNew }
  | .conNew => some { s with run := .test, owner := .conThrd }
  | .conThrd => some { s with thrd := true, owner := .idle }
  | .stopActive join => some { s with active := false, owner := .stopSignal join }
  | .stopSignal join =>
    (OneBitSemaphore.Op.post.act s.sema).map fun r =>
      { s with sema := r.1, signalled := true, owner := .stopTest join }
  | .stopTest join =>
    some { s with
      owner := if join && s.thrd then .stopLoad else .idle
      joined := s.joined || join && !s.thrd }
  | .stopLoad => some { s with owner := if s.thrd then .stopJoin else .nullJoin }
  | .stopJoin => if s.run = .done then some { s with joined := true, owner := .idle } else none

def stepDeleter (s : Conf D T C) (d : D) : Option (Conf D T C) :=
  match s.deleter d with
  | .idle => none
  | .load c =>
    some { s with
      deleter := Function.update s.deleter d (if s.base.bound c then .signal else .idle) }
  | .signal =>
    (OneBitSemaphore.Op.post.act s.sema).map fun r =>
      { s with sema := r.1, deleter := Function.update s.deleter d .idle }

def ofClients : CollectorThread.Label T C → Bool
  | .register _ _ | .deregister _ _ | .client _ => true
  | .pass | .collector _ _ | .enqueue _ | .emptied _ => false

inductive Label (D T C : Type)
  | clients (a : CollectorThread.Label T C)
  | run (ok left : Bool)
  /-- thread `d` pushes a node onto the gc list of `c` -/
  | delete (d : D) (c : C)
  | deleter (d : D)
  | emptied (c : C)
  | signal
  /-- the owner calls `Stop(join)`; its destructor calls `Stop(true)` -/
  | stop (join : Bool)
  | owner

def fire (s : Conf D T C) : Label D T C → Option (Conf D T C)
  | .clients a =>
    if ofClients a ∧ s.owner.constructing = false then
      (CollectorThread.fire s.base a).map fun b => { s with base := b }
    else none
  | .run ok left => stepRun s ok left
  | .delete d c =>
    if s.deleter d = .idle then
      (CollectorThread.fire s.base (.enqueue c)).map fun b =>
        { s with base := b, deleter := Function.update s.deleter d (.load c) }
    else none
  | .deleter d => stepDeleter s d
  | .emptied c =>
    (CollectorThread.fire s.base (.emptied c)).map fun b => { s with base := b }
  | .signal =>
    if s.owner.constructing then none
    else (OneBitSemaphore.Op.post.act s.sema).map fun r => { s with sema := r.1 }
  | .stop join => if s.owner = .idle then some { s with owner := .stopActive join } else none
  | .owner => stepOwner s

def start : Conf D T C where
  base := CollectorThread.start
  active := false
  thrd := false
  sema := false
  run := .unborn
  owner := .conActive
  deleter := fun _ => .idle
  signalled := false
  joined := false

def system (D T C : Type) [DecidableEq D] [DecidableEq T] [DecidableEq C] :
    System (Conf D T C) (Label D T C) where
  init s := s = start
  fire := fire

inductive Move (s : Conf D T C) : Label D T C → Conf D T C → Prop
  | clients {a : CollectorThread.Label T C} {b : CollectorThread.Conf T C} (ha : ofClients a)
      (ho : s.owner.constructing = false) (hf : CollectorThread.fire s.base a = some b) :
      Move s (.clients a) { s with base := b }
  | push {d : D} {c : C} {b : CollectorThread.Conf T C} (hd : s.deleter d = .idle)
      (hf : CollectorThread.fire s.base (.enqueue c) = some b) :
      Move s (.delete d c) { s with base := b, deleter := Function.update s.deleter d (.load c) }
  | emptied {c : C} {b : CollectorThread.Conf T C}
      (hf : CollectorThread.fire s.base (.emptied c) = some b) :
      Move s (.emptied c) { s with base := b }
  | load {d : D} {c : C} (hd : s.deleter d = .load c) :
      Move s (.deleter d) { s with
        deleter := Function.update s.deleter d (if s.base.bound c then .signal else .idle) }
  | notify {d : D} (hd : s.deleter d = .signal) :
      Move s (.deleter d) { s with sema := true, deleter := Function.update s.deleter d .idle }
  | signal : Move s .signal { s with sema := true }
  | begin {ok left : Bool} {b : CollectorThread.Conf T C} (hr : s.run = .test) (ha : s.active)
      (hf : CollectorThread.fire s.base .pass = some b) :
      Move s (.run ok left) { s with base := b, run := .collect }
  | leave {ok left : Bool} (hr : s.run = .test) (ha : s.active = false) :
      Move s (.run ok left) { s with run := .clear }
  | collect {ok left : Bool} {b : CollectorThread.Conf T C} (hr : s.run = .collect)
      (hl : ok → left = false) (hf : stepCollector s.base ok left = some b) :
      Move s (.run ok left) { s with base := b, run := next s.base.collector }
  | sleep {ok left : Bool} (hr : s.run = .sleep) : Move s (.run ok left) { s with run := .post }
  | repost {ok left : Bool} (hr : s.run = .post) :
      Move s (.run ok left) { s with sema := true, run := .wait }
  | wake {ok left : Bool} (hr : s.run = .wait) (hs : s.sema) :
      Move s (.run ok left) { s with sema := false, run := .test }
  | clear {ok left : Bool} (hr : s.run = .clear) :
      Move s (.run ok left) { s with thrd := false, run := .done }
  | stop {join : Bool} (ho : s.owner = .idle) :
      Move s (.stop join) { s with owner := .stopActive join }
  | conActive (ho : s.owner = .conActive) :
      Move s .owner { s with active := true, owner := .conNew }
  | conNew (ho : s.owner = .conNew) : Move s .owner { s with run := .test, owner := .conThrd }
  | conThrd (ho : s.owner = .conThrd) : Move s .owner { s with thrd := true, owner := .idle }
  | stopActive {join : Bool} (ho : s.owner = .stopActive join) :
      Move s .owner { s with active := false, owner := .stopSignal join }
  | stopSignal {join : Bool} (ho : s.owner = .stopSignal join) :
      Move s .owner { s with sema := true, signalled := true, owner := .stopTest join }
  | noJoin (ho : s.owner = .stopTest false) : Move s .owner { s with owner := .idle }
  | null (ho : s.owner = .stopTest true) (ht : s.thrd = false) :
      Move s .owner { s with joined := true, owner := .idle }
  | use (ho : s.owner = .stopTest true) (ht : s.thrd) : Move s .owner { s with owner := .stopLoad }
  | stopLoad (ho : s.owner = .stopLoad) :
      Move s .owner { s with owner := if s.thrd then .stopJoin else .nullJoin }
  | stopJoin (ho : s.owner = .stopJoin) (hr : s.run = .done) :
      Move s .owner { s with joined := true, owner := .idle }

variable {s s' : Conf D T C}

theorem stepRun_move {ok left : Bool} (h : stepRun s ok left = some s') :
    Move s (.run ok left) s' := by
  cases hr : s.run <;> simp only [stepRun,hr] at h
  case unborn | done => cases h
  case test =>
    split at h
    case isTrue ha =>
      obtain ⟨b,hf,rfl⟩ := Option.map_eq_some_iff.mp h
      exact .begin hr ha hf
    case isFalse ha =>
      cases h
      exact .leave hr (by simpa using ha)
  case collect =>
    split at h
    case isTrue => cases h
    case isFalse hl =>
      obtain ⟨b,hf,rfl⟩ := Option.map_eq_some_iff.mp h
      exact .collect hr (by simpa using hl) hf
  case sleep =>
    cases h
    exact .sleep hr
  case post =>
    cases h
    exact .repost hr
  case wait =>
    obtain ⟨r,hs,rfl⟩ := Option.map_eq_some_iff.mp h
    simp only [OneBitSemaphore.Op.act] at hs
    split at hs <;> cases hs
    next hs => exact .wake hr hs
  case clear =>
    cases h
    exact .clear hr

theorem stepOwner_move (h : stepOwner s = some s') : Move s .owner s' := by
  cases ho : s.owner <;> simp only [stepOwner,ho] at h
  case idle | nullJoin => cases h
  case stopTest join =>
    cases h
    cases join with
    | false => simpa using Move.noJoin ho
    | true =>
      cases ht : s.thrd with
      | false => simpa [ht] using Move.null ho ht
      | true => simpa [ht] using Move.use ho ht
  case stopJoin =>
    split at h <;> cases h
    next hr => exact .stopJoin ho hr
  case conActive =>
    cases h
    exact .conActive ho
  case conNew =>
    cases h
    exact .conNew ho
  case conThrd =>
    cases h
    exact .conThrd ho
  case stopActive join =>
    cases h
    exact .stopActive ho
  case stopSignal join =>
    cases h
    exact .stopSignal ho
  case stopLoad =>
    cases h
    exact .stopLoad ho

theorem stepDeleter_move {d : D} (h : stepDeleter s d = some s') : Move s (.deleter d) s' := by
  cases hd : s.deleter d <;> simp only [stepDeleter,hd] at h <;> cases h
  case load c => exact .load hd
  case signal => exact .notify hd

theorem fire_move {a : Label D T C} (h : fire s a = some s') : Move s a s' := by
  cases a with
  | run ok left => exact stepRun_move h
  | owner => exact stepOwner_move h
  | deleter d => exact stepDeleter_move h
  | clients a =>
    simp only [fire] at h
    split at h
    case isTrue hg =>
      obtain ⟨b,hf,rfl⟩ := Option.map_eq_some_iff.mp h
      exact .clients hg.1 hg.2 hf
    case isFalse => cases h
  | delete d c =>
    simp only [fire] at h
    split at h
    case isTrue hd =>
      obtain ⟨b,hf,rfl⟩ := Option.map_eq_some_iff.mp h
      exact .push hd hf
    case isFalse => cases h
  | emptied c =>
    simp only [fire] at h
    obtain ⟨b,hf,rfl⟩ := Option.map_eq_some_iff.mp h
    exact .emptied hf
  | signal =>
    simp only [fire] at h
    split at h <;> cases h
    exact .signal
  | stop join =>
    simp only [fire] at h
    split at h <;> cases h
    next ho => exact .stop ho

/-- The clients and the passes run as without `Run` around them. -/
def project : Simulation (system D T C) (CollectorThread.system T C) where
  abs s := s.base
  init := by
    rintro s rfl
    rfl
  step s a s' hr hf := by
    cases fire_move hf with
    | clients ha ho hb => exact .inr ⟨_,hb⟩
    | @push d c b hd hb => exact .inr ⟨.enqueue c,hb⟩
    | @emptied c b hb => exact .inr ⟨.emptied c,hb⟩
    | begin hr ha hb => exact .inr ⟨.pass,hb⟩
    | @collect ok left b hr hl hb => exact .inr ⟨.collector ok left,hb⟩
    | _ => exact .inl rfl

theorem reachable_base (hr : (system D T C).Reachable s) : CollectorThread.Inv s.base :=
  CollectorThread.reachable_inv (project.reachable hr)

end CollectorRun
end Benedias
