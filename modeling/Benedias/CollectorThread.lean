import Benedias.Interleaving
import Mathlib.Algebra.Group.Nat.Defs
import Mathlib.Data.List.Nodup
import Mathlib.Data.List.Basic
import Mathlib.Logic.Function.Basic

/-! `CollectorThread` and its clients: `RegisterClient` and `DeregisterClient` called by any
threads, and the passes of `Collect` on the collector's own thread, one atomic operation or
one action of a `data_lock` critical section at a time. -/
namespace Benedias
namespace CollectorThread

open Interleaving

/-- `CollectorClientInterface::state`. -/
inductive ClientState
  | unregistered | registered | collecting | deleting
  deriving DecidableEq

/-- The documented transitions of the client state. -/
inductive Transition : ClientState → ClientState → Prop
  | register : Transition .unregistered .registered
  | collect : Transition .registered .collecting
  | delete : Transition .registered .deleting
  | collected : Transition .collecting .registered
  | deleted : Transition .deleting .unregistered

/-- Program points of a thread in `RegisterClient` or `DeregisterClient`; `failed` is a
`CHECK_ASSERT` that does not hold. -/
inductive ClientPc (C : Type)
  | idle
  | regLoad (c : C) | regCheck (c : C) | regLock (c : C) | regClient (c : C) | regId (c : C)
  | regState (c : C) | regThread (c : C) | regUnlock (c : C)
  | derCas (c : C) | derYield (c : C) (expected : ClientState) | derLock (c : C)
  | derFind (c : C) (ix : ℕ) | derErase (c : C) (ix : ℕ) | derEraseId (c : C) (ix : ℕ)
  | derState (c : C) | derUnlock (c : C)
  | failed
  deriving DecidableEq

/-- Program points of `CollectorThread::Collect`, with its locals `curr_id` and `pending`. -/
inductive CollectorPc (C : Type)
  | idle
  | lock (curr : ℕ) (pending : Bool) | test (curr : ℕ) (pending : Bool) (ix : ℕ)
  | ident (curr : ℕ) (pending : Bool) (ix : ℕ) | deletes (curr : ℕ) (pending : Bool) (ix : ℕ)
  | cas (curr : ℕ) (pending : Bool) (ix : ℕ)
  | unlock (curr : ℕ) (pending : Bool) (clientp : Option C)
  | collect (curr : ℕ) (pending : Bool) (clientp : C)
  | inside (curr : ℕ) (pending : Bool) (clientp : C)
  | release (curr : ℕ) (pending : Bool) (clientp : C)
  | failed
  deriving DecidableEq

inductive Owner (T : Type)
  | client (t : T) | collector
  deriving DecidableEq

/-- How far a client is in its life: registered once, deregistered at most once. -/
inductive Life (T : Type)
  | unborn | registering (t : T) | live | deregistering (t : T) | gone
  deriving DecidableEq

structure Conf (T C : Type) where
  state : C → ClientState
  /-- `collector_thread` is not NULL -/
  bound : C → Bool
  haveDeletes : C → Bool
  clients : List C
  clientsID : List ℕ
  idValue : ℕ
  dataLock : Option (Owner T)
  pc : T → ClientPc C
  collector : CollectorPc C
  life : C → Life T

variable {T C : Type} [DecidableEq T] [DecidableEq C]

@[simp] def Conf.setPc (s : Conf T C) (t : T) (p : ClientPc C) : Conf T C :=
  { s with pc := Function.update s.pc t p }

@[simp] def Conf.setState (s : Conf T C) (c : C) (k : ClientState) : Conf T C :=
  { s with state := Function.update s.state c k }

@[simp] def Conf.setLife (s : Conf T C) (c : C) (l : Life T) : Conf T C :=
  { s with life := Function.update s.life c l }

def stepClient (s : Conf T C) (t : T) : Option (Conf T C) :=
  match s.pc t with
  | .idle | .failed => none
  -- RegisterClient
  | .regLoad c => some (s.setPc t (if s.state c = .unregistered then .regCheck c else .failed))
  | .regCheck c => some (s.setPc t (if s.bound c then .failed else .regLock c))
  | .regLock c =>
    if s.dataLock = none then
      some { s.setPc t (.regClient c) with dataLock := some (.client t) }
    else none
  | .regClient c => some { s.setPc t (.regId c) with clients := s.clients ++ [c] }
  | .regId c =>
    let id := (s.idValue+1) % 2^32
    some { s.setPc t (.regState c) with idValue := id, clientsID := s.clientsID ++ [id] }
  | .regState c => some ((s.setState c .registered).setPc t (.regThread c))
  | .regThread c => some { s.setPc t (.regUnlock c) with bound := Function.update s.bound c true }
  | .regUnlock c => some { (s.setLife c .live).setPc t .idle with dataLock := none }
  -- DeregisterClient
  | .derCas c =>
    if s.state c = .registered then some ((s.setState c .deleting).setPc t (.derLock c))
    else some (s.setPc t (.derYield c (s.state c)))
  | .derYield c expected =>
    some (s.setPc t (if expected = .collecting then .derCas c else .failed))
  | .derLock c =>
    if s.dataLock = none then
      some { s.setPc t (.derFind c 0) with dataLock := some (.client t) }
    else none
  | .derFind c ix =>
    match s.clients[ix]? with
    | none => some (s.setPc t .failed)
    | some c' => some (s.setPc t (if c' = c then .derErase c ix else .derFind c (ix+1)))
  | .derErase c ix => some { s.setPc t (.derEraseId c ix) with clients := s.clients.eraseIdx ix }
  | .derEraseId c ix =>
    some { s.setPc t (.derState c) with clientsID := s.clientsID.eraseIdx ix }
  | .derState c => some ((s.setState c .unregistered).setPc t (.derUnlock c))
  | .derUnlock c => some { (s.setLife c .gone).setPc t .idle with dataLock := none }

/-- The next step of the collector inside `Collect`. `ok` is what a client's `Collect`
returns, `left` whether its gc list is not empty afterwards. -/
def stepCollector (s : Conf T C) (ok left : Bool) : Option (Conf T C) :=
  match s.collector with
  | .idle | .failed => none
  | .lock curr pending =>
    if s.dataLock = none then
      some { s with dataLock := some .collector, collector := .test curr pending 0 }
    else none
  | .test curr pending ix =>
    some { s with collector :=
      if ix < s.clientsID.length then .ident curr pending ix else .unlock curr pending none }
  | .ident curr pending ix =>
    match s.clientsID[ix]? with
    | none => some { s with collector := .failed }
    | some id => some { s with collector :=
        if id ≤ curr then .test curr pending (ix+1) else .deletes id pending ix }
  | .deletes curr pending ix =>
    match s.clients[ix]? with
    | none => some { s with collector := .failed }
    | some c =>
      let deletes := s.haveDeletes c
      some { s with collector :=
        if deletes then .cas curr pending ix else .test curr pending (ix+1) }
  | .cas curr pending ix =>
    match s.clients[ix]? with
    | none => some { s with collector := .failed }
    | some c =>
      if s.state c = .registered then
        some { s.setState c .collecting with collector := .unlock curr pending (some c) }
      else if s.state c = .deleting then some { s with collector := .test curr pending (ix+1) }
      else some { s with collector := .failed }
  | .unlock curr pending clientp =>
    some { s with
      dataLock := none
      collector := match clientp with
        | some c => .collect curr pending c
        | none => .idle }
  | .collect curr pending c => some { s with collector := .inside curr pending c }
  | .inside curr pending c =>
    some { s with
      haveDeletes := Function.update s.haveDeletes c left
      collector := .release curr (if ok then pending else true) c }
  | .release curr pending c =>
    if s.state c = .collecting then
      some { s.setState c .registered with collector := .lock curr pending }
    else some { s with collector := .failed }

inductive Label (T C : Type)
  | register (t : T) (c : C)
  /-- thread `t` runs the destructor of `c`, which calls `DeregisterClient(c)` -/
  | deregister (t : T) (c : C)
  | client (t : T)
  | pass
  | collector (ok left : Bool)
  | enqueue (c : C)
  /-- a `Collect` of `c`, which any thread may call, takes the last node off the gc list -/
  | emptied (c : C)

def fire (s : Conf T C) : Label T C → Option (Conf T C)
  | .register t c =>
    if s.pc t = .idle ∧ s.life c = .unborn then
      some ((s.setLife c (.registering t)).setPc t (.regLoad c))
    else none
  | .deregister t c =>
    if s.pc t = .idle ∧ s.life c = .live then
      -- if (collector_thread) collector_thread->DeregisterClient( *this);
      some (if s.bound c then (s.setLife c (.deregistering t)).setPc t (.derCas c)
        else s.setLife c .gone)
    else none
  | .client t => stepClient s t
  | .pass => if s.collector = .idle then some { s with collector := .lock 0 false } else none
  | .collector ok left => stepCollector s ok left
  | .enqueue c =>
    if s.life c = .gone then none
    else some { s with haveDeletes := Function.update s.haveDeletes c true }
  | .emptied c => some { s with haveDeletes := Function.update s.haveDeletes c false }

def start : Conf T C where
  state := fun _ => .unregistered
  bound := fun _ => false
  haveDeletes := fun _ => false
  clients := []
  clientsID := []
  idValue := 0
  dataLock := none
  pc := fun _ => .idle
  collector := .idle
  life := fun _ => .unborn

def system (T C : Type) [DecidableEq T] [DecidableEq C] : System (Conf T C) (Label T C) where
  init s := s = start
  fire := fire

end CollectorThread
end Benedias
