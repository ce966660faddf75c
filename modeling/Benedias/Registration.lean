import Benedias.CollectorPass
import Mathlib.Data.Option.Basic

/-! Any number of `CollectorThread`s and clients, one operation after the other: the state word and
`collector_thread` of a client, and the vectors of the collectors. -/
namespace Benedias
namespace Registration

open Interleaving
open CollectorThread (ClientState)

/-- The fields of `CollectorThread` that its clients are registered in. -/
structure Collector (C : Type) where
  clients : List C
  clientsID : List ℕ
  idValue : ℕ

structure Conf (K C : Type) where
  /-- the collectors that have been constructed and not destroyed -/
  live : K → Option (Collector C)
  state : C → ClientState
  collectorThread : C → Option K
  haveDeletes : C → Bool
  /-- the collector that the calls made so far have registered the client with -/
  registeredWith : C → Option K
  /-- a `CHECK_ASSERT` has failed, or a destroyed collector has been used -/
  failed : Bool

section Operations

variable {K C : Type} [DecidableEq K] [DecidableEq C]

def Conf.setState (s : Conf K C) (c : C) (p : ClientState) : Conf K C :=
  { s with state := Function.update s.state c p }

def Conf.setCollector (s : Conf K C) (k : K) (col : Collector C) : Conf K C :=
  { s with live := Function.update s.live k (some col) }

def registerClient (s : Conf K C) (k : K) (c : C) : Option (Conf K C) := do
  let col ← s.live k
  guard (s.state c = .unregistered)
  guard (s.collectorThread c = none)
  let id := (col.idValue+1) % 2^32
  let s := (s.setCollector k ⟨col.clients++[c],col.clientsID++[id],id⟩).setState c .registered
  return { s with collectorThread := Function.update s.collectorThread c (some k) }

/-- Where the state is another than REGISTERED, the loop fails its assertion or never ends. -/
def deregisterClient (s : Conf K C) (k : K) (c : C) : Option (Conf K C) := do
  let col ← s.live k
  guard (s.state c = .registered)
  let s := s.setState c .deleting
  let ix ← col.clients.findIdx? (· = c)
  let col := { col with clients := col.clients.eraseIdx ix, clientsID := col.clientsID.eraseIdx ix }
  return (s.setCollector k col).setState c .unregistered

/-- The loop of `Collect` under `data_lock`, with the client whose state it has changed. -/
def findClient (s : Conf K C) : List (C × ℕ) → ℕ → Option (Conf K C × ℕ × Option C)
  | [], curr => some (s,curr,none)
  | (c,id)::rest, curr =>
    if id ≤ curr then findClient s rest curr
    else if s.haveDeletes c then
      match s.state c with
      | .registered => some (s.setState c .collecting,id,some c)
      | .deleting => findClient s rest id
      | .unregistered | .collecting => none
    else findClient s rest id

/-- The outer loop of `Collect`; `left` tells which gc lists are not empty afterwards. -/
def collectFrom (left : C → Bool) (clients : List (C × ℕ)) : ℕ → Conf K C → ℕ → Option (Conf K C)
  | 0, _, _ => none
  | fuel+1, s, curr => do
    let (s,curr,clientp) ← findClient s clients curr
    match clientp with
    | none => return s
    | some c =>
      let s := { s with haveDeletes := Function.update s.haveDeletes c (left c) }
      guard (s.state c = .collecting)
      collectFrom left clients fuel (s.setState c .registered) curr

def collect (s : Conf K C) (k : K) (left : C → Bool) : Option (Conf K C) := do
  let col ← s.live k
  collectFrom left (col.clients.zip col.clientsID) (col.clients.length+1) s 0

def releaseClients (k : K) : List C → Conf K C → Option (Conf K C)
  | [], s => some s
  | c::clients, s => do
    guard (s.collectorThread c = some k)
    releaseClients k clients { s with collectorThread := Function.update s.collectorThread c none }

/-- `~CollectorThread`, when its thread has been joined. -/
def destroyCollector (s : Conf K C) (k : K) : Option (Conf K C) := do
  let col ← s.live k
  let s ← releaseClients k col.clients s
  return { s with live := Function.update s.live k none }

/-- What `~HazardPointerList` does with the registration. -/
def destroyClient (s : Conf K C) (c : C) : Option (Conf K C) :=
  match s.collectorThread c with
  | none => some s
  | some k => deregisterClient s k c

/-- `EnqueueRecordForCollection`: a push, and a signal to the collector. -/
def enqueue (s : Conf K C) (c : C) : Option (Conf K C) :=
  let s := { s with haveDeletes := Function.update s.haveDeletes c true }
  match s.collectorThread c with
  | none => some s
  | some k => (s.live k).map fun _ => s

inductive Label (K C : Type)
  | construct (k : K) | register (k : K) (c : C) | deregister (k : K) (c : C)
  | collect (k : K) (left : C → Bool) | destroy (k : K) | enqueue (c : C)

/-- The client is registered with `o` from now on. -/
def Conf.setWith (s : Conf K C) (c : C) (o : Option K) : Conf K C :=
  { s with registeredWith := Function.update s.registeredWith c o }

def Conf.attempt (s : Conf K C) (r : Option (Conf K C)) : Conf K C := r.getD { s with failed := true }

/-- The calls that make sense: an existing collector, a client that is not registered or is
registered with it. -/
def Conf.admits (s : Conf K C) : Label K C → Bool
  | .construct k => (s.live k).isNone
  | .register k c => (s.live k).isSome && s.registeredWith c = none
  | .deregister k c => s.registeredWith c = some k
  | .collect k _ | .destroy k => (s.live k).isSome
  | .enqueue _ => true

def Conf.run (s : Conf K C) : Label K C → Option (Conf K C)
  | .construct k => some (s.setCollector k ⟨[],[],0⟩)
  | .register k c => (registerClient s k c).map (·.setWith c (some k))
  | .deregister k c => (deregisterClient s k c).map (·.setWith c none)
  | .collect k left => collect s k left
  | .destroy k => (destroyCollector s k).map fun d => { d with
      registeredWith := fun c => if s.registeredWith c = some k then none else s.registeredWith c }
  | .enqueue c => enqueue s c

def fire (s : Conf K C) (a : Label K C) : Option (Conf K C) :=
  if s.failed = false ∧ s.admits a then some (s.attempt (s.run a)) else none

def start : Conf K C where
  live := fun _ => none
  state := fun _ => .unregistered
  collectorThread := fun _ => none
  haveDeletes := fun _ => false
  registeredWith := fun _ => none
  failed := false

def system (K C : Type) [DecidableEq K] [DecidableEq C] : System (Conf K C) (Label K C) where
  init s := s = start
  fire := fire

/-- The three pieces of state agree for the client. -/
def Coherent (s : Conf K C) (c : C) : Prop :=
  s.state c = .unregistered ∧ s.collectorThread c = none ∧
      (∀ k col, s.live k = some col → c ∉ col.clients) ∨
    s.state c = .registered ∧ ∃ k col, s.collectorThread c = some k ∧ s.live k = some col ∧
      col.clients.count c = 1 ∧ ∀ k' col', s.live k' = some col' → c ∈ col'.clients → k' = k

/-- No client is deregistered, and no collector destroyed that has clients. -/
def Keeps (s : Conf K C) : Label K C → Bool
  | .deregister _ _ => false
  | .destroy k => (s.live k).all fun col => col.clients.isEmpty
  | _ => true

end Operations

variable {K C : Type}

/-- The vectors hold the clients that are registered, and the fields of a client say so. -/
structure Inv (s : Conf K C) : Prop where
  alive : s.failed = false
  free : ∀ c, s.registeredWith c = none → s.state c = .unregistered ∧ s.collectorThread c = none
  bound : ∀ c k, s.registeredWith c = some k → s.state c = .registered ∧
    s.collectorThread c = some k ∧ ∃ col, s.live k = some col ∧ c ∈ col.clients
  member : ∀ k col c, s.live k = some col → c ∈ col.clients → s.registeredWith c = some k
  nodup : ∀ k col, s.live k = some col → col.clients.Nodup

theorem inv_start : Inv (start : Conf K C) := by constructor <;> simp [start]

section Collect

variable [DecidableEq C] {s : Conf K C} {l : List (C × ℕ)} {n : ℕ}

theorem findClient_registered (curr : ℕ) (hs : ∀ p ∈ l, s.state p.1 = .registered) :
    (∃ curr', findClient s l curr = some (s,curr',none)) ∨
      ∃ p ∈ l, curr < p.2 ∧ findClient s l curr = some (s.setState p.1 .collecting,p.2,some p.1) := by
  induction l generalizing curr with
  | nil => exact .inl ⟨curr,rfl⟩
  | cons p l ih =>
    obtain ⟨c,id⟩ := p
    have hl := fun q hq => hs q (List.mem_cons_of_mem _ hq)
    have hc : s.state c = .registered := hs (c,id) List.mem_cons_self
    have hmem : ∀ {curr'}, curr ≤ curr' → ((∃ curr'', findClient s l curr' = some (s,curr'',none)) ∨
        ∃ p ∈ l, curr' < p.2 ∧
          findClient s l curr' = some (s.setState p.1 .collecting,p.2,some p.1)) →
        (∃ curr'', findClient s l curr' = some (s,curr'',none)) ∨ ∃ p ∈ (c,id)::l, curr < p.2 ∧
          findClient s l curr' = some (s.setState p.1 .collecting,p.2,some p.1) := by
      intro curr' hle h
      refine h.imp_right fun ⟨p,hp,hlt,he⟩ => ⟨p,List.mem_cons_of_mem _ hp,?_,he⟩
      exact Nat.lt_of_le_of_lt hle hlt
    simp only [findClient]
    by_cases hid : id ≤ curr
    · rw [if_pos hid]
      exact hmem (Nat.le_refl _) (ih curr hl)
    · rw [if_neg hid]
      have hlt : curr < id := Nat.not_le.mp hid
      by_cases hd : s.haveDeletes c
      · rw [if_pos hd,hc]
        exact .inr ⟨(c,id),List.mem_cons_self,hlt,rfl⟩
      · rw [if_neg hd]
        exact hmem (Nat.le_of_lt hlt) (ih id hl)

/-- A pass over registered clients puts every state back. -/
theorem collectFrom_registered (left : C → Bool) {curr : ℕ}
    (hs : ∀ p ∈ l, s.state p.1 = .registered)
    (hn : (l.map Prod.snd).countP (curr < ·) < n) :
    ∃ h, collectFrom left l n s curr = some { s with haveDeletes := h } := by
  induction n generalizing s curr with
  | zero => exact absurd hn (Nat.not_lt_zero _)
  | succ n ih =>
    rcases findClient_registered curr hs with ⟨curr',hf⟩ | ⟨p,hp,hlt,hf⟩
    · exact ⟨s.haveDeletes,by simp [collectFrom,hf]⟩
    · have hlt := CollectorThread.countP_above (List.mem_map_of_mem hp) hlt
      have hback : Function.update (Function.update s.state p.1 .collecting) p.1 .registered =
          s.state := by
        rw [Function.update_idem,← hs p hp,Function.update_eq_self]
      obtain ⟨h,hc⟩ := ih (s:={ s with haveDeletes := Function.update s.haveDeletes p.1 (left p.1) })
        hs (show (l.map Prod.snd).countP (p.2 < ·) < n by omega)
      refine ⟨h,?_⟩
      simp only [collectFrom,hf,Option.bind_eq_bind,Option.bind_some,Conf.setState,
        Function.update_self,guard,if_true,Option.pure_def,hback]
      exact hc

end Collect

section Step

variable {s s' : Conf K C} {k : K} {c : C} {a : Label K C}

theorem Inv.free_clients (hi : Inv s) (hf : s.registeredWith c = none) {col : Collector C}
    (hk : s.live k = some col) : c ∉ col.clients := by
  intro hm
  cases hf.symm.trans (hi.member k col c hk hm)

/-- Other fields than those of the registration. -/
theorem Inv.haveDeletes (hi : Inv s) (h : C → Bool) : Inv { s with haveDeletes := h } :=
  ⟨hi.alive,hi.free,hi.bound,hi.member,hi.nodup⟩

section Fields

variable [DecidableEq C]

theorem collect_eq (hi : Inv s) {col : Collector C} (hk : s.live k = some col) (left : C → Bool) :
    ∃ h, collect s k left = some { s with haveDeletes := h } := by
  have hs : ∀ p ∈ col.clients.zip col.clientsID, s.state p.1 = .registered := fun p hp =>
    (hi.bound p.1 k (hi.member k col p.1 hk (List.of_mem_zip hp).1)).1
  have hn : ((col.clients.zip col.clientsID).map Prod.snd).countP (0 < ·) < col.clients.length+1 := by
    refine Nat.lt_succ_of_le (Nat.le_trans List.countP_le_length ?_)
    simp only [List.length_map,List.length_zip]
    exact Nat.min_le_left _ _
  obtain ⟨h,hc⟩ := collectFrom_registered left hs hn
  exact ⟨h,by simpa [collect,hk] using hc⟩

theorem enqueue_eq (hi : Inv s) (c : C) :
    enqueue s c = some { s with haveDeletes := Function.update s.haveDeletes c true } := by
  cases hc : s.registeredWith c with
  | none => simp [enqueue,(hi.free c hc).2]
  | some k =>
    obtain ⟨-,h2,col,hl,-⟩ := hi.bound c k hc
    simp [enqueue,h2,hl]

/-- The clients of a registry that keeps its invariant are coherent. -/
theorem Inv.coherent (hi : Inv s) (c : C) : Coherent s c := by
  cases hc : s.registeredWith c with
  | none =>
    obtain ⟨h1,h2⟩ := hi.free c hc
    exact .inl ⟨h1,h2,fun k col hk => hi.free_clients hc hk⟩
  | some k =>
    obtain ⟨h1,h2,col,hl,hm⟩ := hi.bound c k hc
    refine .inr ⟨h1,k,col,h2,hl,List.count_eq_one_of_mem (hi.nodup k col hl) hm,?_⟩
    intro k' col' hl' hm'
    exact Option.some.inj ((hi.member k' col' c hl' hm').symm.trans hc)

end Fields

variable [DecidableEq K]

theorem Inv.construct (hi : Inv s) (hk : s.live k = none) :
    Inv (s.setCollector k ⟨[],[],0⟩) where
  alive := hi.alive
  free := hi.free
  bound c k' hc := by
    obtain ⟨h1,h2,col,hl,hm⟩ := hi.bound c k' hc
    refine ⟨h1,h2,col,?_,hm⟩
    have hne : k' ≠ k := by
      rintro rfl
      cases hk.symm.trans hl
    exact (Function.update_of_ne hne _ _).trans hl
  member k' col c hl hm := by
    by_cases hkk : k' = k
    · subst hkk
      simp only [Conf.setCollector,Function.update_self,Option.some.injEq] at hl
      simp [← hl] at hm
    · exact hi.member k' col c ((Function.update_of_ne hkk _ _).symm.trans hl) hm
  nodup k' col hl := by
    by_cases hkk : k' = k
    · subst hkk
      simp only [Conf.setCollector,Function.update_self,Option.some.injEq] at hl
      simp [← hl]
    · exact hi.nodup k' col ((Function.update_of_ne hkk _ _).symm.trans hl)

variable [DecidableEq C]

theorem registerClient_eq (hi : Inv s) {col : Collector C} (hk : s.live k = some col)
    (hc : s.registeredWith c = none) : registerClient s k c = some
      { (s.setCollector k ⟨col.clients++[c],col.clientsID++[(col.idValue+1) % 2^32],
          (col.idValue+1) % 2^32⟩).setState c .registered with
        collectorThread := Function.update s.collectorThread c (some k) } := by
  obtain ⟨h1,h2⟩ := hi.free c hc
  simp [registerClient,hk,h1,h2,guard,Conf.setState,Conf.setCollector]

theorem Inv.register (hi : Inv s) {col : Collector C} (hk : s.live k = some col)
    (hc : s.registeredWith c = none) (ids : List ℕ) (id : ℕ) :
    Inv (Conf.setWith { (s.setCollector k ⟨col.clients++[c],ids,id⟩).setState c .registered with
        collectorThread := Function.update s.collectorThread c (some k) } c (some k)) where
  alive := hi.alive
  free c' hc' := by
    by_cases he : c' = c
    · simp [he,Conf.setWith] at hc'
    · simp only [Conf.setWith,Function.update_of_ne he] at hc'
      simpa [Conf.setWith,Conf.setState,Conf.setCollector,he] using hi.free c' hc'
  bound c' k' hc' := by
    by_cases he : c' = c
    · subst he
      obtain rfl : k = k' := by simpa [Conf.setWith] using hc'
      refine ⟨Function.update_self _ _ _,Function.update_self _ _ _,_,Function.update_self _ _ _,?_⟩
      simp
    · simp only [Conf.setWith,Function.update_of_ne he] at hc'
      obtain ⟨h1,h2,col',hl,hm⟩ := hi.bound c' k' hc'
      refine ⟨(Function.update_of_ne he _ _).trans h1,(Function.update_of_ne he _ _).trans h2,?_⟩
      by_cases hkk : k' = k
      · subst hkk
        obtain rfl := Option.some.inj (hk.symm.trans hl)
        exact ⟨_,Function.update_self _ _ _,List.mem_append_left _ hm⟩
      · exact ⟨col',(Function.update_of_ne hkk _ _).trans hl,hm⟩
  member k' col' c' hl hm := by
    simp only [Conf.setWith,Conf.setState,Conf.setCollector] at hl ⊢
    by_cases hkk : k' = k
    · subst hkk
      rw [Function.update_self] at hl
      cases hl
      by_cases he : c' = c
      · rw [he,Function.update_self]
      · rw [Function.update_of_ne he]
        exact hi.member k' col c' hk (by simpa [he] using hm)
    · rw [Function.update_of_ne hkk] at hl
      have he : c' ≠ c := by
        rintro rfl
        exact hi.free_clients hc hl hm
      rw [Function.update_of_ne he]
      exact hi.member k' col' c' hl hm
  nodup k' col' hl := by
    simp only [Conf.setWith,Conf.setState,Conf.setCollector] at hl
    by_cases hkk : k' = k
    · subst hkk
      rw [Function.update_self] at hl
      cases hl
      exact (hi.nodup k' col hk).append (List.nodup_singleton c)
        (by simpa using hi.free_clients hc hk)
    · rw [Function.update_of_ne hkk] at hl
      exact hi.nodup k' col' hl

theorem Inv.destroy (hi : Inv s) {col : Collector C} (hk : s.live k = some col)
    (hc : col.clients = []) : (s.run (.destroy k)).elim False fun d => Inv d := by
  have hnone : ∀ c, s.registeredWith c ≠ some k := by
    intro c hw
    obtain ⟨-,-,col',hl,hm⟩ := hi.bound c k hw
    obtain rfl := Option.some.inj (hk.symm.trans hl)
    simp [hc] at hm
  have hw : (fun c => if s.registeredWith c = some k then none else s.registeredWith c) =
      s.registeredWith := by
    funext c
    rw [if_neg (hnone c)]
  simp only [Conf.run,destroyCollector,hk,Option.bind_eq_bind,Option.bind_some,hc,releaseClients,
    Option.pure_def,Option.map_some,Option.elim_some,hw]
  constructor
  case alive => exact hi.alive
  case free => exact hi.free
  case bound =>
    intro c k' hck
    obtain ⟨h1,h2,col',hl,hm⟩ := hi.bound c k' hck
    have hne : k' ≠ k := by
      rintro rfl
      exact hnone c hck
    exact ⟨h1,h2,col',(Function.update_of_ne hne _ _).trans hl,hm⟩
  case member =>
    intro k' col' c hl hm
    by_cases hkk : k' = k
    · simp [hkk] at hl
    · exact hi.member k' col' c ((Function.update_of_ne hkk _ _).symm.trans hl) hm
  case nodup =>
    intro k' col' hl
    by_cases hkk : k' = k
    · simp [hkk] at hl
    · exact hi.nodup k' col' ((Function.update_of_ne hkk _ _).symm.trans hl)

theorem fire_inv (hi : Inv s) (h : fire s a = some s') (hkeep : Keeps s a) : Inv s' := by
  simp only [fire] at h
  split at h <;> cases h
  next hg =>
    obtain ⟨-,hg⟩ := hg
    cases a with
    | construct k => exact hi.construct (by simpa [Conf.admits] using hg)
    | register k c =>
      simp only [Conf.admits,Bool.and_eq_true,decide_eq_true_eq,Option.isSome_iff_exists] at hg
      obtain ⟨⟨col,hk⟩,hc⟩ := hg
      simp only [Conf.run,registerClient_eq hi hk hc,Conf.attempt,Option.map_some,Option.getD_some]
      exact hi.register hk hc _ _
    | deregister k c => cases hkeep
    | collect k left =>
      obtain ⟨col,hk⟩ := Option.isSome_iff_exists.mp hg
      obtain ⟨h,hc⟩ := collect_eq hi hk left
      simp only [Conf.run,hc,Conf.attempt,Option.getD_some]
      exact hi.haveDeletes h
    | destroy k =>
      obtain ⟨col,hk⟩ := Option.isSome_iff_exists.mp hg
      have hd := hi.destroy hk (by simpa [Keeps,hk] using hkeep)
      cases hr : s.run (.destroy k) with
      | none => simp [hr] at hd
      | some d =>
        rw [hr] at hd
        exact hd
    | enqueue c =>
      simp only [Conf.run,enqueue_eq hi,Conf.attempt,Option.getD_some]
      exact hi.haveDeletes _

theorem reachable_inv (hr : (system K C).ReachableVia (fun s a => Keeps s a) s) : Inv s := by
  refine hr.invariant (fun s hs => ?_) fun s a s' _ hi hk hf => fire_inv hi hf hk
  obtain rfl : s = start := hs
  exact inv_start

theorem releaseClients_eq {l : List C} (hl : l.Nodup) (hk : ∀ c ∈ l, s.collectorThread c = some k) :
    releaseClients k l s = some
      { s with collectorThread := fun c => if c ∈ l then none else s.collectorThread c } := by
  induction l generalizing s with
  | nil => simp [releaseClients]
  | cons c l ih =>
    obtain ⟨hc,hl⟩ := List.nodup_cons.mp hl
    have hrest : ∀ c' ∈ l, Function.update s.collectorThread c none c' = some k := by
      intro c' hc'
      rw [Function.update_of_ne (ne_of_mem_of_not_mem hc' hc)]
      exact hk c' (List.mem_cons_of_mem c hc')
    simp only [releaseClients,hk c List.mem_cons_self,guard,if_true,Option.pure_def,
      Option.bind_eq_bind,Option.bind_some]
    rw [ih (s:={ s with collectorThread := Function.update s.collectorThread c none }) hl hrest]
    congr 2
    funext c'
    by_cases he : c' = c
    · simp [he]
    · simp [he]

/-- `DeregisterClient` leaves `collector_thread` as it is. -/
theorem deregisterClient_eq (hi : Inv s) (hc : s.registeredWith c = some k) :
    ∃ d, deregisterClient s k c = some d ∧ d.state c = .unregistered ∧
      d.collectorThread c = s.collectorThread c := by
  obtain ⟨h1,-,col,hl,hm⟩ := hi.bound c k hc
  have hfind : (col.clients.findIdx? (· = c)).isSome := by
    rw [List.findIdx?_isSome,List.any_eq_true]
    exact ⟨c,hm,by simp⟩
  obtain ⟨ix,hx⟩ := Option.isSome_iff_exists.mp hfind
  simp [deregisterClient,hl,h1,hx,guard,Conf.setState,Conf.setCollector]

/-- After the other steps some client is not coherent. -/
theorem not_coherent (hi : Inv s) (h : fire s a = some s') (hkeep : ¬Keeps s a) :
    ∃ c, ¬Coherent s' c := by
  simp only [fire] at h
  split at h <;> cases h
  next hg =>
    obtain ⟨-,hg⟩ := hg
    cases a with
    | deregister k c =>
      have hw : s.registeredWith c = some k := by simpa [Conf.admits] using hg
      obtain ⟨d,hd,h1,h2⟩ := deregisterClient_eq hi hw
      refine ⟨c,?_⟩
      simp only [Conf.run,hd,Option.map_some,Conf.attempt,Option.getD_some]
      rintro (⟨-,hc,-⟩ | ⟨hc,-⟩)
      · cases (h2.trans (hi.bound c k hw).2.1).symm.trans hc
      · cases h1.symm.trans hc
    | destroy k =>
      obtain ⟨col,hk⟩ := Option.isSome_iff_exists.mp hg
      obtain ⟨c,hm⟩ : ∃ c, c ∈ col.clients := by
        refine List.exists_mem_of_ne_nil _ fun he => hkeep ?_
        simp [Keeps,hk,he]
      have hall : ∀ c ∈ col.clients, s.state c = .registered ∧ s.collectorThread c = some k := by
        intro c hm
        obtain ⟨h1,h2,-⟩ := hi.bound c k (hi.member k col c hk hm)
        exact ⟨h1,h2⟩
      refine ⟨c,?_⟩
      simp only [Conf.run,destroyCollector,hk,Option.bind_eq_bind,Option.bind_some,
        releaseClients_eq (hi.nodup k col hk) fun c hm => (hall c hm).2,Option.pure_def,
        Option.map_some,Conf.attempt,Option.getD_some]
      rintro (⟨hc,-⟩ | ⟨-,k',col',hc,-⟩)
      · cases (hall c hm).1.symm.trans hc
      · simp [hm] at hc
    | _ => exact absurd rfl hkeep

end Step

/-- The registration of all clients, and what rests on it. -/
structure RegistrationSound [DecidableEq K] [DecidableEq C] (s : Conf K C) : Prop where
  coherent : ∀ c, Coherent s c
  checks : s.failed = false
  /-- `RegisterClient` of a client that is not registered -/
  registers : ∀ k c, (s.live k).isSome → s.registeredWith c = none → (registerClient s k c).isSome
  destroys : ∀ c, (destroyClient s c).isSome
  /-- `Delete` signals the collector of the client, and there is one -/
  signals : ∀ c k, s.collectorThread c = some k → ∃ col, s.live k = some col ∧ c ∈ col.clients

section Sound

variable [DecidableEq K] [DecidableEq C] {s : Conf K C}

theorem registration_sound (hr : (system K C).ReachableVia (fun s a => Keeps s a) s) :
    RegistrationSound s ∧
      ∀ a s', fire s a = some s' → ((∀ c, Coherent s' c) ↔ Keeps s a) := by
  have hi := reachable_inv hr
  refine ⟨?_,fun a s' h => ⟨fun hc => ?_,fun hk => (fire_inv hi h hk).coherent⟩⟩
  · constructor
    case coherent => exact hi.coherent
    case checks => exact hi.alive
    case registers =>
      intro k c hk hc
      obtain ⟨col,hk⟩ := Option.isSome_iff_exists.mp hk
      rw [registerClient_eq hi hk hc]
      rfl
    case destroys =>
      intro c
      unfold destroyClient
      cases hc : s.registeredWith c with
      | none =>
        rw [(hi.free c hc).2]
        rfl
      | some k =>
        rw [(hi.bound c k hc).2.1]
        obtain ⟨d,hd,-⟩ := deregisterClient_eq hi hc
        exact Option.isSome_of_eq_some hd
    case signals =>
      intro c k hck
      cases hc : s.registeredWith c with
      | none => cases (hi.free c hc).2.symm.trans hck
      | some k' =>
        obtain ⟨-,h2,hl⟩ := hi.bound c k' hc
        obtain rfl := Option.some.inj (h2.symm.trans hck)
        exact hl
  · by_contra hk
    obtain ⟨c,hn⟩ := not_coherent hi h hk
    exact hn (hc c)

/-- Two collectors with clients 0 and 1, passes, and the destruction of a third one. -/
def keptSchedule : List (Label Party Party) :=
  [.construct 0,.construct 1,.construct 2,.register 0 0,.register 1 1,.enqueue 1,
    .collect 1 fun _ => true,.collect 0 fun _ => false,.destroy 2]

def keptConf : Conf Party Party :=
  ((system Party Party).execVia (fun s a => Keeps s a) start keptSchedule).getD start

example : keptConf.collectorThread 1 = some 1 ∧ (keptConf.live 2).isNone := by decide

theorem registration_sound_keptConf : RegistrationSound keptConf ∧
    ∀ a s', fire keptConf a = some s' → ((∀ c, Coherent s' c) ↔ Keeps keptConf a) :=
  registration_sound (.execViaD keptSchedule (.init rfl))

def boundSchedule : List (Label Party Party) := [.construct 0,.construct 1,.register 0 0]

def endConf (as : List (Label Party Party)) : Conf Party Party :=
  ((system Party Party).exec start as).getD start

/-- A client is deregistered, or its collector destroyed; in both cases another collector cannot
register it, and in the first one its destructor fails too. -/
theorem not_registration_sound :
    (∃ s : Conf Party Party, (system Party Party).Reachable s ∧ s.failed = false ∧
      ¬Coherent s 0 ∧ (destroyClient s 0).isNone ∧
      ∃ s', fire s (.register 1 0) = some s' ∧ s'.failed) ∧
    ∃ s : Conf Party Party, (system Party Party).Reachable s ∧ s.failed = false ∧
      ¬Coherent s 0 ∧ ∃ s', fire s (.register 1 0) = some s' ∧ s'.failed := by
  refine ⟨⟨endConf (boundSchedule++[.deregister 0 0]),.execD _ (.init rfl),rfl,?_,rfl,_,rfl,rfl⟩,
    endConf (boundSchedule++[.destroy 0]),.execD _ (.init rfl),rfl,?_,_,rfl,rfl⟩
  · rintro (⟨-,h,-⟩ | ⟨h,-⟩)
    · exact absurd h (by decide)
    · exact absurd h (by decide)
  · rintro (⟨h,-⟩ | ⟨-,k,col,h,-⟩)
    · exact absurd h (by decide)
    · cases h

end Sound

end Registration
end Benedias
