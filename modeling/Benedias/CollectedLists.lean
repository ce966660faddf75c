import Benedias.CallDiscipline
import Benedias.CollectCalls
import Benedias.Composition
import Benedias.PendingGarbage
import Benedias.QueuedObjects

/-! `CollectorThread` with `HazardPointerList`s for clients. `HaveDeletes` reads the list, `Collect`
runs on it step by step, and a push onto a gc list is followed by the signal. Other threads may call
`Collect` too, at any time: also when the list has been deregistered, as its destructor does. -/
namespace Benedias
namespace SharedList

open Interleaving HazardPointerList

variable {T L : Type}

def Label.by [DecidableEq T] (t : T) : Label T L → Bool
  | .acquireNode u | .prime u _ | .acquire u _ _ | .validate u _ _ | .clear u _ | .release u _ _
  | .delete u _ _ | .collect u | .step u => u = t
  | .store _ _ => false

variable [DecidableEq T] {c c' : Conf T L} {place : ℕ → Place T} {t u : T} {p : Pc L} {w : Write}

theorem haveDeletes_push (hi : Inv c place) (h : (c.pc t).next c = some (w,p)) (hw : w.pushesGc) :
    (c.write t w).mem.haveDeletes := by
  have hwrites := next_writes h
  generalize hp : c.pc t = q at hwrites
  cases hwrites with
  | @push n head f hl =>
    cases head with
    | freeList => cases hw
    | gcList =>
      have hn : n ∈ c.held t := hi.own t n (by rw [hp]; rfl)
      have hne := hi.shared.ne_endNode (hi.shared.born_held hn)
      simp [haveDeletes,Conf.write,Conf.give,hne]
  | _ => cases hw

omit [DecidableEq T] in
theorem gc_eq_nil (hi : Inv c place) (hd : c.mem.haveDeletes = false) : c.gc = [] := by
  have hend : c.mem.gcList = c.mem.endNode := by simpa [haveDeletes] using hd
  have hchain := hi.shared.gcChain
  rw [hend] at hchain
  exact hchain.eq_nil

/-- Only a push makes the gc list non-empty: `remove` takes off what is there. -/
theorem haveDeletes_write (hi : Inv c place) (h : (c.pc t).next c = some (w,p)) (hw : ¬w.pushesGc)
    (hd : c.mem.haveDeletes = false) : (c.write t w).mem.haveDeletes = false := by
  have hu : ∀ r g d, w ≠ .unlink r g d := by
    rintro r g d rfl
    obtain ⟨nx,hp,-⟩ := next_unlink h
    have hpos := hi.pos t
    rw [hp] at hpos
    have hg : g ∈ c.gc := hpos.1.mem
    rw [gc_eq_nil hi hd] at hg
    cases hg
  rw [haveDeletes,gcList_write hw hu,endNode_write]
  exact hd

variable [DecidableEq L]

/-- The step takes the last node off the gc list. -/
def Conf.empties (c : Conf T L) (a : Label T L) : Bool :=
  c.mem.haveDeletes && (fire c a).any fun c' => !c'.mem.haveDeletes

/-- What `HaveDeletes` finds changes by a push, and when the last node is taken off. -/
theorem fire_haveDeletes {a : Label T L} (hi : Inv c place) (h : fire c a = some c') :
    c'.mem.haveDeletes =
      ((c.writeOf a).pushesGc || (c.mem.haveDeletes && !c.empties a)) := by
  have he : c.empties a = (c.mem.haveDeletes && !c'.mem.haveDeletes) := by simp [Conf.empties,h]
  have hquiet : (c.writeOf a).pushesGc = false →
      (c.mem.haveDeletes = false → c'.mem.haveDeletes = false) → c'.mem.haveDeletes =
        ((c.writeOf a).pushesGc || (c.mem.haveDeletes && !c.empties a)) := by
    intro hp hd
    rw [hp,he]
    cases hc : c.mem.haveDeletes with
    | true => simp
    | false => simp [hd hc]
  cases a with
  | step t =>
    simp only [fire,Option.map_eq_some_iff] at h
    obtain ⟨⟨w,p⟩,hn,rfl⟩ := h
    have hw : c.writeOf (.step t) = w := by simp [Conf.writeOf,hn]
    by_cases hp : w.pushesGc
    · rw [hw,hp,Bool.true_or]
      exact haveDeletes_push hi hn hp
    · exact hquiet (by simpa [hw] using hp) (haveDeletes_write hi hn hp)
  | store l obj =>
    cases h
    exact hquiet rfl id
  | acquire t n l | validate t n l | clear t n | release t n drop | delete t n drop =>
    simp only [fire,Conf.call] at h
    split at h <;> cases h
    exact hquiet rfl id
  | acquireNode t | prime t k | collect t =>
    simp only [fire] at h
    split at h <;> cases h
    exact hquiet rfl id

theorem fire_pc {a : Label T L} (ha : a.by t) (h : fire c a = some c') (hu : u ≠ t) :
    c'.pc u = c.pc u := by
  cases a with
  | step v =>
    obtain rfl : v = t := by simpa [Label.by] using ha
    simp only [fire,Option.map_eq_some_iff] at h
    obtain ⟨⟨w,p⟩,hn,rfl⟩ := h
    simp [Conf.setPc,hu]
  | store l obj => cases ha
  | acquire v n l | validate v n l | clear v n | release v n drop | delete v n drop =>
    obtain rfl : v = t := by simpa [Label.by] using ha
    simp only [fire,Conf.call] at h
    split at h <;> cases h
    simp [Conf.setPc,hu]
  | acquireNode v | prime v k | collect v =>
    obtain rfl : v = t := by simpa [Label.by] using ha
    simp only [fire] at h
    split at h <;> cases h
    simp [Conf.setPc,hu]

omit [DecidableEq T] [DecidableEq L] in
theorem inside_of_collecting (hp : p.collecting) : p.inside = some .collect := by
  cases p with
  | colTest | colLock => rfl
  | _ => exact inside_of_critical hp

omit [DecidableEq T] [DecidableEq L] in
theorem collecting_of_busy (h : p.next c = some (w,q)) (hp : p.busy) : p.collecting := by
  cases p with
  | failed | notFound => cases h
  | colUnlock b => cases hp
  | _ => exact hp

omit [DecidableEq T] [DecidableEq L] in
/-- `Collect` pushes onto the free list only. -/
theorem collecting_pushesGc (ha : (c.pc t).aimed) (hp : (c.pc t).collecting) :
    (c.writeOf (.step t)).pushesGc = false := by
  cases hn : (c.pc t).next c with
  | none => simp [Conf.writeOf,hn,Write.pushesGc]
  | some r =>
    obtain ⟨w,q⟩ := r
    have hw : c.writeOf (.step t) = w := by simp [Conf.writeOf,hn]
    rw [hw]
    by_contra h
    have hd := inside_of_pushesGc hn ha (by simpa using h)
    cases hd.symm.trans (inside_of_collecting hp)

end SharedList

namespace CollectedLists

open Interleaving CollectorThread

variable {D T C L : Type}

/-- In the lists of the clients, the thread of `Run` is `none`. -/
abbrev Conf (D T C L : Type) :=
  Joint.Conf (CollectorRun.Conf D T C) (SharedList.Conf (Option D) L) C

inductive Label (D T C L : Type)
  | thread
  /-- a step of others that touches no list -/
  | other (a : CollectorRun.Label D T C)
  /-- thread `d` calls a function of the list `c`, or goes on in it -/
  | call (d : D) (c : C) (a : SharedList.Label (Option D) L)
  | store (c : C) (l : L) (obj : ℕ)

def haveDeletes (s : Conf D T C L) (c : C) : Bool := (s.each c).mem.haveDeletes

def view (s : Conf D T C L) : CollectorRun.Conf D T C :=
  { s.one with base := { s.one.base with haveDeletes := haveDeletes s } }

/-- The steps of `RegisterClient`, `DeregisterClient`, `Signal` and `Stop`. -/
def ofOthers : CollectorRun.Label D T C → Bool
  | .run _ _ | .delete _ _ | .emptied _ => false
  | _ => true

def Reads [DecidableEq C] (c : C) : CollectorPc C → SharedList.Pc L → Prop
  | .inside _ _ c', p => if c' = c then p.busy = true else p = .idle
  | .release _ _ c', p => p = .idle ∨ c' = c ∧ ∃ b, p = .colUnlock b
  | _, p => p = .idle

/-- The thread of `Run` is in a list exactly while the collector is in `Collect` of the client. -/
def Linked [DecidableEq C] (s : Conf D T C L) : Prop :=
  ∀ c, Reads c s.one.base.collector ((s.each c).pc none)

section Joint

variable [DecidableEq D] [DecidableEq T] [DecidableEq C] [DecidableEq L]

/-- After its push a thread first signals the collector. -/
def allowed (s : Conf D T C L) : Label D T C L → Bool
  | .thread | .store _ _ _ => true
  | .other a => ofOthers a
  | .call d _ a => a.by (some d) ∧ s.one.deleter d = .idle

def acts (s : Conf D T C L) : Label D T C L → Option (CollectorRun.Label D T C)
  | .thread =>
    match s.one.base.collector with
    | .inside _ _ c =>
      match ((s.each c).pc none).returns (s.each c).mem with
      | some ok => some (.run ok (s.each c).mem.haveDeletes)
      | none => if (s.each c).empties (.step none) then some (.emptied c) else none
    -- the state is set back when `Collect` has released its lock
    | .release _ _ c => if (s.each c).pc none = .idle then some (.run true false) else none
    | _ => some (.run true false)
  | .other a => some a
  | .call d c a =>
    if ((s.each c).writeOf a).pushesGc then some (.delete d c)
    else if (s.each c).empties a then some (.emptied c) else none
  | .store _ _ _ => none

def moves (s : Conf D T C L) : Label D T C L → Option (C × SharedList.Label (Option D) L)
  | .thread =>
    match s.one.base.collector with
    | .collect _ _ c => some (c,.collect none)
    | .inside _ _ c => some (c,.step none)
    | .release _ _ c => if (s.each c).pc none = .idle then none else some (c,.step none)
    | _ => none
  | .other _ => none
  | .call _ c a => some (c,a)
  | .store c l obj => some (c,.store l obj)

def joint (D T C L : Type) [DecidableEq D] [DecidableEq T] [DecidableEq C] [DecidableEq L] :
    Joint (CollectorRun.Conf D T C) (CollectorRun.Label D T C) (SharedList.Conf (Option D) L)
      (SharedList.Label (Option D) L) C (Label D T C L) where
  one := CollectorRun.system D T C
  each := SharedList.system (Option D) L
  view := view
  allowed := allowed
  acts := acts
  moves := moves

def system (D T C L : Type) [DecidableEq D] [DecidableEq T] [DecidableEq C] [DecidableEq L] :
    System (Conf D T C L) (Label D T C L) := (joint D T C L).system

/-- Every step on a list is as reclamation needs it, and no registration goes unnoticed. -/
def Disciplined (s : Conf D T C L) (b : Label D T C L) : Prop :=
  (∀ m ∈ moves s b, SharedList.Careful (s.each m.1) m.2) ∧
    ∀ a ∈ acts s b, CollectorRun.Noticed (view s) a

theorem linked_start {s : Conf D T C L} (h : (joint D T C L).system.init s) :
    Linked s ∧ CollectorRun.start = view s := by
  obtain ⟨one,each⟩ := s
  obtain ⟨rfl,h⟩ := h
  obtain rfl : each = fun _ => SharedList.start := funext h
  exact ⟨fun _ => rfl,rfl⟩

end Joint

section Steps

variable {s s' : Conf D T C L}

theorem view_eq (h : s'.one.base.haveDeletes = haveDeletes s') : view s' = s'.one := by
  rw [view,← h]

theorem view_keep (hone : s'.one = s.one) (h : haveDeletes s' = haveDeletes s) :
    view s' = view s := by
  rw [view,view,h,hone]

variable [DecidableEq C]

theorem reads_idle {p : CollectorPc C} (h : ∀ curr pending c, p ≠ .inside curr pending c) (c : C) :
    Reads c p (.idle : SharedList.Pc L) := by
  cases p with
  | inside curr pending c => exact absurd rfl (h curr pending c)
  | release => exact .inl rfl
  | _ => exact rfl

theorem Linked.go (hidle : ∀ c, (s.each c).pc none = .idle) (he : s'.each = s.each)
    (hd : s'.one.base.haveDeletes = haveDeletes s)
    (hin : ∀ curr pending c, s'.one.base.collector ≠ .inside curr pending c) :
    Linked s' ∧ view s' = s'.one := by
  refine ⟨fun c => ?_,view_eq ?_⟩
  · rw [he,hidle c]
    exact reads_idle hin c
  · rw [hd]
    funext c
    simp only [haveDeletes,he]

theorem Linked.walk (hi : CollectorThread.Inv (view s).base)
    (hc : ∀ curr pending c, s.one.base.collector ≠ .collect curr pending c)
    (hin : ∀ curr pending c, s.one.base.collector ≠ .inside curr pending c)
    (hidle : ∀ c, (s.each c).pc none = .idle)
    (h : stepCollector (view s).base true false = some s'.one.base) (he : s'.each = s.each) :
    Linked s' ∧ view s' = s'.one := by
  generalize hs : s'.one.base = r at h
  have hgo : r.haveDeletes = haveDeletes s →
      (∀ curr pending c, r.collector ≠ .inside curr pending c) → Linked s' ∧ view s' = s'.one := by
    subst hs
    exact Linked.go hidle he
  cases stepCollector_walk hi h with
  | call hp => exact absurd hp (hc _ _ _)
  | ret hp => exact absurd hp (hin _ _ _)
  | lock | next | done | skip | take | empty | full | won | lost | unlock | finish | back =>
    exact hgo rfl (by simp)

section List

variable {c : C} {l : SharedList.Conf (Option D) L} {curr : ℕ} {pending : Bool}

theorem Linked.list (he : s'.each = Function.update s.each c l)
    (hreads : ∀ c' ≠ c, Reads c' s'.one.base.collector ((s.each c').pc none))
    (hself : Reads c s'.one.base.collector (l.pc none)) : Linked s' := by
  intro c'
  rw [he]
  by_cases hc : c' = c
  · subst hc
    simpa using hself
  · simpa [hc] using hreads c' hc

theorem haveDeletes_list (he : s'.each = Function.update s.each c l) :
    haveDeletes s' = Function.update (haveDeletes s) c l.mem.haveDeletes := by
  funext c'
  rw [haveDeletes,he]
  by_cases hc : c' = c
  · subst hc
    simp
  · simp [hc,haveDeletes]

/-- What stays in the list that takes the step stays in all of them. -/
theorem each_same {α : Type} {f : SharedList.Conf (Option D) L → α}
    (he : s'.each = Function.update s.each c l) (hf : f l = f (s.each c)) (c' : C) :
    f (s'.each c') = f (s.each c') := by
  rw [he]
  by_cases hc : c' = c
  · subst hc
    simpa using hf
  · simp [hc]

theorem haveDeletes_same (he : s'.each = Function.update s.each c l)
    (hd : l.mem.haveDeletes = (s.each c).mem.haveDeletes) : haveDeletes s' = haveDeletes s :=
  funext (each_same (f:=fun l => l.mem.haveDeletes) he hd)

variable [DecidableEq D] [DecidableEq L]

omit [DecidableEq C] in
theorem step_pc (h : SharedList.fire (s.each c) (.step none) = some l) : ∃ w p,
    ((s.each c).pc none).next (s.each c) = some (w,p) ∧ l.pc none = p ∧
      l.mem = ((s.each c).write none w).mem := by
  simp only [SharedList.fire,Option.map_eq_some_iff] at h
  obtain ⟨⟨w,p⟩,hn,rfl⟩ := h
  exact ⟨w,p,hn,by simp [SharedList.Conf.setPc],rfl⟩

theorem Linked.call (hl : Linked s) (hp : s.one.base.collector = .collect curr pending c)
    (h : stepCollector (view s).base true false = some s'.one.base)
    (hf : SharedList.fire (s.each c) (.collect none) = some l)
    (he : s'.each = Function.update s.each c l) : Linked s' ∧ view s' = s'.one := by
  have hone : s'.one.base = { (view s).base with collector := .inside curr pending c } := by
    simpa [stepCollector,view,hp] using h.symm
  have hcol : s'.one.base.collector = .inside curr pending c := by rw [hone]
  simp only [SharedList.fire] at hf
  split at hf <;> cases hf
  refine ⟨Linked.list he (fun c' hc => ?_) ?_,view_eq ?_⟩
  · have h := hl c'
    rw [hp] at h
    rw [hcol]
    simpa [Reads,Ne.symm hc] using h
  · rw [hcol]
    simp [Reads,SharedList.Conf.setPc,SharedList.Pc.busy,SharedList.Pc.collecting]
  · rw [hone,haveDeletes_same he rfl]
    rfl

/-- A step inside of `Collect` that does not decide its result, or the one that leaves it. -/
theorem Linked.inside (hl : Linked s) (hcol : s'.one.base.collector = s.one.base.collector)
    (hp : s.one.base.collector = .inside curr pending c ∧
        ((s.each c).pc none).returns (s.each c).mem = none ∨
      s.one.base.collector = .release curr pending c ∧ (s.each c).pc none ≠ .idle)
    (hf : SharedList.fire (s.each c) (.step none) = some l)
    (he : s'.each = Function.update s.each c l) : Linked s' := by
  obtain ⟨w,p,hn,hpc,-⟩ := step_pc hf
  have hreads := hl c
  refine Linked.list he (fun c' _ => hcol ▸ hl c') ?_
  rcases hp with ⟨hp,hret⟩ | ⟨hp,hne⟩
  · rw [hp] at hreads
    have hbusy : ((s.each c).pc none).busy := by simpa [Reads] using hreads
    rw [hcol,hp,hpc]
    simpa [Reads] using SharedList.busy_next hn hbusy hret
  · rw [hp] at hreads
    obtain ⟨-,b,hb⟩ := hreads.resolve_left hne
    rw [hb] at hn
    cases hn
    rw [hcol,hp,hpc]
    exact .inl rfl

theorem Linked.ret (hl : Linked s) (hp : s.one.base.collector = .inside curr pending c) {ok : Bool}
    (hret : ((s.each c).pc none).returns (s.each c).mem = some ok)
    (h : stepCollector (view s).base ok (s.each c).mem.haveDeletes = some s'.one.base)
    (hf : SharedList.fire (s.each c) (.step none) = some l)
    (he : s'.each = Function.update s.each c l) : Linked s' ∧ view s' = s'.one := by
  obtain ⟨w,p,hn,hpc,hmem⟩ := step_pc hf
  obtain ⟨rfl,hp'⟩ := SharedList.returns_next hn hret
  have hone : s'.one.base = { (view s).base with
      haveDeletes := Function.update (haveDeletes s) c (s.each c).mem.haveDeletes
      collector := .release curr (if ok then pending else true) c } := by
    simpa [stepCollector,view,hp] using h.symm
  have hcol : s'.one.base.collector = .release curr (if ok then pending else true) c := by rw [hone]
  refine ⟨Linked.list he (fun c' hc => ?_) ?_,view_eq ?_⟩
  · have h := hl c'
    rw [hp] at h
    rw [hcol]
    exact .inl (by simpa [Reads,Ne.symm hc] using h)
  · rw [hcol,hpc]
    exact hp'.imp_right fun hb => ⟨rfl,hb⟩
  · rw [hone,haveDeletes_list he,hmem]
    rfl

end List

variable [DecidableEq D] [DecidableEq T]

theorem run_cases {v r : CollectorRun.Conf D T C} {ok left : Bool}
    (hw : v.run = .collect ↔ v.base.collector ≠ .idle)
    (h : CollectorRun.fire v (.run ok left) = some r) :
    (v.base.collector = .idle ∧ (r.base = v.base ∨ r.base = { v.base with collector := .lock 0 false })) ∨
      stepCollector v.base ok left = some r.base := by
  have hidle : v.run ≠ .collect → v.base.collector = .idle := fun hr => by
    by_contra hc
    exact hr (hw.mpr hc)
  cases CollectorRun.fire_move h with
  | collect hr hl hf => exact .inr hf
  | @begin ok left b hr ha hf =>
    have hi := hidle (by simp [hr])
    simp only [CollectorThread.fire,if_pos hi] at hf
    exact .inl ⟨hi,.inr (Option.some.inj hf).symm⟩
  | leave hr | sleep hr | repost hr | wake hr | clear hr =>
    exact .inl ⟨hidle (by simp [hr]),.inl rfl⟩

theorem others_base {v r : CollectorRun.Conf D T C} {a : CollectorRun.Label D T C}
    (hi : CollectorThread.Inv v.base) (ha : ofOthers a) (h : CollectorRun.fire v a = some r) :
    r.base.haveDeletes = v.base.haveDeletes ∧ r.base.collector = v.base.collector := by
  cases CollectorRun.fire_move h with
  | @clients a b hof ho hf =>
    exact fire_clients hi hf (by rintro rfl; cases hof) (by rintro _ _ rfl; cases hof)
      (by rintro _ rfl; cases hof) (by rintro _ rfl; cases hof)
  | push | emptied | begin | leave | collect | sleep | repost | wake | clear => cases ha
  | _ => exact ⟨rfl,rfl⟩

theorem push_base {v r : CollectorRun.Conf D T C} {d : D} {c : C} (hi : CollectorThread.Inv v.base)
    (h : CollectorRun.fire v (.delete d c) = some r) :
    r.base.haveDeletes = Function.update v.base.haveDeletes c true ∧
      r.base.collector = v.base.collector := by
  cases CollectorRun.fire_move h with
  | push hd hf =>
    cases fire_cases hi hf with
    | enqueue => exact ⟨rfl,rfl⟩

theorem emptied_base {v r : CollectorRun.Conf D T C} {c : C} (hi : CollectorThread.Inv v.base)
    (h : CollectorRun.fire v (.emptied c) = some r) :
    r.base.haveDeletes = Function.update v.base.haveDeletes c false ∧
      r.base.collector = v.base.collector := by
  cases CollectorRun.fire_move h with
  | emptied hf =>
    cases fire_cases hi hf with
    | emptied => exact ⟨rfl,rfl⟩

variable [DecidableEq L]

/-- Inside of `Collect` the thread of `Run` empties the list, returns, or is not seen. -/
theorem Linked.threadInside {place : ℕ → SharedList.Place (Option D)} {c : C} {curr : ℕ}
    {pending : Bool} (hl : Linked s)
    (hw : (view s).run = .collect ↔ (view s).base.collector ≠ .idle)
    (hi : CollectorThread.Inv (view s).base) (hlist : SharedList.Inv (s.each c) place)
    (haimed : ((s.each c).pc none).aimed) (hp : s.one.base.collector = .inside curr pending c)
    (hact : (joint D T C L).act s .thread = some s'.one)
    (hmove : (joint D T C L).move s .thread = some s'.each) :
    Linked s' ∧ match acts s .thread with
      | some _ => view s' = s'.one
      | none => view s' = view s := by
  simp only [Joint.act,Joint.move,joint,acts,moves,hp] at hact hmove ⊢
  obtain ⟨l,hf,he⟩ := Option.map_eq_some_iff.mp hmove
  have hf : SharedList.fire (s.each c) (.step none) = some l := hf
  have hreads := hl c
  rw [hp] at hreads
  obtain ⟨w,p,hn,-⟩ := step_pc hf
  have hpush := SharedList.collecting_pushesGc haimed
    (SharedList.collecting_of_busy hn (by simpa [Reads] using hreads))
  have hd := SharedList.fire_haveDeletes hlist hf
  rw [hpush,Bool.false_or] at hd
  cases hret : ((s.each c).pc none).returns (s.each c).mem with
  | some ok =>
    simp only [hret] at hact ⊢
    rcases run_cases hw hact with ⟨hk,-⟩ | h
    · cases hp.symm.trans hk
    · exact hl.ret hp hret h hf he.symm
  | none =>
    by_cases hem : (s.each c).empties (.step none)
    · simp only [hret,if_pos hem] at hact ⊢
      obtain ⟨hbase,hcol⟩ := emptied_base hi hact
      refine ⟨hl.inside hcol (.inl ⟨hp,hret⟩) hf he.symm,view_eq ?_⟩
      rw [hbase,haveDeletes_list he.symm,hd,hem,Bool.not_true,Bool.and_false]
      rfl
    · simp only [hret,if_neg hem] at hact ⊢
      have hone := (Option.some.inj hact).symm
      refine ⟨hl.inside (by rw [hone]) (.inl ⟨hp,hret⟩) hf he.symm,view_keep hone ?_⟩
      exact haveDeletes_same he.symm (by simpa [hem] using hd)

theorem Linked.thread {place : C → ℕ → SharedList.Place (Option D)} (hl : Linked s)
    (hw : (view s).run = .collect ↔ (view s).base.collector ≠ .idle)
    (hi : CollectorThread.Inv (view s).base) (hlists : ∀ c, SharedList.Inv (s.each c) (place c))
    (haimed : ∀ c, ((s.each c).pc none).aimed)
    (hact : (joint D T C L).act s .thread = some s'.one)
    (hmove : (joint D T C L).move s .thread = some s'.each) :
    Linked s' ∧ match acts s .thread with
      | some _ => view s' = s'.one
      | none => view s' = view s := by
  have hwalk : (∀ curr pending c, s.one.base.collector ≠ .collect curr pending c) →
      (∀ curr pending c, s.one.base.collector ≠ .inside curr pending c) →
      (∀ c, (s.each c).pc none = .idle) →
      CollectorRun.fire (view s) (.run true false) = some s'.one → s'.each = s.each →
      Linked s' ∧ view s' = s'.one := by
    intro hc hin hidle h he
    rcases run_cases hw h with ⟨hk,hb | hb⟩ | hf
    · exact Linked.go hidle he (by rw [hb]; rfl) (by simp [hb,hk])
    · exact Linked.go hidle he (by rw [hb]; rfl) (by simp [hb])
    · exact Linked.walk hi hc hin hidle hf he
  cases hp : s.one.base.collector with
  | collect curr pending c =>
    simp only [Joint.act,Joint.move,joint,acts,moves,hp] at hact hmove ⊢
    obtain ⟨l,hf,he⟩ := Option.map_eq_some_iff.mp hmove
    rcases run_cases hw hact with ⟨hk,-⟩ | h
    · cases hp.symm.trans hk
    · exact hl.call hp h hf he.symm
  | inside curr pending c => exact hl.threadInside hw hi (hlists c) (haimed c) hp hact hmove
  | release curr pending c =>
    simp only [Joint.act,Joint.move,joint,acts,moves,hp] at hact hmove ⊢
    by_cases hidle : (s.each c).pc none = .idle
    · simp only [if_pos hidle] at hact hmove ⊢
      refine hwalk (by simp [hp]) (by simp [hp]) (fun c' => ?_) hact (Option.some.inj hmove).symm
      have hr := hl c'
      rw [hp] at hr
      rcases hr with hr | ⟨rfl,-⟩
      · exact hr
      · exact hidle
    · simp only [if_neg hidle] at hact hmove ⊢
      obtain ⟨l,hf,he⟩ := Option.map_eq_some_iff.mp hmove
      have hone := (Option.some.inj hact).symm
      refine ⟨hl.inside (by rw [hone]) (.inr ⟨hp,hidle⟩) hf he.symm,
        view_keep hone (haveDeletes_same he.symm ?_)⟩
      have hr := hl c
      rw [hp] at hr
      obtain ⟨-,b,hb⟩ := hr.resolve_left hidle
      obtain ⟨w,p,hn,-,hmem⟩ := step_pc hf
      rw [hb] at hn
      cases hn
      rw [hmem]
      rfl
  | _ =>
    simp only [Joint.act,Joint.move,joint,acts,moves,hp] at hact hmove ⊢
    refine hwalk (by simp [hp]) (by simp [hp]) (fun c => ?_) hact (Option.some.inj hmove).symm
    have hr := hl c
    rw [hp] at hr
    exact hr

theorem Linked.user {place : ℕ → SharedList.Place (Option D)} {d : D} {c : C}
    {a : SharedList.Label (Option D) L} (hl : Linked s) (hi : CollectorThread.Inv (view s).base)
    (hlist : SharedList.Inv (s.each c) place) (hby : a.by (some d))
    (hact : (joint D T C L).act s (.call d c a) = some s'.one)
    (hmove : (joint D T C L).move s (.call d c a) = some s'.each) :
    Linked s' ∧ match acts s (.call d c a) with
      | some _ => view s' = s'.one
      | none => view s' = view s := by
  simp only [Joint.act,Joint.move,joint,moves] at hact hmove
  obtain ⟨l,hf,he⟩ := Option.map_eq_some_iff.mp hmove
  have hd := SharedList.fire_haveDeletes hlist hf
  have hlinked : s'.one.base.collector = s.one.base.collector → Linked s' := fun hcol => by
    refine Linked.list he.symm (fun c' _ => hcol ▸ hl c') ?_
    rw [hcol,SharedList.fire_pc hby hf (by simp)]
    exact hl c
  by_cases hp : ((s.each c).writeOf a).pushesGc
  · simp only [acts,if_pos hp] at hact ⊢
    obtain ⟨hbase,hcol⟩ := push_base hi hact
    refine ⟨hlinked hcol,view_eq ?_⟩
    rw [hbase,haveDeletes_list he.symm,hd,hp,Bool.true_or]
    rfl
  · simp only [acts,if_neg hp] at hact ⊢
    by_cases hem : (s.each c).empties a
    · simp only [if_pos hem] at hact ⊢
      obtain ⟨hbase,hcol⟩ := emptied_base hi hact
      refine ⟨hlinked hcol,view_eq ?_⟩
      rw [hbase,haveDeletes_list he.symm,hd]
      simp only [hem,hp,Bool.not_true,Bool.and_false,Bool.or_false]
      rfl
    · simp only [if_neg hem] at hact ⊢
      have hone := (Option.some.inj hact).symm
      refine ⟨hlinked (by rw [hone]),view_keep hone (haveDeletes_same he.symm ?_)⟩
      simpa [hp,hem] using hd

/-- Every step keeps the link, and what the collector sees changes by its own steps only. -/
theorem Linked.fire {place : C → ℕ → SharedList.Place (Option D)} {b : Label D T C L} (hl : Linked s)
    (hw : (view s).run = .collect ↔ (view s).base.collector ≠ .idle)
    (hi : CollectorThread.Inv (view s).base) (hlists : ∀ c, SharedList.Inv (s.each c) (place c))
    (haimed : ∀ c, ((s.each c).pc none).aimed) (h : (joint D T C L).fire s b = some s') :
    Linked s' ∧ match acts s b with
      | some _ => view s' = s'.one
      | none => view s' = view s := by
  obtain ⟨hal,hact,hmove⟩ := Joint.fire_some h
  cases b with
  | thread => exact hl.thread hw hi hlists haimed hact hmove
  | call d c a => exact hl.user hi (hlists c) (of_decide_eq_true hal).1 hact hmove
  | other a =>
    simp only [Joint.act,Joint.move,joint,acts,moves] at hact hmove ⊢
    have he := (Option.some.inj hmove).symm
    obtain ⟨hd,hc⟩ := others_base hi hal hact
    have hc : s'.one.base.collector = s.one.base.collector := hc
    refine ⟨fun c => ?_,view_eq ?_⟩
    · rw [he,hc]
      exact hl c
    · rw [hd]
      funext c
      simp only [haveDeletes,view,he]
  | store c x obj =>
    simp only [Joint.act,Joint.move,joint,acts,moves] at hact hmove ⊢
    obtain ⟨l,hf,he⟩ := Option.map_eq_some_iff.mp hmove
    cases hf
    have hone := (Option.some.inj hact).symm
    refine ⟨Linked.list he.symm (fun c' _ => hone ▸ hl c') ?_,
      view_keep hone (haveDeletes_same he.symm rfl)⟩
    rw [hone]
    exact hl c

theorem each_reachable (hr : (system D T C L).ReachableVia Disciplined s) (c : C) :
    (SharedList.system (Option D) L).ReachableVia SharedList.Careful (s.each c) := by
  refine Joint.each_reachable (J:=joint D T C L) (fun s b hd c a hm => ?_) hr c
  exact hd.1 (c,a) hm

theorem reachable_fire (hr : (system D T C L).ReachableVia Disciplined s) (hl : Linked s)
    (ho : (CollectorRun.system D T C).ReachableVia CollectorRun.Noticed (view s)) {b : Label D T C L}
    (h : (joint D T C L).fire s b = some s') :
    Linked s' ∧ match acts s b with
      | some _ => view s' = s'.one
      | none => view s' = view s := by
  choose place hplace using fun c => (SharedList.reachable_reclaims (each_reachable hr c)).2
  obtain ⟨ids,hw⟩ := CollectorRun.reachable_watch ho
  exact hl.fire hw.passing (CollectorRun.reachable_base ho.reachable) hplace
    (fun c => SharedList.reachable_aimed (each_reachable hr c) none) h

theorem reachable_linked (hr : (system D T C L).ReachableVia Disciplined s) :
    Linked s ∧ (CollectorRun.system D T C).ReachableVia CollectorRun.Noticed (view s) := by
  refine Joint.one_reachable (J:=joint D T C L) (fun s hs => ?_) (fun s b s' hs ho hl hd hf => ?_) hr
  · obtain ⟨hl,hv⟩ := linked_start hs
    exact ⟨hl,hv.symm⟩
  · obtain ⟨hl',hv⟩ := reachable_fire hs hl ho hf
    refine ⟨hl',?_⟩
    cases ha : (joint D T C L).acts s b with
    | none =>
      have ha : acts s b = none := ha
      rw [ha] at hv
      exact hv
    | some a =>
      have ha : acts s b = some a := ha
      rw [ha] at hv
      exact ⟨hd.2 a ha,hv⟩

/-- The collector sleeps, and no thread is in a call. -/
structure AtRest (s : Conf D T C L) : Prop where
  active : s.one.active
  run : s.one.run = .wait
  sema : s.one.sema = false
  deleters : ∀ d, s.one.deleter d = .idle
  clients : ∀ t, s.one.base.pc t = .idle
  users : ∀ c d, (s.each c).pc (some d) = .idle

omit [DecidableEq D] [DecidableEq T] [DecidableEq L] in
/-- The thread of `Run` is in the list of the client that the collector has in its hands. -/
theorem Linked.clientp (hl : Linked s) {c : C} (hp : (s.each c).pc none ≠ .idle) :
    s.one.base.collector.clientp = some c := by
  have hreads := hl c
  cases hcol : s.one.base.collector with
  | inside curr pending c' =>
    rw [hcol] at hreads
    by_cases hcc : c' = c
    · exact congrArg some hcc
    · exact absurd (by simpa only [Reads,if_neg hcc] using hreads) hp
  | release curr pending c' =>
    rw [hcol] at hreads
    exact congrArg some (hreads.resolve_left hp).1
  | _ =>
    rw [hcol] at hreads
    exact absurd hreads hp

omit [DecidableEq D] [DecidableEq T] [DecidableEq L] in
theorem Linked.waits (hl : Linked s) {c : C} (hp : (s.each c).pc none = .colLock) :
    ∃ curr pending, s.one.base.collector = .inside curr pending c := by
  have hreads := hl c
  rw [hp] at hreads
  cases hcol : s.one.base.collector with
  | inside curr pending c' =>
    rw [hcol] at hreads
    by_cases hcc : c' = c
    · exact ⟨curr,pending,hcc ▸ rfl⟩
    · simp [Reads,hcc] at hreads
  | _ =>
    rw [hcol] at hreads
    simp [Reads] at hreads

end Steps

instance [Fintype D] [Fintype L] [DecidableEq D] [DecidableEq T] [DecidableEq C] [DecidableEq L]
    (s : Conf D T C L) (b : Label D T C L) : Decidable (Disciplined s b) :=
  inferInstanceAs (Decidable (_ ∧ _))

def userSteps (a : SharedList.Label (Option Party) Unit) (n : ℕ) :
    List (Label Party Party Party Unit) :=
  .call 0 0 a::List.replicate n (.call 0 0 (.step (some 0)))

/-- Thread 0 stores the object, guards it with the node, removes it and queues it, with the signal. -/
def queueSteps (obj node : ℕ) : List (Label Party Party Party Unit) :=
  List.flatten [[.store 0 () obj],userSteps (.acquire (some 0) node ()) 5,
    userSteps (.validate (some 0) node ()) 2,[.store 0 () 0],
    userSteps (.delete (some 0) node true) 12,
    [.other (.deleter 0),.other (.deleter 0),.call 0 0 (.step (some 0))]]

/-- Client 0 is registered, thread 0 has got two nodes from its list, and object 5 is queued. -/
def garbageSchedule : List (Label Party Party Party Unit) :=
  List.flatten [List.replicate 3 (.other .owner),[.other (.clients (.register 0 0))],
    List.replicate 8 (.other (.clients (.client 0))),userSteps (.acquireNode (some 0)) 7,
    userSteps (.acquireNode (some 0)) 7,queueSteps 5 2]

/-- Object 7 is queued while the collector is inside `Collect`, about to remove the node of object
5; a second pass deletes it. -/
def restSchedule : List (Label Party Party Party Unit) :=
  garbageSchedule++List.replicate 26 .thread++queueSteps 7 3++List.replicate 69 .thread

/-- The collector is about to delete object 5. -/
def sweepSchedule : List (Label Party Party Party Unit) :=
  garbageSchedule++List.replicate 21 .thread

/-- Thread 0 is about to delete object 5, in a `Collect` of its own. -/
def helpSchedule : List (Label Party Party Party Unit) :=
  garbageSchedule++userSteps (.collect (some 0)) 13

def startConf : Conf Party Party Party Unit := ⟨CollectorRun.start,fun _ => SharedList.start⟩

def confAfter (as : List (Label Party Party Party Unit)) : Conf Party Party Party Unit :=
  ((system Party Party Party Unit).execVia Disciplined startConf as).getD startConf

theorem confAfter_reachable (as : List (Label Party Party Party Unit)) :
    (system Party Party Party Unit).ReachableVia Disciplined (confAfter as) := by
  have hinit : (system Party Party Party Unit).init startConf := ⟨rfl,fun _ => rfl⟩
  exact .execViaD as (.init hinit)

theorem atRest_restSchedule : AtRest (confAfter restSchedule) := by
  constructor <;> decide +kernel

end CollectedLists
end Benedias
