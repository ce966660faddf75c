import Benedias.HazardPointerCollect
import Benedias.Interleaving

/-! Runs of one thread over one `HazardPointerList`: clients hold nodes from `AcquireNode`, or
through `HazardPointer` objects, and every operation is executed to its end. -/
namespace Benedias
namespace HazardPointerRuns

open Interleaving HazardPointerList

structure Conf (H : Type) where
  list : HazardPointerList
  /-- `hp_node` of the `HazardPointer` objects that are alive -/
  hp : H → Option ℕ
  /-- the nodes that a client got from `AcquireNode` itself and still uses -/
  raw : List ℕ
  /-- the objects that `Delete` has queued -/
  retired : List ℕ
  /-- how many nodes `Prime` has added -/
  primed : ℕ

inductive Label (H : Type)
  | prime (nodeCount : ℕ)
  | acquireNode
  /-- `HazardPointerNode::Acquire`, `Clear`, `Release` and `Delete` of a node that is held;
  the location holds `p` -/
  | nodeAcquire (n p : ℕ) | nodeClear (n : ℕ) | nodeRelease (n : ℕ) | nodeDelete (n : ℕ)
  /-- the members of the `HazardPointer` `h` -/
  | construct (h : H) | acquire (h : H) (p : ℕ) | release (h : H) | delete (h : H) | destroy (h : H)
  | collect

variable {H : Type}

def Conf.setHp [DecidableEq H] (c : Conf H) (h : H) (hpNode : Option ℕ) : Conf H :=
  { c with hp := Function.update c.hp h hpNode }

/-- The object that `Delete` of the node queues, if any. -/
def queued (s : HazardPointerList) (n : ℕ) : List ℕ :=
  if n = 0 ∨ (s.node n).pointer = 0 then [] else [(s.node n).pointer]

/-- One operation; `none` if it aborts, or if the label makes no sense in the state. -/
def fire [DecidableEq H] (c : Conf H) : Label H → Option (Conf H)
  | .prime nodeCount => do
    let s ← c.list.prime nodeCount
    return { c with list := s, primed := c.primed+nodeCount }
  | .acquireNode =>
    let (s,n) := c.list.acquireNode
    some { c with list := s, raw := n::c.raw }
  | .nodeAcquire n p => do
    guard (n ∈ c.raw)
    let s ← c.list.acquire n p
    return { c with list := s }
  | .nodeClear n => do
    guard (n ∈ c.raw)
    let s ← c.list.clear n
    return { c with list := s }
  | .nodeRelease n => do
    guard (n ∈ c.raw)
    -- a node whose `Release` returns false is still with its holder
    let (s,done) ← c.list.release n
    return { c with list := s, raw := if done then c.raw.erase n else c.raw }
  | .nodeDelete n => do
    guard (n ∈ c.raw)
    let (s,done) ← c.list.delete n
    return { c with
      list := s
      raw := if done then c.raw.erase n else c.raw
      retired := c.retired++queued c.list n }
  | .construct h => do
    guard (c.hp h = none)
    let (s,n) := HazardPointer.construct c.list
    return { c.setHp h (some n) with list := s }
  | .acquire h p => do
    let n ← c.hp h
    let s ← HazardPointer.acquire c.list n p
    return { c with list := s }
  | .release h => do
    let n ← c.hp h
    let (s,n) ← HazardPointer.release c.list n
    return { c.setHp h (some n) with list := s }
  | .delete h => do
    let n ← c.hp h
    let (s,m) ← HazardPointer.delete c.list n
    return { c.setHp h (some m) with list := s, retired := c.retired++queued c.list n }
  | .destroy h => do
    let n ← c.hp h
    let (s,_) ← HazardPointer.release c.list n
    return { c.setHp h none with list := s }
  | .collect => do
    let (s,_) ← c.list.collect noDtor
    return { c with list := s }

def start : Conf H where
  list := HazardPointerList.init
  hp := fun _ => none
  raw := []
  retired := []
  primed := 0

def system (H : Type) [DecidableEq H] : System (Conf H) (Label H) where
  init c := c = start
  fire := fire

/-- The node that `Delete` of the label is called on. -/
def Label.deletes (c : Conf H) : Label H → List ℕ
  | .nodeDelete n => queued c.list n
  | .delete h => (c.hp h).elim [] (queued c.list)
  | _ => []

/-- How many nodes the label adds through `Prime`. -/
def Label.primes : Label H → ℕ
  | .prime nodeCount => nodeCount
  | _ => 0

/-- The label can be executed in the state. -/
def Label.Enabled (c : Conf H) : Label H → Prop
  | .prime _ | .acquireNode | .collect => True
  | .nodeAcquire n _ | .nodeClear n | .nodeRelease n | .nodeDelete n => n ∈ c.raw
  | .construct h => c.hp h = none
  | .acquire h _ | .release h | .delete h | .destroy h => ∃ n, c.hp h = some n

/-- The pool after `Release` of the node. -/
def releasePool (s : HazardPointerList) (p : Pool) (n : ℕ) : Pool :=
  if n = 0 ∨ (s.node n).pointer = 0 then p else p.enqueueFree n

/-- The pool after `Delete` of the node. -/
def deletePool (s : HazardPointerList) (p : Pool) (n : ℕ) : Pool :=
  if n = 0 ∨ (s.node n).pointer = 0 then p else p.enqueueGc n

/-- What the operation means for the pool. -/
def Label.pool (c : Conf H) (p : Pool) : Label H → Pool
  | .prime nodeCount => p.prime c.list.fresh nodeCount
  | .acquireNode | .construct _ => (p.acquireNode c.list.fresh).1
  | .nodeAcquire _ _ | .nodeClear _ | .acquire _ _ => p
  | .nodeRelease n => releasePool c.list p n
  | .nodeDelete n => deletePool c.list p n
  | .release h | .destroy h => (c.hp h).elim p (releasePool c.list p)
  | .delete h => (c.hp h).elim p (deletePool c.list p)
  | .collect => p.collect (c.list.guarded p.fixed)

/-- Where the operation leaves the `hp_node`s. -/
def Label.hps [DecidableEq H] (c : Conf H) (p : Pool) : Label H → H → Option ℕ
  | .construct h => Function.update c.hp h (some (p.acquireNode c.list.fresh).2)
  | .release h | .delete h => Function.update c.hp h (some 0)
  | .destroy h => Function.update c.hp h none
  | _ => c.hp

/-- The operations of a program that works through `HazardPointer`s. -/
def Label.ofHazardPointer : Label H → Bool
  | .acquireNode | .nodeAcquire _ _ | .nodeClear _ | .nodeRelease _ | .nodeDelete _ => false
  | _ => true

/-- A client has the node. -/
def Conf.Held (c : Conf H) (n : ℕ) : Prop := n ∈ c.raw ∨ ∃ h, c.hp h = some n

structure Inv (c : Conf H) (p : Pool) : Prop where
  represents : c.list.Represents p
  hazPtrs : c.list.allHazPtrs = []
  off : ∀ n, c.Held n → n ≠ 0 → p.Off n
  rawPos : 0 ∉ c.raw
  rawNodup : c.raw.Nodup
  rawHp : ∀ h n, c.hp h = some n → n ∉ c.raw
  hpInj : ∀ h h' n, c.hp h = some n → c.hp h' = some n → n ≠ 0 → h = h'

theorem inv_start : Inv (start : Conf H) ⟨[],[],[]⟩ := by
  refine ⟨init_represents,rfl,?_,?_,?_,?_,?_⟩ <;> simp [start,Conf.Held]

section Held

variable {c : Conf H} {p p' : Pool} {n : ℕ} {h : H}

theorem Inv.setList (hi : Inv c p) {s : HazardPointerList} (hr : s.Represents p')
    (hv : s.allHazPtrs = []) (ho : ∀ n, c.Held n → n ≠ 0 → p.Off n → p'.Off n) :
    Inv { c with list := s } p' :=
  ⟨hr,hv,fun n hn h0 => ho n hn h0 (hi.off n hn h0),hi.rawPos,hi.rawNodup,hi.rawHp,hi.hpInj⟩

theorem Inv.dropRaw (hi : Inv c p) (n : ℕ) : Inv { c with raw := c.raw.erase n } p := by
  refine ⟨hi.represents,hi.hazPtrs,?_,?_,hi.rawNodup.erase n,?_,hi.hpInj⟩
  · rintro m (hm | hm) h0
    · exact hi.off m (Or.inl (List.mem_of_mem_erase hm)) h0
    · exact hi.off m (Or.inr hm) h0
  · exact fun hm => hi.rawPos (List.mem_of_mem_erase hm)
  · exact fun h m hh hm => hi.rawHp h m hh (List.mem_of_mem_erase hm)

theorem Inv.not_held_erase (hi : Inv c p) (hn : n ∈ c.raw) :
    ¬Conf.Held { c with raw := c.raw.erase n } n := by
  rintro (hm | ⟨h,hh⟩)
  · exact hi.rawNodup.not_mem_erase hm
  · exact hi.rawHp h n hh hn

theorem Inv.takeRaw (hi : Inv c p) (ho : p.Off n) (h0 : n ≠ 0) (hn : ¬c.Held n) :
    Inv { c with raw := n::c.raw } p := by
  refine ⟨hi.represents,hi.hazPtrs,?_,?_,?_,?_,hi.hpInj⟩
  · rintro m (hm | hm) hm0
    · rcases List.mem_cons.mp hm with rfl | hm
      · exact ho
      · exact hi.off m (Or.inl hm) hm0
    · exact hi.off m (Or.inr hm) hm0
  · simpa [Ne.symm h0] using hi.rawPos
  · exact List.nodup_cons.mpr ⟨fun hm => hn (Or.inl hm),hi.rawNodup⟩
  · intro h m hm hr
    rcases List.mem_cons.mp hr with rfl | hr
    · exact hn (Or.inr ⟨h,hm⟩)
    · exact hi.rawHp h m hm hr

variable [DecidableEq H]

theorem Inv.dropHp (hi : Inv c p) (h : H) {v : Option ℕ} (hv : v = none ∨ v = some 0) :
    Inv (c.setHp h v) p := by
  have hold : ∀ h' m, Function.update c.hp h v h' = some m → m ≠ 0 → c.hp h' = some m := by
    intro h' m hm h0
    by_cases hh : h' = h
    · rcases hv with rfl | rfl <;> simp_all
    · simpa [hh] using hm
  refine ⟨hi.represents,hi.hazPtrs,?_,hi.rawPos,hi.rawNodup,?_,?_⟩
  · rintro m (hm | ⟨h',hm⟩) h0
    · exact hi.off m (Or.inl hm) h0
    · exact hi.off m (Or.inr ⟨h',hold h' m hm h0⟩) h0
  · intro h' m hm hr
    have h0 : m ≠ 0 := by
      rintro rfl
      exact hi.rawPos hr
    exact hi.rawHp h' m (hold h' m hm h0) hr
  · intro h₁ h₂ m h1 h2 h0
    exact hi.hpInj h₁ h₂ m (hold h₁ m h1 h0) (hold h₂ m h2 h0) h0

theorem Inv.not_held_setHp (hi : Inv c p) (hn : c.hp h = some n) (h0 : n ≠ 0) {v : Option ℕ}
    (hv : v ≠ some n) : ¬(c.setHp h v).Held n := by
  rintro (hm | ⟨h',hm⟩)
  · exact hi.rawHp h n hn hm
  · by_cases hh : h' = h
    · simp [Conf.setHp,hh,hv] at hm
    · have hm' : c.hp h' = some n := by simpa [Conf.setHp,hh] using hm
      exact hh (hi.hpInj h' h n hm' hn h0)

theorem Inv.takeHp (hi : Inv c p) (ho : p.Off n) (hn : ¬c.Held n) :
    Inv (c.setHp h (some n)) p := by
  have hold : ∀ h' m, m ≠ n → Function.update c.hp h (some n) h' = some m → c.hp h' = some m := by
    intro h' m hm hh
    by_cases he : h' = h
    · simp [he,Ne.symm hm] at hh
    · simpa [he] using hh
  have hnew : ∀ h', Function.update c.hp h (some n) h' = some n → h' = h := by
    intro h' hh
    by_contra he
    exact hn (Or.inr ⟨h',by simpa [he] using hh⟩)
  refine ⟨hi.represents,hi.hazPtrs,?_,hi.rawPos,hi.rawNodup,?_,?_⟩
  · rintro m (hm | ⟨h',hm⟩) h0
    · exact hi.off m (Or.inl hm) h0
    · by_cases he : m = n
      · rw [he]
        exact ho
      · exact hi.off m (Or.inr ⟨h',hold h' m he hm⟩) h0
  · intro h' m hm hr
    by_cases he : m = n
    · exact hn (Or.inl (he ▸ hr))
    · exact hi.rawHp h' m (hold h' m he hm) hr
  · intro h₁ h₂ m h1 h2 h0
    by_cases he : m = n
    · subst he
      rw [hnew h₁ h1,hnew h₂ h2]
    · exact hi.hpInj h₁ h₂ m (hold h₁ m he h1) (hold h₂ m he h2) h0

end Held

section Functions

variable {s : HazardPointerList} {p : Pool} {n : ℕ}

theorem acquireNode_off (hr : s.Represents p) :
    (p.acquireNode s.fresh).1.Off (p.acquireNode s.fresh).2 ∧ ¬p.Off (p.acquireNode s.fresh).2 ∧
      (∀ m, p.Off m → (p.acquireNode s.fresh).1.Off m) ∧ (p.acquireNode s.fresh).2 ≠ 0 := by
  have hnew : s.fresh ∉ p.fixed := fun h => Nat.lt_irrefl _ ((hr.complete.mem _).mp h).2.2
  obtain ⟨fixed,gc,free⟩ := p
  cases free with
  | nil =>
    refine ⟨⟨by simp [Pool.acquireNode],fun h => hnew (hr.gcNode _ h).1,by simp [Pool.acquireNode]⟩,
      fun h => hnew h.fixed,?_,?_⟩
    · intro m hm
      exact ⟨List.mem_cons_of_mem _ hm.fixed,hm.gc,hm.free⟩
    · exact Nat.ne_of_gt (hr.complete.endNode.1.trans hr.complete.endNode.2)
  | cons n free =>
    have hn := (hr.freeNode n (by simp)).1
    refine ⟨⟨hn,?_,(List.nodup_cons.mp hr.free.nodup).1⟩,fun h => h.free (by simp [Pool.acquireNode]),
      ?_,((hr.complete.mem n).mp hn).1⟩
    · exact fun h => hr.disjoint h (by simp [Pool.acquireNode])
    · intro m hm
      exact ⟨hm.fixed,hm.gc,fun h => hm.free (List.mem_cons_of_mem _ h)⟩

theorem release_pool (hr : s.Represents p) (hn : p.Off n) :
    ∃ s' done, s.release n = some (s',done) ∧ (done = true ↔ (s.node n).pointer ≠ 0) ∧
      s'.Represents (releasePool s p n) ∧ Quiet s s' := by
  have h0 : n ≠ 0 := ((hr.complete.mem n).mp hn.fixed).1
  by_cases hp : (s.node n).pointer = 0
  · refine ⟨s,false,hr.release_null hn hp,by simp [hp],?_,⟨rfl,rfl,le_rfl,fun _ _ => rfl⟩⟩
    simpa [releasePool,hp] using hr
  · obtain ⟨s',hs,hl,hr'⟩ := hr.release hn hp
    refine ⟨s',true,hs,by simp [hp],?_,(setPointer_quiet s n 0).trans hl.quiet⟩
    simpa [releasePool,hp,h0] using hr'

theorem releasePool_off {m : ℕ} (hm : p.Off m) (hne : m ≠ n) : (releasePool s p n).Off m := by
  unfold releasePool
  split
  · exact hm
  · exact ⟨hm.fixed,hm.gc,by simpa [Pool.enqueueFree,hne] using hm.free⟩

theorem deletePool_off {m : ℕ} (hm : p.Off m) (hne : m ≠ n) : (deletePool s p n).Off m := by
  unfold deletePool
  split
  · exact hm
  · exact ⟨hm.fixed,by simpa [Pool.enqueueGc,hne] using hm.gc,hm.free⟩

/-- The objects that have been deleted or are queued. -/
def account (s : HazardPointerList) (gc : List ℕ) : List ℕ :=
  s.deleted++gc.map fun n => (s.node n).gcPointer

theorem account_quiet {s' : HazardPointerList} (h : Quiet s s') {gc : List ℕ}
    (hgc : ∀ n ∈ gc, n < s.fresh) : account s' gc = account s gc := by
  simp only [account,h.deleted]
  rw [List.map_congr_left fun n hn => h.gcPointer n (hgc n hn)]

theorem delete_pool (hr : s.Represents p) (hn : p.Off n) :
    ∃ s' done, s.delete n = some (s',done) ∧ (done = true ↔ (s.node n).pointer ≠ 0) ∧
      s'.Represents (deletePool s p n) ∧ s'.allHazPtrs = s.allHazPtrs ∧ s'.deleted = s.deleted ∧
      (account s' (deletePool s p n).gc).Perm (account s p.gc++queued s n) := by
  have h0 : n ≠ 0 := ((hr.complete.mem n).mp hn.fixed).1
  by_cases hp : (s.node n).pointer = 0
  · refine ⟨s,false,hr.delete_null hn hp,by simp [hp],?_,rfl,rfl,?_⟩
    · simpa [deletePool,hp] using hr
    · simp [deletePool,queued,hp]
  · obtain ⟨s',hs,hl,hr'⟩ := hr.delete hn hp
    refine ⟨s',true,hs,by simp [hp],?_,hl.allHazPtrs,hl.deleted,?_⟩
    · simpa [deletePool,hp,h0] using hr'
    · have hself : (s'.node n).gcPointer = (s.node n).pointer := by simp [hl.gcPointer]
      have hrest : ∀ m ∈ p.gc, (s'.node m).gcPointer = (s.node m).gcPointer := by
        intro m hm
        have hmn : m ≠ n := by
          rintro rfl
          exact hn.gc hm
        rw [hl.gcPointer,setPointer_ne _ _ _ hmn,setGcPointer_ne _ _ _ hmn]
      have hd : s'.deleted = s.deleted := hl.deleted
      simp only [account,deletePool,queued,hp,h0,or_self,if_false,Pool.enqueueGc,List.map_cons,hself,
        List.map_congr_left hrest,hd,List.append_assoc]
      exact (List.perm_append_singleton _ _).symm.append_left _

theorem collect_account {s' : HazardPointerList}
    (h : Collected s s' (p.gc.filter (!s.guarded p.fixed ·))) :
    (account s' (p.collect (s.guarded p.fixed)).gc).Perm (account s p.gc) := by
  have hrest : ∀ m ∈ p.gc.filter (s.guarded p.fixed),
      (s'.node m).gcPointer = (s.node m).gcPointer := by
    intro m hm
    refine h.kept m ?_
    simp [(List.mem_filter.mp hm).2]
  simp only [account,Pool.collect,h.deleted,List.map_congr_left hrest,List.append_assoc,
    ← List.map_append]
  exact ((List.perm_append_comm.trans (List.filter_append_perm _ _)).map _).append_left _

end Functions

section Steps

variable {c : Conf H} {p : Pool} {n : ℕ} {h : H}

theorem Inv.gc_lt (hi : Inv c p) : ∀ n ∈ p.gc, n < c.list.fresh := fun n hn =>
  ((hi.represents.complete.mem n).mp (hi.represents.gcNode n hn).1).2.2

theorem Inv.off_raw (hi : Inv c p) (hn : n ∈ c.raw) : p.Off n :=
  hi.off n (Or.inl hn) fun h0 => hi.rawPos (h0 ▸ hn)

theorem Inv.off_hp (hi : Inv c p) (hn : c.hp h = some n) (h0 : n ≠ 0) : p.Off n :=
  hi.off n (Or.inr ⟨h,hn⟩) h0

variable [DecidableEq H]

/-- What one operation does: the pool changes as the label says, `Delete` adds one object to the
account, and only `Collect` deletes. -/
structure Effect (c : Conf H) (p : Pool) (l : Label H) (c' : Conf H) : Prop where
  inv : Inv c' (l.pool c p)
  retired : c'.retired = c.retired++l.deletes c
  account : (account c'.list (l.pool c p).gc).Perm (account c.list p.gc++l.deletes c)
  deleted : l ≠ .collect → c'.list.deleted = c.list.deleted
  primed : c'.primed = c.primed+l.primes
  hp : c'.hp = l.hps c p
  raw : l.ofHazardPointer → c'.raw = c.raw

theorem prime_gc (p : Pool) (n k : ℕ) : (p.prime n k).gc = p.gc := by
  induction k generalizing p n with
  | zero => rfl
  | succ k ih => exact ih _ _

theorem acquireNode_gc (p : Pool) (n : ℕ) : (p.acquireNode n).1.gc = p.gc := by
  unfold Pool.acquireNode
  split <;> rfl

theorem releasePool_gc (s : HazardPointerList) (p : Pool) (n : ℕ) :
    (releasePool s p n).gc = p.gc := by
  unfold releasePool
  split <;> rfl

theorem prime_off {m : ℕ} (hm : p.Off m) {k : ℕ} (hlt : m < n) : (p.prime n k).Off m := by
  induction k generalizing p n with
  | zero => exact hm
  | succ k ih =>
    refine ih ⟨List.mem_cons_of_mem _ hm.fixed,hm.gc,?_⟩ (by omega)
    simpa [Nat.ne_of_lt hlt] using hm.free

/-- An operation that deletes nothing and leaves the gc list alone. -/
theorem Inv.quiet (hi : Inv c p) {l : Label H} {c' : Conf H} (hinv : Inv c' (l.pool c p))
    (hq : Quiet c.list c'.list) (hgc : (l.pool c p).gc = p.gc) (hret : c'.retired = c.retired)
    (hdel : l.deletes c = []) (hprime : c'.primed = c.primed+l.primes) (hhp : c'.hp = l.hps c p)
    (hraw : l.ofHazardPointer → c'.raw = c.raw) : Effect c p l c' where
  inv := hinv
  retired := by simp [hret,hdel]
  account := by
    rw [hgc,account_quiet hq hi.gc_lt,hdel,List.append_nil]
  deleted _ := hq.deleted
  primed := hprime
  hp := hhp
  raw := hraw

/-- `Release`, called on a `HazardPointer` or by its destructor. -/
theorem Inv.hpRelease (hi : Inv c p) (hn : c.hp h = some n) {v : Option ℕ}
    (hv : v = none ∨ v = some 0) :
    ∃ s', HazardPointer.release c.list n = some (s',0) ∧ Quiet c.list s' ∧
      Inv { c.setHp h v with list := s' } (releasePool c.list p n) := by
  by_cases h0 : n = 0
  · refine ⟨c.list,by simp [HazardPointer.release,h0],⟨rfl,rfl,le_rfl,fun _ _ => rfl⟩,?_⟩
    simpa [releasePool,h0,Conf.setHp] using hi.dropHp h hv
  · obtain ⟨s',done,hs,-,hr,hq⟩ := release_pool hi.represents (hi.off_hp hn h0)
    refine ⟨s',by simp [HazardPointer.release,h0,hs],hq,?_⟩
    refine (hi.dropHp h hv).setList hr (hq.allHazPtrs.trans hi.hazPtrs) ?_
    intro m hm _ ho
    refine releasePool_off ho ?_
    rintro rfl
    exact hi.not_held_setHp hn h0 (by rcases hv with rfl | rfl <;> simp [Ne.symm h0]) hm

theorem Inv.hpDelete (hi : Inv c p) (hn : c.hp h = some n) :
    ∃ s', HazardPointer.delete c.list n = some (s',0) ∧ s'.deleted = c.list.deleted ∧
      Inv { c.setHp h (some 0) with list := s' } (deletePool c.list p n) ∧
      (account s' (deletePool c.list p n).gc).Perm (account c.list p.gc++queued c.list n) := by
  by_cases h0 : n = 0
  · refine ⟨c.list,by simp [HazardPointer.delete,h0],rfl,?_,by simp [deletePool,queued,h0]⟩
    simpa [deletePool,h0,Conf.setHp] using hi.dropHp h (Or.inr rfl)
  · obtain ⟨s',done,hs,-,hr,hv,hd,ha⟩ := delete_pool hi.represents (hi.off_hp hn h0)
    refine ⟨s',by simp [HazardPointer.delete,h0,hs],hd,?_,ha⟩
    refine (hi.dropHp h (Or.inr rfl)).setList hr (hv.trans hi.hazPtrs) ?_
    intro m hm _ ho
    refine deletePool_off ho ?_
    rintro rfl
    exact hi.not_held_setHp hn h0 (by simp [Ne.symm h0]) hm

theorem fire_spec (hi : Inv c p) {l : Label H} (he : l.Enabled c) :
    ∃ c', fire c l = some c' ∧ Effect c p l c' := by
  have hr := hi.represents
  cases l with
  | prime k =>
    obtain ⟨s,hs,hr',hq⟩ := hr.prime k
    refine ⟨{ c with list := s, primed := c.primed+k },by simp [fire,hs],?_⟩
    refine hi.quiet ?_ hq (prime_gc _ _ _) rfl rfl rfl rfl fun _ => rfl
    have hinv := hi.setList hr' (hq.allHazPtrs.trans hi.hazPtrs) fun m _ _ ho =>
      prime_off ho ((hr.complete.mem m).mp ho.fixed).2.2
    exact ⟨hinv.represents,hinv.hazPtrs,hinv.off,hinv.rawPos,hinv.rawNodup,hinv.rawHp,hinv.hpInj⟩
  | acquireNode =>
    obtain ⟨s,hs,hr',hq⟩ := hr.acquireNode
    obtain ⟨hoff,hnot,hkeep,h0⟩ := acquireNode_off hr
    refine ⟨{ c with list := s, raw := (p.acquireNode c.list.fresh).2::c.raw },by simp [fire,hs],?_⟩
    refine hi.quiet ?_ hq (acquireNode_gc _ _) rfl rfl rfl rfl (by simp [Label.ofHazardPointer])
    have hinv := hi.setList hr' (hq.allHazPtrs.trans hi.hazPtrs) fun m _ _ ho => hkeep m ho
    exact hinv.takeRaw hoff h0 fun hm => hnot (hi.off _ hm h0)
  | nodeAcquire n v =>
    have ho := hi.off_raw he
    obtain ⟨hs,hr'⟩ := hr.acquire ho v
    have hq := setPointer_quiet c.list n v
    refine ⟨{ c with list := c.list.setPointer n v },by simp [fire,hs,show n ∈ c.raw from he],?_⟩
    exact hi.quiet (hi.setList hr' hi.hazPtrs fun _ _ _ h => h) hq rfl rfl rfl rfl rfl fun _ => rfl
  | nodeClear n =>
    have ho := hi.off_raw he
    obtain ⟨hs,hr'⟩ := hr.clear ho
    have hq := setPointer_quiet c.list n 0
    refine ⟨{ c with list := c.list.setPointer n 0 },by simp [fire,hs,show n ∈ c.raw from he],?_⟩
    exact hi.quiet (hi.setList hr' hi.hazPtrs fun _ _ _ h => h) hq rfl rfl rfl rfl rfl fun _ => rfl
  | nodeRelease n =>
    have he' : n ∈ c.raw := he
    obtain ⟨s,done,hs,hdone,hr',hq⟩ := release_pool hr (hi.off_raw he)
    refine ⟨{ c with list := s, raw := if done then c.raw.erase n else c.raw },
      by simp [fire,hs,he'],hi.quiet ?_ hq (releasePool_gc _ _ _) rfl rfl rfl rfl
        (by simp [Label.ofHazardPointer])⟩
    have hv := hq.allHazPtrs.trans hi.hazPtrs
    cases done with
    | true =>
      refine (hi.dropRaw n).setList hr' hv fun m hm _ ho => releasePool_off ho ?_
      rintro rfl
      exact hi.not_held_erase he' hm
    | false =>
      have hp : (c.list.node n).pointer = 0 := by simpa using hdone
      have hpool : releasePool c.list p n = p := by simp [releasePool,hp]
      refine hi.setList hr' hv fun m _ _ ho => ?_
      rw [show (Label.nodeRelease n).pool c p = p from hpool]
      exact ho
  | nodeDelete n =>
    have he' : n ∈ c.raw := he
    obtain ⟨s,done,hs,hdone,hr',hv,hd,ha⟩ := delete_pool hr (hi.off_raw he)
    refine ⟨{ c with
      list := s
      raw := if done then c.raw.erase n else c.raw
      retired := c.retired++queued c.list n },
      by simp [fire,hs,he'],?_,rfl,ha,fun _ => hd,rfl,rfl,by simp [Label.ofHazardPointer]⟩
    have hinv : Inv { c with list := s, raw := if done then c.raw.erase n else c.raw }
        (deletePool c.list p n) := by
      have hv' := hv.trans hi.hazPtrs
      cases done with
      | true =>
        refine (hi.dropRaw n).setList hr' hv' fun m hm _ ho => deletePool_off ho ?_
        rintro rfl
        exact hi.not_held_erase he' hm
      | false =>
        have hp : (c.list.node n).pointer = 0 := by simpa using hdone
        have hpool : deletePool c.list p n = p := by simp [deletePool,hp]
        exact hi.setList hr' hv' fun m _ _ ho => hpool.symm ▸ ho
    exact ⟨hinv.represents,hinv.hazPtrs,hinv.off,hinv.rawPos,hinv.rawNodup,hinv.rawHp,hinv.hpInj⟩
  | construct h =>
    have he' : c.hp h = none := he
    obtain ⟨s,hs,hr',hq⟩ := hr.acquireNode
    obtain ⟨hoff,hnot,hkeep,h0⟩ := acquireNode_off hr
    refine ⟨{ c.setHp h (some (p.acquireNode c.list.fresh).2) with list := s },
      by simp [fire,HazardPointer.construct,hs,he'],?_⟩
    refine hi.quiet ?_ hq (acquireNode_gc _ _) rfl rfl rfl rfl fun _ => rfl
    have hinv := hi.setList hr' (hq.allHazPtrs.trans hi.hazPtrs) fun m _ _ ho => hkeep m ho
    exact hinv.takeHp hoff fun hm => hnot (hi.off _ hm h0)
  | acquire h v =>
    obtain ⟨n,hn⟩ := he
    by_cases h0 : n = 0
    · refine ⟨c,by simp [fire,hn,HazardPointer.acquire,h0],?_⟩
      exact hi.quiet hi ⟨rfl,rfl,le_rfl,fun _ _ => rfl⟩ rfl rfl rfl rfl rfl fun _ => rfl
    · obtain ⟨hs,hr'⟩ := hr.acquire (hi.off_hp hn h0) v
      refine ⟨{ c with list := c.list.setPointer n v },by simp [fire,hn,HazardPointer.acquire,h0,hs],?_⟩
      exact hi.quiet (hi.setList hr' hi.hazPtrs fun _ _ _ h => h) (setPointer_quiet c.list n v)
        rfl rfl rfl rfl rfl fun _ => rfl
  | release h =>
    obtain ⟨n,hn⟩ := he
    obtain ⟨s,hs,hq,hinv⟩ := hi.hpRelease hn (Or.inr rfl)
    refine ⟨{ c.setHp h (some 0) with list := s },by simp [fire,hn,hs],?_⟩
    exact hi.quiet (by simpa [Label.pool,hn] using hinv) hq
      (by simpa [Label.pool,hn] using releasePool_gc _ _ _) rfl rfl rfl rfl fun _ => rfl
  | delete h =>
    obtain ⟨n,hn⟩ := he
    obtain ⟨s,hs,hd,hinv,ha⟩ := hi.hpDelete hn
    refine ⟨{ c.setHp h (some 0) with list := s, retired := c.retired++queued c.list n },
      by simp [fire,hn,hs],?_,?_,?_,fun _ => hd,rfl,rfl,fun _ => rfl⟩
    · simp only [Label.pool,hn,Option.elim]
      exact ⟨hinv.represents,hinv.hazPtrs,hinv.off,hinv.rawPos,hinv.rawNodup,hinv.rawHp,hinv.hpInj⟩
    · simp [Label.deletes,hn]
    · simpa [Label.pool,Label.deletes,hn] using ha
  | destroy h =>
    obtain ⟨n,hn⟩ := he
    obtain ⟨s,hs,hq,hinv⟩ := hi.hpRelease hn (Or.inl rfl)
    refine ⟨{ c.setHp h none with list := s },by simp [fire,hn,hs],?_⟩
    exact hi.quiet (by simpa [Label.pool,hn] using hinv) hq
      (by simpa [Label.pool,hn] using releasePool_gc _ _ _) rfl rfl rfl rfl fun _ => rfl
  | collect =>
    obtain ⟨s,done,hs,hr',hcol⟩ := hr.collect hi.hazPtrs
    refine ⟨{ c with list := s },by simp [fire,hs],?_,by simp [Label.deletes],?_,
      fun h => absurd rfl h,rfl,rfl,fun _ => rfl⟩
    · refine hi.setList hr' (hcol.allHazPtrs.trans hi.hazPtrs) fun m _ _ ho => ⟨ho.fixed,?_,?_⟩
      · exact fun h => ho.gc (List.mem_of_mem_filter h)
      · intro h
        simp only [Label.pool,Pool.collect,List.mem_append,List.mem_reverse] at h
        rcases h with h | h
        · exact ho.gc (List.mem_of_mem_filter h)
        · exact ho.free h
    · simpa [Label.pool,Label.deletes] using collect_account hcol

end Steps

end HazardPointerRuns
end Benedias
