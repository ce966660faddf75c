import Benedias.CollectResult
import Benedias.HazardPointerPatch
import Benedias.Reentrant

/-! What every step of a re-entrant `Collect` can do, and the order in which the destructors that
are running are nested along the gc list. -/
namespace Benedias
namespace Reentrant

open Interleaving HazardPointerList LinkedChain BinarySearch
open HazardPointerRuns (releasePool deletePool account queued)

section EndNode

variable {s s' : HazardPointerList} {n : ℕ}

theorem pop_endNode (head : Head) : (s.pop head).1.endNode = s.endNode := by
  by_cases h : s.head head = s.endNode <;> simp [pop,h]

theorem acquireNode_endNode : s.acquireNode.1.endNode = s.endNode := by
  have hpop := pop_endNode (s:=s) .freeList
  by_cases h : (s.pop .freeList).2 = (s.pop .freeList).1.endNode
  · simp only [acquireNode,h,if_true]
    exact hpop
  · simpa [acquireNode,h] using hpop

theorem prime_endNode {k : ℕ} (h : s.prime k = some s') : s'.endNode = s.endNode := by
  induction k generalizing s with
  | zero => rw [← Option.some.inj h]
  | succ k ih =>
    simp only [prime,bind,Option.bind_eq_some_iff] at h
    obtain ⟨s₁,hs₁,h⟩ := h
    have hpush := push_endNode hs₁
    exact (ih h).trans hpush

theorem acquire_endNode {p : ℕ} (h : s.acquire n p = some s') : s'.endNode = s.endNode := by
  simp only [HazardPointerList.acquire,bind,Option.bind_eq_some_iff,pure,Option.some.injEq] at h
  obtain ⟨-,-,-,-,rfl⟩ := h
  rfl

theorem clear_endNode (h : s.clear n = some s') : s'.endNode = s.endNode := by
  simp only [HazardPointerList.clear,bind,Option.bind_eq_some_iff,pure,Option.some.injEq] at h
  obtain ⟨-,-,rfl⟩ := h
  rfl

theorem release_endNode {done : Bool} (h : s.release n = some (s',done)) :
    s'.endNode = s.endNode := by
  simp only [HazardPointerList.release,bind,Option.bind_eq_some_iff] at h
  obtain ⟨-,-,h⟩ := h
  split at h
  · cases h; rfl
  · simp only [enqueueFreeRecord,bind,Option.bind_eq_some_iff,pure,Option.some.injEq] at h
    obtain ⟨s₁,⟨-,-,-,-,hs₁⟩,h⟩ := h
    cases h
    have hpush := push_endNode hs₁
    exact hpush

theorem delete_endNode {done : Bool} (h : s.delete n = some (s',done)) :
    s'.endNode = s.endNode := by
  simp only [HazardPointerList.delete,bind,Option.bind_eq_some_iff] at h
  obtain ⟨-,-,h⟩ := h
  split at h
  · cases h; rfl
  · simp only [enqueueRecordForCollection,bind,Option.bind_eq_some_iff,pure,Option.some.injEq] at h
    obtain ⟨s₁,⟨-,-,-,-,-,-,hs₁⟩,-,-,h⟩ := h
    cases h
    have hpush := push_endNode hs₁
    exact hpush

end EndNode

variable {H : Type}

theorem hpRelease_endNode {s : HazardPointerList} {n : ℕ} {r : HazardPointerList × ℕ}
    (h : HazardPointer.release s n = some r) : r.1.endNode = s.endNode := by
  unfold HazardPointer.release at h
  split at h
  · cases h; rfl
  · obtain ⟨⟨s',done⟩,hs,rfl⟩ := Option.map_eq_some_iff.mp h
    exact release_endNode hs

theorem hpDelete_endNode {s : HazardPointerList} {n : ℕ} {r : HazardPointerList × ℕ}
    (h : HazardPointer.delete s n = some r) : r.1.endNode = s.endNode := by
  unfold HazardPointer.delete at h
  split at h
  · cases h; rfl
  · obtain ⟨⟨s',done⟩,hs,rfl⟩ := Option.map_eq_some_iff.mp h
    exact delete_endNode hs

/-- No operation moves `end_node`. -/
theorem fire_endNode [DecidableEq H] {b b' : HazardPointerRuns.Conf H}
    {o : HazardPointerRuns.Label H} (ho : o ≠ .collect)
    (h : HazardPointerRuns.fire b o = some b') : b'.list.endNode = b.list.endNode := by
  cases o with
  | prime k =>
    simp only [HazardPointerRuns.fire,bind,Option.bind_eq_some_iff,pure,Option.some.injEq] at h
    obtain ⟨s,hs,rfl⟩ := h
    exact prime_endNode hs
  | acquireNode =>
    obtain rfl := Option.some.inj h
    exact acquireNode_endNode
  | nodeAcquire n p =>
    simp only [HazardPointerRuns.fire,bind,Option.bind_eq_some_iff,pure,Option.some.injEq] at h
    obtain ⟨-,-,s,hs,rfl⟩ := h
    exact acquire_endNode hs
  | nodeClear n =>
    simp only [HazardPointerRuns.fire,bind,Option.bind_eq_some_iff,pure,Option.some.injEq] at h
    obtain ⟨-,-,s,hs,rfl⟩ := h
    exact clear_endNode hs
  | nodeRelease n =>
    simp only [HazardPointerRuns.fire,bind,Option.bind_eq_some_iff,pure,Option.some.injEq] at h
    obtain ⟨-,-,r,hs,rfl⟩ := h
    exact release_endNode hs
  | nodeDelete n =>
    simp only [HazardPointerRuns.fire,bind,Option.bind_eq_some_iff,pure,Option.some.injEq] at h
    obtain ⟨-,-,r,hs,rfl⟩ := h
    exact delete_endNode hs
  | construct x =>
    simp only [HazardPointerRuns.fire,bind,Option.bind_eq_some_iff,pure,Option.some.injEq] at h
    obtain ⟨-,-,rfl⟩ := h
    exact acquireNode_endNode
  | acquire x p =>
    simp only [HazardPointerRuns.fire,bind,Option.bind_eq_some_iff,pure,Option.some.injEq] at h
    obtain ⟨n,-,s,hs,rfl⟩ := h
    unfold HazardPointer.acquire at hs
    split at hs
    · cases hs; rfl
    · exact acquire_endNode hs
  | release x | destroy x =>
    simp only [HazardPointerRuns.fire,bind,Option.bind_eq_some_iff,pure,Option.some.injEq] at h
    obtain ⟨n,-,r,hs,rfl⟩ := h
    exact hpRelease_endNode hs
  | delete x =>
    simp only [HazardPointerRuns.fire,bind,Option.bind_eq_some_iff,pure,Option.some.injEq] at h
    obtain ⟨n,-,r,hs,rfl⟩ := h
    exact hpDelete_endNode hs
  | collect => exact absurd rfl ho

/-! The destructors are nested: behind the node of each stands what its `Collect` has left, and
there stand the nodes of the outer ones. -/

def Nested (s : HazardPointerList) : List ℕ → List Frame → Prop
  | _, [] => True
  | gc, f::fs => ∃ pre l, gc = pre++f.gcNode::l ∧
      Chain s.nextOf s.endNode f.nextGcNode l ∧ Nested s l fs

/-- The nodes whose destructors run. -/
def Conf.halves (c : Conf H) : List ℕ := c.deleting.map Frame.gcNode

/-- `l` is what the innermost `Collect` has left of the gc list. -/
def Conf.At (c : Conf H) (gc l : List ℕ) : Prop :=
  match c.gcNode, c.deleting with
  | some n, fs => ∃ pre, gc = pre++l ∧ Chain c.base.list.nextOf c.base.list.endNode n l ∧
      Nested c.base.list l fs
  | none, f::fs => ∃ pre, gc = pre++f.gcNode::l ∧
      Chain c.base.list.nextOf c.base.list.endNode f.nextGcNode l ∧ Nested c.base.list l fs
  | none, [] => l = []

/-- What the clients would see if no `Collect` was running: a node whose destructor runs has not
been taken from the gc list yet. -/
def Conf.idle (c : Conf H) : HazardPointerRuns.Conf H := c.base.patch c.halves 1 []

structure Inv (c : Conf H) (p : Pool) (l : List ℕ) : Prop where
  idle : HazardPointerRuns.Inv c.idle p
  cleared : ∀ n ∈ c.halves, (c.base.list.node n).gcPointer = 0
  place : c.At p.gc l
  hazPtrs : c.gcNode = none → c.deleting = [] → c.base.list.allHazPtrs = []
  sorted : c.base.list.allHazPtrs.Pairwise (· ≤ ·)
  account : (account c.idle.list p.gc).Perm (c.base.retired++c.deleting.map fun _ => 1)

theorem inv_start : Inv (start : Conf H) ⟨[],[],[]⟩ [] where
  idle := by
    have h := HazardPointerRuns.inv_start (H:=H)
    exact ⟨⟨⟨h.represents.complete.chain,h.represents.complete.endNode,
      h.represents.complete.endPointer,h.represents.complete.mem⟩,h.represents.gc,h.represents.free,
      h.represents.endNext,h.represents.gcNode,h.represents.freeNode,h.represents.offList⟩,rfl,
      h.off,h.rawPos,h.rawNodup,h.rawHp,h.hpInj⟩
  cleared := by simp [start,Conf.halves]
  place := rfl
  hazPtrs _ _ := rfl
  sorted := by simp [start,HazardPointerRuns.start,init]
  account := by simp [start,HazardPointerRuns.start,Conf.idle,HazardPointerRuns.Conf.patch,patch,
    account,init]

section Nested

variable {s s' : HazardPointerList} {gc l q : List ℕ} {fs : List Frame} {h : ℕ}

theorem Nested.mem (hn : Nested s gc fs) {n : ℕ} (hm : n ∈ fs.map Frame.gcNode) : n ∈ gc := by
  induction fs generalizing gc with
  | nil => simp at hm
  | cons f fs ih =>
    obtain ⟨pre,l,rfl,-,hl⟩ := hn
    rcases List.mem_cons.mp hm with rfl | hm
    · simp
    · simp [ih hl hm]

theorem Nested.nodup (hn : Nested s gc fs) (hgc : gc.Nodup) : (fs.map Frame.gcNode).Nodup := by
  induction fs generalizing gc with
  | nil => simp
  | cons f fs ih =>
    obtain ⟨pre,l,rfl,-,hl⟩ := hn
    have hd := List.nodup_cons.mp (List.nodup_append.mp hgc).2.1
    exact List.nodup_cons.mpr ⟨fun hm => hd.1 (hl.mem hm),ih hl hd.2⟩

theorem Nested.append (q : List ℕ) (hn : Nested s l fs) : Nested s (q++l) fs := by
  cases fs with
  | nil => trivial
  | cons f fs =>
    obtain ⟨pre,l,rfl,hc,hl⟩ := hn
    exact ⟨q++pre,l,by simp,hc,hl⟩

/-- The innermost destructor's node is not the first one. -/
theorem Nested.tail {n : ℕ} (hn : Nested s (n::l) fs) (hne : n ∉ fs.map Frame.gcNode) :
    Nested s l fs := by
  cases fs with
  | nil => trivial
  | cons f fs =>
    obtain ⟨pre,l',he,hc,hl⟩ := hn
    cases pre with
    | nil => exact absurd (by simp [(List.cons.inj he).1]) hne
    | cons m pre =>
      obtain ⟨-,rfl⟩ := List.cons.inj he
      exact ⟨pre,l',rfl,hc,hl⟩

/-- Nothing of this changes if the list ends as before. -/
theorem Nested.transfer (hn : Nested s l fs) (hend : s'.endNode = s.endNode)
    (hc : Chain s'.nextOf s'.endNode h (q++l)) : Nested s' l fs := by
  induction fs generalizing l q with
  | nil => trivial
  | cons f fs ih =>
    obtain ⟨pre,l,rfl,hl,hr⟩ := hn
    have hc' : Chain s'.nextOf s'.endNode h ((q++pre++[f.gcNode])++l) := by simpa using hc
    refine ⟨pre,l,rfl,?_,ih hr hc'⟩
    rw [← hend] at hl
    exact hl.transfer hc'

end Nested

section At

variable {c : Conf H} {gc l : List ℕ}

theorem Conf.At.nested (h : c.At gc l) : Nested c.base.list gc c.deleting := by
  cases hg : c.gcNode with
  | some n =>
    simp only [Conf.At,hg] at h
    obtain ⟨pre,rfl,-,hl⟩ := h
    exact hl.append pre
  | none =>
    cases hd : c.deleting with
    | nil => trivial
    | cons f fs =>
      simp only [Conf.At,hg,hd] at h
      obtain ⟨pre,hgc,hc,hl⟩ := h
      exact ⟨pre,l,hgc,hc,hl⟩

theorem Conf.At.mem (h : c.At gc l) {n : ℕ} (hn : n ∈ c.halves) : n ∈ gc := h.nested.mem hn

theorem Conf.At.some {n : ℕ} (h : c.At gc l) (hg : c.gcNode = some n) :
    ∃ pre, gc = pre++l ∧ Chain c.base.list.nextOf c.base.list.endNode n l ∧
      Nested c.base.list l c.deleting := by
  simpa only [Conf.At,hg] using h

theorem Conf.At.cons {f : Frame} {fs : List Frame} (h : c.At gc l) (hg : c.gcNode = none)
    (hd : c.deleting = f::fs) : ∃ pre, gc = pre++f.gcNode::l ∧
      Chain c.base.list.nextOf c.base.list.endNode f.nextGcNode l ∧ Nested c.base.list l fs := by
  simpa only [Conf.At,hg,hd] using h

theorem Conf.At.nil (h : c.At gc l) (hg : c.gcNode = none) (hd : c.deleting = []) : l = [] := by
  simpa only [Conf.At,hg,hd] using h

/-- Links that end the list as before, and nodes in front of it, change nothing. -/
theorem Conf.At.transfer {c' : Conf H} {pre : List ℕ} {h : ℕ} (hat : c.At gc l)
    (hg : c'.gcNode = c.gcNode) (hd : c'.deleting = c.deleting)
    (hend : c'.base.list.endNode = c.base.list.endNode)
    (hc : Chain c'.base.list.nextOf c'.base.list.endNode h (pre++gc)) : c'.At (pre++gc) l := by
  simp only [Conf.At,hg,hd]
  split
  case h_1 fs n hn =>
    obtain ⟨q,rfl,hl,hs⟩ := hat.some hn
    rw [← List.append_assoc] at hc
    rw [← hend] at hl
    exact ⟨pre++q,by simp,hl.transfer hc,hs.transfer hend hc⟩
  case h_2 f fs hn hf =>
    obtain ⟨q,rfl,hl,hs⟩ := hat.cons hn hf
    have hc' : Chain c'.base.list.nextOf c'.base.list.endNode h ((pre++q++[f.gcNode])++l) := by
      simpa using hc
    rw [← hend] at hl
    exact ⟨pre++q,by simp,hl.transfer hc',hs.transfer hend hc'⟩
  case h_3 hn hf => exact hat.nil hn hf

end At

section Lists

variable {c : Conf H} {p : Pool} {l : List ℕ}

theorem Inv.fixedChain (hi : Inv c p l) :
    Chain c.base.list.fixedLinkOf c.base.list.endNode c.base.list.nodes p.fixed := by
  simpa [Conf.idle,HazardPointerRuns.Conf.patch] using hi.idle.represents.complete.chain

theorem Inv.gcChain (hi : Inv c p l) :
    Chain c.base.list.nextOf c.base.list.endNode c.base.list.gcList p.gc := by
  simpa [Conf.idle,HazardPointerRuns.Conf.patch] using hi.idle.represents.gc

theorem Inv.freeChain (hi : Inv c p l) :
    Chain c.base.list.nextOf c.base.list.endNode c.base.list.freeList p.free := by
  simpa [Conf.idle,HazardPointerRuns.Conf.patch] using hi.idle.represents.free

end Lists

section Call

variable {c : Conf H} {p : Pool} {l : List ℕ} {n : ℕ}

/-- `Collect` works on nodes that no client holds. -/
theorem Inv.free_raw (hi : Inv c p l) (hn : n ∈ c.base.raw) : n ∉ c.halves :=
  fun hm => (hi.idle.off_raw hn).gc (hi.place.mem hm)

theorem Inv.free_hp (hi : Inv c p l) {x : H} (hn : c.base.hp x = some n) (h0 : n ≠ 0) :
    n ∉ c.halves :=
  fun hm => (hi.idle.off_hp hn h0).gc (hi.place.mem hm)

theorem Inv.halves_lt (hi : Inv c p l) : ∀ n ∈ c.halves, n < c.base.list.fresh :=
  fun n hn => hi.idle.gc_lt n (hi.place.mem hn)

/-- The operations other than `Collect` add to the gc list at its head, if at all. -/
theorem pool_gc {b : HazardPointerRuns.Conf H} {o : HazardPointerRuns.Label H} (ho : o ≠ .collect) :
    ∃ pre, (o.pool b p).gc = pre++p.gc := by
  have hdelete : ∀ n, ∃ pre, (deletePool b.list p n).gc = pre++p.gc := by
    intro n
    by_cases h : n = 0 ∨ (b.list.node n).pointer = 0
    · exact ⟨[],by simp [deletePool,h]⟩
    · exact ⟨[n],by simp [deletePool,h,Pool.enqueueGc]⟩
  cases o with
  | prime k => exact ⟨[],HazardPointerRuns.prime_gc _ _ _⟩
  | acquireNode | construct h => exact ⟨[],HazardPointerRuns.acquireNode_gc _ _⟩
  | nodeAcquire n v | nodeClear n | acquire h v => exact ⟨[],rfl⟩
  | nodeRelease n => exact ⟨[],HazardPointerRuns.releasePool_gc _ _ _⟩
  | nodeDelete n => exact hdelete n
  | release h | destroy h =>
    cases hn : b.hp h with
    | none => exact ⟨[],by simp [HazardPointerRuns.Label.pool,hn]⟩
    | some n => exact ⟨[],by simp [HazardPointerRuns.Label.pool,hn,HazardPointerRuns.releasePool_gc]⟩
  | delete h =>
    cases hn : b.hp h with
    | none => exact ⟨[],by simp [HazardPointerRuns.Label.pool,hn]⟩
    | some n => simpa [HazardPointerRuns.Label.pool,hn] using hdelete n
  | collect => exact absurd rfl ho

variable [DecidableEq H]

/-- An operation other than `Collect` does what it does when no `Collect` is running, and leaves
what the running ones need. -/
theorem Inv.call (hi : Inv c p l) {o : HazardPointerRuns.Label H} (ho : o ≠ .collect)
    (he : o.Enabled c.base) :
    ∃ b, HazardPointerRuns.fire c.base o = some b ∧ b.list.deleted = c.base.list.deleted ∧
      b.list.allHazPtrs = c.base.list.allHazPtrs ∧ b.retired = c.base.retired++o.deletes c.base ∧
      Inv { c with base := b } (o.pool c.idle p) l := by
  have hidle := HazardPointerRuns.fire_patch (c:=c.base) 1 [] ho (fun n hn => hi.free_raw hn)
    (fun h n hn h0 => hi.free_hp hn h0) hi.halves_lt
  have hself := HazardPointerRuns.fire_patch (c:=c.base) 0 c.base.list.allHazPtrs ho
    (fun n hn => hi.free_raw hn) (fun h n hn h0 => hi.free_hp hn h0) hi.halves_lt
  rw [HazardPointerRuns.Conf.patch_self hi.cleared] at hself
  obtain ⟨i,hf,heff⟩ := HazardPointerRuns.fire_spec (c:=c.idle) (l:=o) hi.idle
    (HazardPointerRuns.patch_enabled.mpr he)
  obtain ⟨b,hb,rfl⟩ := Option.map_eq_some_iff.mp (hidle.symm.trans hf)
  rw [hb] at hself
  have hbself : b = b.patch c.halves 0 c.base.list.allHazPtrs := Option.some.inj hself
  have hptrs : b.list.allHazPtrs = c.base.list.allHazPtrs := by
    rw [hbself]
    rfl
  have hdel : o.deletes c.idle = o.deletes c.base := HazardPointerRuns.patch_deletes _ _ _ _ _
  refine ⟨b,hb,heff.deleted ho,hptrs,hdel ▸ heff.retired,⟨heff.inv,?_,?_,?_,?_,?_⟩⟩
  · intro n hn
    have hn' : n ∈ c.halves := hn
    change (b.list.node n).gcPointer = 0
    rw [hbself]
    simp [HazardPointerRuns.Conf.patch,patch_gcPointer,hn']
  · obtain ⟨pre,hpre⟩ := pool_gc (b:=c.idle) (p:=p) ho
    have hgc := heff.inv.represents.gc
    rw [hpre] at hgc ⊢
    refine hi.place.transfer (h:=b.list.gcList) rfl rfl (fire_endNode ho hb) ?_
    simpa [HazardPointerRuns.Conf.patch] using hgc
  · intro hg hd
    exact hptrs.trans (hi.hazPtrs hg hd)
  · change b.list.allHazPtrs.Pairwise (· ≤ ·)
    rw [hptrs]
    exact hi.sorted
  · refine heff.account.trans ((hi.account.append_right _).trans ?_)
    have hret : b.retired = c.base.retired++o.deletes c.idle := heff.retired
    simp only [hret,List.append_assoc]
    exact List.perm_append_comm.append_left _

end Call

section Account

variable {s s' : HazardPointerList} {pre l : List ℕ} {n v : ℕ}

/-- The object of a gc node is deleted, and the node stays with `v`. -/
theorem account_delete (hnd : (pre++n::l).Nodup) :
    (account ((s.setGcPointer n v).deleteObj (s.node n).gcPointer) (pre++n::l)).Perm
      (account s (pre++n::l)++[v]) := by
  have hne : ∀ m ∈ pre++l, ((s.setGcPointer n v).node m).gcPointer = (s.node m).gcPointer := by
    intro m hm
    have hmn : m ≠ n := by
      rintro rfl
      exact (List.nodup_cons.mp (List.nodup_middle.mp hnd)).1 hm
    rw [setGcPointer_ne _ _ _ hmn]
  have hdel : (s.setGcPointer n v).deleted = s.deleted := rfl
  have hpre := List.map_congr_left fun m hm => hne m (List.mem_append_left l hm)
  have hl := List.map_congr_left fun m hm => hne m (List.mem_append_right pre hm)
  rw [List.perm_iff_count]
  intro a
  simp only [account,deleteObj,hdel,List.map_append,List.map_cons,hpre,hl,setGcPointer_self,
    List.count_append,List.count_cons,List.count_nil]
  omega

/-- A gc node with `v` leaves the list. -/
theorem account_reclaim (hd : s'.deleted = s.deleted) (hn : (s.node n).gcPointer = v)
    (hne : ∀ m ∈ pre++l, (s'.node m).gcPointer = (s.node m).gcPointer) :
    (account s (pre++n::l)).Perm (account s' (pre++l)++[v]) := by
  rw [List.perm_iff_count]
  intro a
  simp only [account,hd,List.map_congr_left hne,hn,List.map_append,List.map_cons,
    List.count_append,List.count_cons,List.count_nil]
  omega

end Account

section Round

variable {c : Conf H} {p : Pool} {l : List ℕ} {n : ℕ}

/-- `Collect` gets to its loop, and the scan adds what the nodes protect. -/
theorem Inv.collect (hi : Inv c p l) :
    (c.base.list.gcList = c.base.list.endNode ∧ c.collect = { c with done := false }) ∨
    c.base.list.gcList ≠ c.base.list.endNode ∧
      let ptrs := (c.base.list.allHazPtrs++c.base.list.hazards p.fixed).insertionSort (· ≤ ·)
      c.collect = { c.setList { c.base.list with allHazPtrs := ptrs } with
        gcNode := some c.base.list.gcList } ∧ Inv c.collect p p.gc := by
  by_cases hgc : c.base.list.gcList = c.base.list.endNode
  · exact .inl ⟨hgc,by simp [Conf.collect,hgc]⟩
  · have hfuel := hi.idle.represents.complete.length_lt hi.fixedChain.nodup fun _ h => h
    have hscan : c.base.list.scan c.base.list.fresh c.base.list.nodes =
        some (c.base.list.hazards p.fixed) := scan_eq _ _ hi.fixedChain hfuel
    have hc : c.collect = { c.setList { c.base.list with
        allHazPtrs := (c.base.list.allHazPtrs++c.base.list.hazards p.fixed).insertionSort (· ≤ ·) }
          with gcNode := some c.base.list.gcList } := by
      simp only [Conf.collect,hgc,if_false,hscan]
    refine .inr ⟨hgc,hc,?_⟩
    rw [hc]
    refine ⟨hi.idle,hi.cleared,⟨[],rfl,hi.gcChain,?_⟩,fun h => ?_,?_,hi.account⟩
    · exact hi.place.nested.transfer (q:=[]) rfl hi.gcChain
    · cases h
    · exact List.pairwise_insertionSort _ _

/-- At `end_node` no destructor is left behind the node. -/
theorem Inv.finish (hi : Inv c p l) (hg : c.gcNode = some c.base.list.endNode) :
    l = [] ∧ c.deleting = [] ∧
      Inv { c.setList { c.base.list with allHazPtrs := [] } with
        gcNode := none, done := c.base.list.gcList = c.base.list.endNode } p [] := by
  obtain ⟨pre,hgc,hc,hn⟩ := hi.place.some hg
  obtain rfl := hc.eq_nil
  have hd : c.deleting = [] := by
    cases hd : c.deleting with
    | nil => rfl
    | cons f fs =>
      rw [hd] at hn
      obtain ⟨q,r,he,-⟩ := hn
      simp at he
  refine ⟨rfl,hd,hi.idle,hi.cleared,?_,fun _ _ => rfl,List.Pairwise.nil,hi.account⟩
  simp only [Conf.At,Conf.setList,hd]

/-- The objects that `Collect` is done with are missing on the gc list. -/
theorem Inv.gcNode (hi : Inv c p l) (hn : n ∈ p.gc) :
    n ≠ 0 ∧ n ≠ c.base.list.endNode ∧ (c.base.list.node n).pointer = 0 ∧
      ((c.base.list.node n).gcPointer = 0 ↔ n ∈ c.halves) := by
  obtain ⟨hf,hp,hgp⟩ := hi.idle.represents.gcNode n hn
  obtain ⟨h0,hne,-⟩ := (hi.idle.represents.complete.mem n).mp hf
  refine ⟨h0,hne,by simpa [Conf.idle,HazardPointerRuns.Conf.patch] using hp,?_,hi.cleared n⟩
  intro hz
  by_contra hh
  simp [Conf.idle,HazardPointerRuns.Conf.patch,patch_gcPointer,hh,hz] at hgp

/-- The loop goes on to the next node of the list. -/
theorem Inv.skip {pre : List ℕ} (hi : Inv c p (n::l)) (hgc : p.gc = pre++n::l)
    (hc : Chain c.base.list.nextOf c.base.list.endNode (c.base.list.node n).next l)
    (hn : Nested c.base.list (n::l) c.deleting) (hh : n ∉ c.halves) :
    Inv { c with gcNode := some (c.base.list.node n).next } p l := by
  refine ⟨hi.idle,hi.cleared,⟨pre++[n],by simp [hgc],hc,hn.tail hh⟩,fun h => ?_,hi.sorted,
    hi.account⟩
  cases h

/-- `gc_pointer` is cleared, and the destructor begins. -/
theorem Inv.delete {pre : List ℕ} (hi : Inv c p (n::l)) (hgc : p.gc = pre++n::l)
    (hc : Chain c.base.list.nextOf c.base.list.endNode (c.base.list.node n).next l)
    (hn : Nested c.base.list (n::l) c.deleting) (hh : n ∉ c.halves) :
    Inv { c.setList ((c.base.list.setGcPointer n 0).deleteObj (c.base.list.node n).gcPointer) with
      gcNode := none, deleting := ⟨n,(c.base.list.node n).next⟩::c.deleting } p l := by
  let s := c.base.list
  let s₁ := (s.setGcPointer n 0).deleteObj (s.node n).gcPointer
  have hm : n ∈ p.gc := by simp [hgc]
  have hnext : s₁.nextOf = s.nextOf := setGcPointer_nextOf s n 0
  have hidle : s₁.patch (n::c.halves) 1 [] =
      ((s.patch c.halves 1 []).setGcPointer n 1).deleteObj (s.node n).gcPointer := by
    have hnode : (s₁.patch (n::c.halves) 1 []).node =
        ((s.patch c.halves 1 []).setGcPointer n 1).node := by
      funext m
      by_cases hm : m = n
      · simp [patch,s₁,deleteObj,setGcPointer,setNode,hm,hh]
      · by_cases hmh : m ∈ c.halves <;>
          simp [patch,s₁,deleteObj,setGcPointer,setNode,hm,hmh]
    exact congrArg (fun f : ℕ → HazardPointerNode =>
      { s₁ with node := f, allHazPtrs := [] }) hnode
  have hr : (s₁.patch (n::c.halves) 1 []).Represents p := by
    rw [hidle]
    exact (hi.idle.represents.setGcPointer hm Nat.one_ne_zero).deleteObj _
  have hgc₁ : Chain s₁.nextOf s₁.endNode s₁.gcList ((pre++[n])++l) := by
    have h := hi.gcChain
    rw [hgc] at h
    rw [hnext]
    rwa [List.append_assoc]
  refine ⟨?_,?_,⟨pre,hgc,?_,?_⟩,fun _ h => ?_,hi.sorted,?_⟩
  · exact hi.idle.setList hr rfl fun _ _ _ ho => ho
  · intro m hm
    rcases List.mem_cons.mp hm with rfl | hm
    · exact congrArg HazardPointerNode.gcPointer (setGcPointer_self s m 0)
    · have hmn : m ≠ n := ne_of_mem_of_not_mem hm hh
      exact (congrArg HazardPointerNode.gcPointer (setGcPointer_ne s n 0 hmn)).trans
        (hi.cleared m hm)
  · rw [← hnext] at hc
    exact hc
  · exact (hn.tail hh).transfer rfl hgc₁
  · cases h
  · change (HazardPointerRuns.account (s₁.patch (n::c.halves) 1 []) p.gc).Perm _
    have hx : (s.node n).gcPointer = ((s.patch c.halves 1 []).node n).gcPointer := by
      simp [patch_gcPointer,hh]
    have hnd := hi.gcChain.nodup
    have hacc := hi.account
    rw [hgc] at hnd hacc
    rw [hidle,hx,hgc]
    refine (account_delete hnd).trans ((hacc.append_right [1]).trans ?_)
    simp only [List.append_assoc]
    exact (List.perm_append_singleton _ _).append_left _

end Round

section Reclaim

variable {s : HazardPointerList} {ns fixed q r free : List ℕ} {n : ℕ}

theorem reclaim_patch (ns : List ℕ) (v : ℕ) (ptrs : List ℕ) (s : HazardPointerList) (n : ℕ) :
    reclaim (s.patch ns v ptrs) n = (reclaim s n).map (patch ns v ptrs) := by
  cases hs : s.remove n .gcList with
  | none => simp [reclaim,patch_remove,hs]
  | some s₁ =>
    by_cases he : (s₁.node s₁.endNode).pointer = 0 <;> simp [reclaim,patch_remove,hs,he,patch_push]

/-- Without the node the list looks as if its `Collect` was not running. -/
theorem patch_cons_clear (hn : n ∉ ns) (h0 : (s.node n).gcPointer = 0) :
    ({ (s.patch (n::ns) 1 []).setGcPointer n 0 with deleted := s.deleted } : HazardPointerList) =
      s.patch ns 1 [] := by
  have hnode : ((s.patch (n::ns) 1 []).setGcPointer n 0).node = (s.patch ns 1 []).node := by
    funext m
    by_cases hm : m = n
    · rw [hm,setGcPointer_self]
      simp only [patch,List.mem_cons,true_or,if_true,hn,if_false]
      exact h0 ▸ rfl
    · rw [setGcPointer_ne _ _ _ hm]
      simp [patch,hm]
  exact congrArg (fun f : ℕ → HazardPointerNode => { s with node := f, allHazPtrs := [] }) hnode

theorem patch_relinked {t : HazardPointerList} (hz : ∀ m ∈ ns, (s.node m).gcPointer = 0)
    (ht : t = t.patch ns 0 s.allHazPtrs) (h : Relinked (s.patch ns 1 []) (t.patch ns 1 [])) :
    Relinked s t where
  pointer m := by simpa using h.pointer m
  gcPointer m := by
    by_cases hm : m ∈ ns
    · rw [ht,patch_gcPointer,if_pos hm,hz m hm]
    · simpa [patch_gcPointer,hm] using h.gcPointer m
  fixedLink m := by simpa using h.fixedLink m
  endNode := h.endNode
  nodes := h.nodes
  allHazPtrs := by
    rw [ht]
    rfl
  fresh := h.fresh
  deleted := h.deleted

/-- Once its destructor has returned the node moves to the free list. -/
theorem reclaim_spec (hr : (s.patch (n::ns) 1 []).Represents ⟨fixed,q++n::r,free⟩) (hn : n ∉ ns)
    (hz : ∀ m ∈ n::ns, (s.node m).gcPointer = 0) :
    ∃ t, reclaim s n = some t ∧ Relinked s t ∧
      (t.patch ns 1 []).Represents ⟨fixed,q++r,n::free⟩ := by
  have hns : ∀ m ∈ ns, (s.node m).gcPointer = 0 := fun m hm => hz m (List.mem_cons_of_mem n hm)
  obtain ⟨s₂,s₃,hs₂,hs₃,hend,hr₃,hl⟩ := hr.reclaimNode s.deleted
  rw [patch_cons_clear hn (hz n (by simp))] at hs₂ hl
  have hrec : reclaim (s.patch ns 1 []) n = some s₃ := by
    have he : s₂.endNode = s.endNode := remove_endNode (s:=s.patch ns 1 []) hs₂
    have hend' : (s₂.node s.endNode).pointer = 0 := hend
    simp [reclaim,hs₂,he,hend',hs₃]
  rw [reclaim_patch] at hrec
  obtain ⟨t,ht,rfl⟩ := Option.map_eq_some_iff.mp hrec
  -- the same step on the list as it is, in which the nodes have no objects
  have hself := reclaim_patch ns 0 s.allHazPtrs s n
  rw [patch_self ns 0 s hns,ht] at hself
  exact ⟨t,ht,patch_relinked hns (Option.some.inj hself) hl,hr₃⟩

end Reclaim

section Resume

variable {c : Conf H} {p : Pool} {l : List ℕ}

/-- A destructor that is on its way has left the list as the rest of its round needs it. -/
theorem Inv.resume {f : Frame} {fs : List Frame} (hi : Inv c p l) (hg : c.gcNode = none)
    (hd : c.deleting = f::fs) :
    ∃ q s, p.gc = q++f.gcNode::l ∧ reclaim c.base.list f.gcNode = some s ∧
      s.deleted = c.base.list.deleted ∧ s.allHazPtrs = c.base.list.allHazPtrs ∧
      Inv { c.setList s with gcNode := some f.nextGcNode, deleting := fs }
        ⟨p.fixed,q++l,f.gcNode::p.free⟩ l := by
  obtain ⟨q,hgc,hc,hn⟩ := hi.place.cons hg hd
  let n := f.gcNode
  let ns := fs.map Frame.gcNode
  have hnd := hi.gcChain.nodup
  rw [hgc] at hnd
  have hhalves : c.halves = n::ns := by simp [Conf.halves,hd,n,ns]
  have hnn : n ∉ ns := by
    have h := hi.place.nested.nodup hi.gcChain.nodup
    rw [hd] at h
    exact (List.nodup_cons.mp h).1
  have hr : (c.base.list.patch (n::ns) 1 []).Represents ⟨p.fixed,q++n::l,p.free⟩ := by
    rw [← hgc,← hhalves]
    exact hi.idle.represents
  obtain ⟨t,ht,hl,hr'⟩ := reclaim_spec hr hnn (hhalves ▸ hi.cleared)
  have hchain : Chain t.nextOf t.endNode t.gcList (q++l) := by
    simpa using hr'.gc
  refine ⟨q,t,hgc,ht,hl.deleted,hl.allHazPtrs,?_,?_,⟨q,rfl,?_,?_⟩,fun h => ?_,?_,?_⟩
  · refine hi.idle.setList hr' rfl fun m _ _ ho => ⟨ho.fixed,?_,?_⟩
    · have h := ho.gc
      rw [hgc] at h
      simp only [List.mem_append,List.mem_cons,not_or] at h ⊢
      exact ⟨h.1,h.2.2⟩
    · refine List.not_mem_cons_of_ne_of_not_mem ?_ ho.free
      rintro rfl
      exact ho.gc (by simp [hgc])
  · intro m hm
    have hm' : m ∈ ns := hm
    exact (hl.gcPointer m).trans (hi.cleared m (by simp [hhalves,hm']))
  · rw [← hl.endNode] at hc
    exact hc.transfer hchain
  · exact hn.transfer hl.endNode hchain
  · cases h
  · change t.allHazPtrs.Pairwise (· ≤ ·)
    rw [hl.allHazPtrs]
    exact hi.sorted
  · have hne : ∀ m ∈ q++l, ((t.patch ns 1 []).node m).gcPointer =
        (c.idle.list.node m).gcPointer := by
      intro m hm
      have hmn : m ≠ n := by
        rintro rfl
        exact (List.nodup_cons.mp (List.nodup_middle.mp hnd)).1 hm
      simp [Conf.idle,HazardPointerRuns.Conf.patch,patch_gcPointer,hhalves,hmn,hl.gcPointer]
    have hone : (c.idle.list.node n).gcPointer = 1 := by
      simp [Conf.idle,HazardPointerRuns.Conf.patch,patch_gcPointer,hhalves]
    have hdel : (t.patch ns 1 []).deleted = c.idle.list.deleted := hl.deleted
    have hacc := hi.account
    rw [hgc,hd] at hacc
    have hleave := (account_reclaim hdel hone hne).symm.trans hacc
    refine (List.perm_append_right_iff [1]).mp (hleave.trans ?_)
    simp only [List.map_cons,List.append_assoc]
    exact (List.perm_append_singleton _ _).symm.append_left _

end Resume

/-- What a step does, and what it leaves of the pool and of the innermost traversal. -/
inductive Move [DecidableEq H] (c : Conf H) (p : Pool) (l : List ℕ) :
    Label H → Conf H → Pool → List ℕ → Prop
  | call {o : HazardPointerRuns.Label H} {b : HazardPointerRuns.Conf H} (hg : c.gcNode = none)
      (ho : o ≠ .collect) (hdel : b.list.deleted = c.base.list.deleted)
      (hptrs : b.list.allHazPtrs = c.base.list.allHazPtrs) :
      Move c p l (.call o) { c with base := b } (o.pool c.idle p) l
  | empty (hg : c.gcNode = none) (hgc : c.base.list.gcList = c.base.list.endNode) :
      Move c p l (.call .collect) { c with done := false } p l
  | enter (hg : c.gcNode = none) :
      Move c p l (.call .collect) { c.setList { c.base.list with
        allHazPtrs :=
          (c.base.list.allHazPtrs++c.base.list.hazards p.fixed).insertionSort (· ≤ ·) } with
        gcNode := some c.base.list.gcList } p p.gc
  | finish {n : ℕ} (hg : c.gcNode = some n) (hl : l = []) (hd : c.deleting = []) :
      Move c p l .round { c.setList { c.base.list with allHazPtrs := [] } with
        gcNode := none, done := c.base.list.gcList = c.base.list.endNode } p []
  /-- the node of an outer `Collect` has no object any more -/
  | stuck {n : ℕ} (hg : c.gcNode = some n) (hn : n ∈ c.halves) : Move c p l .round c.fail p l
  | skip {n m : ℕ} {l' : List ℕ} (hg : c.gcNode = some n) (hl : l = n::l') :
      Move c p l .round { c with gcNode := some m } p l'
  | delete {n m x : ℕ} {l' : List ℕ} (hg : c.gcNode = some n) (hl : l = n::l') (h0 : x ≠ 0)
      (hx : x ∉ c.base.list.allHazPtrs) :
      Move c p l .round { c.setList ((c.base.list.setGcPointer n 0).deleteObj x) with
        gcNode := none, deleting := ⟨n,m⟩::c.deleting } p l'
  | resume {f : Frame} {fs : List Frame} {q : List ℕ} {s : HazardPointerList}
      (hg : c.gcNode = none) (hd : c.deleting = f::fs) (hdel : s.deleted = c.base.list.deleted)
      (hptrs : s.allHazPtrs = c.base.list.allHazPtrs) :
      Move c p l .resume { c.setList s with gcNode := some f.nextGcNode, deleting := fs }
        ⟨p.fixed,q++l,f.gcNode::p.free⟩ l

section Move

variable [DecidableEq H] {c c' : Conf H} {p : Pool} {l : List ℕ}

theorem call_eq {o : HazardPointerRuns.Label H} (ho : o ≠ .collect) : c.call o =
    if o.Enabled c.base then
      some ((HazardPointerRuns.fire c.base o).elim c.fail fun b => { c with base := b })
    else none := by
  cases o with
  | collect => exact absurd rfl ho
  | _ => rfl

theorem round_move (hi : Inv c p l) {n : ℕ} (hg : c.gcNode = some n) :
    ∃ p' l', Move c p l .round (c.round n) p' l' ∧ Inv (c.round n) p' l' := by
  by_cases he : n = c.base.list.endNode
  · subst he
    obtain ⟨hl,hd,hi'⟩ := hi.finish hg
    refine ⟨p,[],?_,?_⟩ <;> simp only [Conf.round,if_true]
    · exact .finish hg hl hd
    · exact hi'
  · obtain ⟨pre,hgc,hc,hn⟩ := hi.place.some hg
    obtain ⟨l',rfl,hc'⟩ := hc.eq_cons he
    obtain ⟨h0,-,hp,hx⟩ := hi.gcNode (n:=n) (by simp [hgc])
    by_cases hh : n ∈ c.halves
    · have hround : c.round n = c.fail := by simp [Conf.round,he,hx.mpr hh]
      rw [hround]
      exact ⟨p,n::l',.stuck hg hh,hi.idle,hi.cleared,hi.place,hi.hazPtrs,hi.sorted,hi.account⟩
    · have hx0 : (c.base.list.node n).gcPointer ≠ 0 := fun h => hh (hx.mp h)
      by_cases hf : binarySearch c.base.list.allHazPtrs (c.base.list.node n).gcPointer
      · have hround : c.round n = { c with gcNode := some (c.base.list.node n).next } := by
          simp [Conf.round,he,h0,hp,hx0,hf]
        rw [hround]
        exact ⟨p,l',.skip hg rfl,hi.skip hgc hc' hn hh⟩
      · have hround : c.round n =
            { c.setList ((c.base.list.setGcPointer n 0).deleteObj (c.base.list.node n).gcPointer) with
              gcNode := none, deleting := ⟨n,(c.base.list.node n).next⟩::c.deleting } := by
          simp [Conf.round,he,h0,hp,hx0,hf]
        rw [hround]
        rw [binarySearch_iff hi.sorted] at hf
        exact ⟨p,l',.delete hg rfl hx0 hf,hi.delete hgc hc' hn hh⟩

/-- Every step is one of the moves, and keeps the invariant. -/
theorem fire_move (hi : Inv c p l) {a : Label H} (h : fire c a = some c') :
    ∃ p' l', Move c p l a c' p' l' ∧ Inv c' p' l' := by
  cases a with
  | call o =>
    simp only [fire] at h
    split at h
    case isFalse => cases h
    case isTrue hg =>
      by_cases ho : o = .collect
      · subst ho
        obtain rfl := Option.some.inj h
        rcases hi.collect with ⟨hgc,hc⟩ | ⟨-,hc,hi'⟩
        · rw [hc]
          exact ⟨p,l,.empty hg.2 hgc,hi.idle,hi.cleared,hi.place,hi.hazPtrs,hi.sorted,hi.account⟩
        · refine ⟨p,p.gc,?_,hi'⟩
          rw [hc]
          exact .enter hg.2
      · rw [call_eq ho] at h
        split at h
        case isFalse => cases h
        case isTrue he =>
          obtain ⟨b,hb,hdel,hptrs,-,hi'⟩ := hi.call ho he
          rw [hb] at h
          obtain rfl := Option.some.inj h
          exact ⟨_,l,.call hg.2 ho hdel hptrs,hi'⟩
  | round =>
    simp only [fire] at h
    split at h
    case isFalse => cases h
    case isTrue hf =>
      obtain ⟨n,hg,rfl⟩ := Option.map_eq_some_iff.mp h
      exact round_move hi hg
  | resume =>
    simp only [fire] at h
    split at h
    case isFalse => cases h
    case isTrue hg =>
      cases hd : c.deleting with
      | nil => simp [hd] at h
      | cons f fs =>
        simp only [hd,Option.some.injEq] at h
        subst h
        obtain ⟨q,s,-,hs,hdel,hptrs,hi'⟩ := hi.resume hg.2 hd
        have hresume : c.resume f fs =
            { c.setList s with gcNode := some f.nextGcNode, deleting := fs } := by
          simp [Conf.resume,hs]
        rw [hresume]
        exact ⟨_,l,.resume hg.2 hd hdel hptrs,hi'⟩

end Move

end Reentrant
end Benedias
