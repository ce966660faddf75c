import Benedias.HazardPointerRuns

/-! The operations of the clients do not look at the nodes that `Collect` is working on, nor at
`all_haz_ptrs`: with other values there they do the same. -/
namespace Benedias
namespace HazardPointerList

/-- `gc_pointer` of the nodes `ns` is `v`, and `all_haz_ptrs` is `ptrs`. -/
def patch (ns : List ℕ) (v : ℕ) (ptrs : List ℕ) (s : HazardPointerList) : HazardPointerList :=
  { s with
    node := fun n => if n ∈ ns then { s.node n with gcPointer := v } else s.node n
    allHazPtrs := ptrs }

section Patch

variable (ns : List ℕ) (v : ℕ) (ptrs : List ℕ) (s : HazardPointerList) (n p : ℕ)

@[simp] theorem patch_pointer : ((s.patch ns v ptrs).node n).pointer = (s.node n).pointer := by
  by_cases h : n ∈ ns <;> simp [patch,h]

@[simp] theorem patch_next : ((s.patch ns v ptrs).node n).next = (s.node n).next := by
  by_cases h : n ∈ ns <;> simp [patch,h]

@[simp] theorem patch_fixedLink : ((s.patch ns v ptrs).node n).fixedLink = (s.node n).fixedLink := by
  by_cases h : n ∈ ns <;> simp [patch,h]

theorem patch_gcPointer : ((s.patch ns v ptrs).node n).gcPointer =
    if n ∈ ns then v else (s.node n).gcPointer := by
  by_cases h : n ∈ ns <;> simp [patch,h]

@[simp] theorem patch_endNode : (s.patch ns v ptrs).endNode = s.endNode := rfl
@[simp] theorem patch_nodes : (s.patch ns v ptrs).nodes = s.nodes := rfl
@[simp] theorem patch_gcList : (s.patch ns v ptrs).gcList = s.gcList := rfl
@[simp] theorem patch_freeList : (s.patch ns v ptrs).freeList = s.freeList := rfl
@[simp] theorem patch_fresh : (s.patch ns v ptrs).fresh = s.fresh := rfl

@[simp] theorem patch_nextOf : (s.patch ns v ptrs).nextOf = s.nextOf := funext (patch_next ns v ptrs s)

@[simp] theorem patch_fixedLinkOf : (s.patch ns v ptrs).fixedLinkOf = s.fixedLinkOf :=
  funext (patch_fixedLink ns v ptrs s)

@[simp] theorem patch_isUnqueued : (s.patch ns v ptrs).isUnqueued n = s.isUnqueued n := by
  simp [isUnqueued]

@[simp] theorem patch_head (head : Head) : (s.patch ns v ptrs).head head = s.head head := by
  cases head <;> rfl

@[simp] theorem patch_deref (r : Ref) : (s.patch ns v ptrs).deref r = s.deref r := by
  cases r <;> simp [deref]

/-- A list with the given values already. -/
theorem patch_self (h : ∀ n ∈ ns, (s.node n).gcPointer = v) : s.patch ns v s.allHazPtrs = s := by
  have hnode : (fun n => if n ∈ ns then { s.node n with gcPointer := v } else s.node n) = s.node := by
    funext n
    by_cases hn : n ∈ ns
    · simp only [hn,if_true,← h n hn]
    · simp only [hn,if_false]
  exact congrArg (fun f : ℕ → HazardPointerNode => { s with node := f }) hnode

/-- A change of a node that commutes with the patch there. -/
theorem patch_setNode {w u : HazardPointerNode}
    (h : u = if n ∈ ns then { w with gcPointer := v } else w) :
    (s.patch ns v ptrs).setNode n u = (s.setNode n w).patch ns v ptrs := by
  have hnode : Function.update (s.patch ns v ptrs).node n u =
      ((s.setNode n w).patch ns v ptrs).node := by
    funext m
    by_cases hm : m = n
    · subst hm
      simp [patch,setNode,h]
    · simp [patch,setNode,hm]
  exact congrArg (fun f : ℕ → HazardPointerNode => { s with node := f, allHazPtrs := ptrs }) hnode

theorem patch_setPointer :
    (s.patch ns v ptrs).setPointer n p = (s.setPointer n p).patch ns v ptrs := by
  refine patch_setNode ns v ptrs s n ?_
  by_cases h : n ∈ ns <;> simp [patch,h]

theorem patch_setNext : (s.patch ns v ptrs).setNext n p = (s.setNext n p).patch ns v ptrs := by
  refine patch_setNode ns v ptrs s n ?_
  by_cases h : n ∈ ns <;> simp [patch,h]

theorem patch_setFixedLink :
    (s.patch ns v ptrs).setFixedLink n p = (s.setFixedLink n p).patch ns v ptrs := by
  refine patch_setNode ns v ptrs s n ?_
  by_cases h : n ∈ ns <;> simp [patch,h]

theorem patch_setGcPointer {n : ℕ} (hn : n ∉ ns) :
    (s.patch ns v ptrs).setGcPointer n p = (s.setGcPointer n p).patch ns v ptrs := by
  refine patch_setNode ns v ptrs s n ?_
  simp [patch,hn]

theorem patch_setHead (head : Head) :
    (s.patch ns v ptrs).setHead head n = (s.setHead head n).patch ns v ptrs := by
  cases head <;> rfl

theorem patch_add : (s.patch ns v ptrs).add n = (s.add n).patch ns v ptrs := by
  have h := patch_setFixedLink ns v ptrs s n s.nodes
  exact congrArg (fun t : HazardPointerList => { t with nodes := n }) h

theorem patch_new {s : HazardPointerList} (hf : s.fresh ∉ ns) :
    (s.patch ns v ptrs).new = (s.new.1.patch ns v ptrs,s.new.2) := by
  have h := patch_setNode ns v ptrs s s.fresh (w:=⟨0,0,0,0⟩) (u:=⟨0,0,0,0⟩) (by simp [hf])
  exact congrArg (fun t : HazardPointerList => ({ t with fresh := s.fresh+1 },s.fresh)) h

theorem patch_push (head : Head) :
    (s.patch ns v ptrs).push n head = (s.push n head).map (patch ns v ptrs) := by
  by_cases h : s.isUnqueued n <;> simp [push,h,patch_setNext,patch_setHead]

theorem patch_pop (head : Head) : (s.patch ns v ptrs).pop head =
    ((s.pop head).1.patch ns v ptrs,(s.pop head).2) := by
  by_cases h : s.head head = s.endNode
  · simp [pop,h,patch_setHead]
  · simp [pop,h,patch_setHead,patch_setNext]

theorem patch_findLink (fuel : ℕ) (r : Ref) :
    (s.patch ns v ptrs).findLink n fuel r = s.findLink n fuel r := by
  induction fuel generalizing r with
  | zero => rfl
  | succ k ih => simp [findLink,ih]

theorem patch_assign (r : Ref) :
    (s.patch ns v ptrs).assign r n = (s.assign r n).patch ns v ptrs := by
  cases r with
  | head head => exact patch_setHead ns v ptrs s n head
  | next m => exact patch_setNext ns v ptrs s m n

theorem patch_remove (head : Head) :
    (s.patch ns v ptrs).remove n head = (s.remove n head).map (patch ns v ptrs) := by
  have hfind := patch_findLink ns v ptrs s n s.fresh (.head head)
  cases hr : s.findLink n s.fresh (.head head) with
  | none => simp [remove,hfind,hr]
  | some r =>
    by_cases he : s.deref r = s.endNode <;>
      simp [remove,hfind,hr,he,patch_assign,patch_setNext]

theorem patch_enqueueFreeRecord : (s.patch ns v ptrs).enqueueFreeRecord n =
    (s.enqueueFreeRecord n).map (patch ns v ptrs) := by
  by_cases hu : s.isUnqueued n <;> by_cases hp : (s.node n).pointer = 0 <;>
    simp [enqueueFreeRecord,hu,hp,patch_push]

theorem patch_acquireNode {s : HazardPointerList} (hf : s.fresh ∉ ns) :
    (s.patch ns v ptrs).acquireNode = ((s.acquireNode).1.patch ns v ptrs,(s.acquireNode).2) := by
  have hpop := patch_pop ns v ptrs s .freeList
  have hfresh : (s.pop .freeList).1.fresh = s.fresh := by
    by_cases h : s.head .freeList = s.endNode <;> simp [pop,h] <;> rfl
  by_cases h : (s.pop .freeList).2 = (s.pop .freeList).1.endNode
  · have hnew := patch_new ns v ptrs (s:=(s.pop .freeList).1) (hfresh ▸ hf)
    simp [acquireNode,hpop,h,hnew,patch_add]
  · simp [acquireNode,hpop,h]

theorem patch_prime {s : HazardPointerList} (hf : ∀ n ∈ ns, n < s.fresh) (k : ℕ) :
    (s.patch ns v ptrs).prime k = (s.prime k).map (patch ns v ptrs) := by
  induction k generalizing s with
  | zero => rfl
  | succ k ih =>
    have hnew := patch_new ns v ptrs (s:=s) fun h => Nat.lt_irrefl _ (hf _ h)
    simp only [prime,hnew,patch_add,patch_push]
    cases hs : (s.new.1.add s.new.2).push s.new.2 .freeList with
    | none => rfl
    | some s₁ =>
      have hfresh : s₁.fresh = s.fresh+1 := by
        simp only [push,bind,Option.bind_eq_some_iff,pure,Option.some.injEq] at hs
        obtain ⟨-,-,rfl⟩ := hs
        rfl
      exact ih fun n hn => by rw [hfresh]; exact Nat.lt_succ_of_lt (hf n hn)

section Node

variable {n : ℕ} (hn : n ∉ ns)

include hn

theorem patch_acquire (p : ℕ) :
    (s.patch ns v ptrs).acquire n p = (s.acquire n p).map (patch ns v ptrs) := by
  by_cases hu : s.isUnqueued n <;> by_cases hg : (s.node n).gcPointer = 0 <;>
    simp [acquire,patch_gcPointer,hn,hu,hg,patch_setPointer]

theorem patch_clear : (s.patch ns v ptrs).clear n = (s.clear n).map (patch ns v ptrs) := by
  by_cases hg : (s.node n).gcPointer = 0 <;> simp [clear,patch_gcPointer,hn,hg,patch_setPointer]

theorem patch_release : (s.patch ns v ptrs).release n =
    (s.release n).map fun r => (r.1.patch ns v ptrs,r.2) := by
  by_cases hg : (s.node n).gcPointer = 0
  · by_cases hp : (s.node n).pointer = 0
    · simp [release,patch_gcPointer,hn,hg,hp]
    · cases hs : (s.setPointer n 0).enqueueFreeRecord n <;>
        simp [release,patch_gcPointer,hn,hg,hp,patch_setPointer,patch_enqueueFreeRecord,hs]
  · simp [release,patch_gcPointer,hn,hg]

theorem patch_enqueueRecordForCollection : (s.patch ns v ptrs).enqueueRecordForCollection n =
    (s.enqueueRecordForCollection n).map (patch ns v ptrs) := by
  by_cases hu : s.isUnqueued n <;> by_cases hp : (s.node n).pointer = 0 <;>
    by_cases hg : (s.node n).gcPointer = 0 <;>
      simp [enqueueRecordForCollection,patch_gcPointer,hn,hu,hp,hg,patch_push]

theorem patch_delete : (s.patch ns v ptrs).delete n =
    (s.delete n).map fun r => (r.1.patch ns v ptrs,r.2) := by
  by_cases hg : (s.node n).gcPointer = 0
  · by_cases hp : (s.node n).pointer = 0
    · simp [delete,patch_gcPointer,hn,hg,hp]
    · cases hs : ((s.setGcPointer n (s.node n).pointer).setPointer n 0).enqueueRecordForCollection n
        with
      | none =>
        simp [delete,patch_gcPointer,hn,hg,hp,patch_setPointer,patch_setGcPointer,
          patch_enqueueRecordForCollection,hs]
      | some s₁ =>
        by_cases hp₁ : (s₁.node n).pointer = 0 <;>
          simp [delete,patch_gcPointer,hn,hg,hp,patch_setPointer,patch_setGcPointer,
            patch_enqueueRecordForCollection,hs,hp₁]
  · simp [delete,patch_gcPointer,hn,hg]

end Node

end Patch

end HazardPointerList

namespace HazardPointer

open HazardPointerList

variable {ns : List ℕ} {n : ℕ} (v : ℕ) (ptrs : List ℕ) (s : HazardPointerList)

theorem patch_acquire (hn : n ≠ 0 → n ∉ ns) (p : ℕ) :
    acquire (s.patch ns v ptrs) n p = (acquire s n p).map (patch ns v ptrs) := by
  by_cases h0 : n = 0
  · simp [acquire,h0]
  · simp [acquire,h0,HazardPointerList.patch_acquire ns v ptrs s (hn h0)]

theorem patch_release (hn : n ≠ 0 → n ∉ ns) : release (s.patch ns v ptrs) n =
    (release s n).map fun r => (r.1.patch ns v ptrs,r.2) := by
  by_cases h0 : n = 0
  · simp [release,h0]
  · cases hs : s.release n <;>
      simp [release,h0,HazardPointerList.patch_release ns v ptrs s (hn h0),hs]

theorem patch_delete (hn : n ≠ 0 → n ∉ ns) : delete (s.patch ns v ptrs) n =
    (delete s n).map fun r => (r.1.patch ns v ptrs,r.2) := by
  by_cases h0 : n = 0
  · simp [delete,h0]
  · cases hs : s.delete n <;>
      simp [delete,h0,HazardPointerList.patch_delete ns v ptrs s (hn h0),hs]

end HazardPointer

namespace HazardPointerRuns

open HazardPointerList

variable {H : Type}

def Conf.patch (ns : List ℕ) (v : ℕ) (ptrs : List ℕ) (c : Conf H) : Conf H :=
  { c with list := c.list.patch ns v ptrs }

theorem Conf.patch_self {ns : List ℕ} {v : ℕ} {c : Conf H}
    (h : ∀ n ∈ ns, (c.list.node n).gcPointer = v) : c.patch ns v c.list.allHazPtrs = c :=
  congrArg (fun s => { c with list := s }) (HazardPointerList.patch_self ns v c.list h)

theorem patch_enabled {ns : List ℕ} {v : ℕ} {ptrs : List ℕ} {c : Conf H} {l : Label H} :
    l.Enabled (c.patch ns v ptrs) ↔ l.Enabled c := by
  cases l <;> rfl

theorem patch_deletes (ns : List ℕ) (v : ℕ) (ptrs : List ℕ) (c : Conf H) (l : Label H) :
    l.deletes (c.patch ns v ptrs) = l.deletes c := by
  have hq : queued (c.patch ns v ptrs).list = queued c.list := by
    funext n
    simp [queued,Conf.patch]
  cases l with
  | nodeDelete n => exact congrFun hq n
  | delete h => simp only [Label.deletes,hq]; rfl
  | _ => rfl

/-- An operation other than `Collect` does the same after a patch of nodes that nobody holds. -/
theorem fire_patch [DecidableEq H] {ns : List ℕ} (v : ℕ) (ptrs : List ℕ) {c : Conf H} {l : Label H}
    (hl : l ≠ .collect) (hraw : ∀ n ∈ c.raw, n ∉ ns) (hhp : ∀ h n, c.hp h = some n → n ≠ 0 → n ∉ ns)
    (hf : ∀ n ∈ ns, n < c.list.fresh) :
    fire (c.patch ns v ptrs) l = (fire c l).map (Conf.patch ns v ptrs) := by
  have hfresh : c.list.fresh ∉ ns := fun h => Nat.lt_irrefl _ (hf _ h)
  cases l with
  | prime k =>
    cases hs : c.list.prime k <;> simp [fire,Conf.patch,patch_prime ns v ptrs hf,hs]
  | acquireNode => simp [fire,Conf.patch,patch_acquireNode ns v ptrs hfresh]
  | nodeAcquire n p =>
    by_cases hn : n ∈ c.raw
    · cases hs : c.list.acquire n p <;>
        simp [fire,Conf.patch,hn,patch_acquire ns v ptrs c.list (hraw n hn),hs]
    · simp [fire,Conf.patch,hn]
  | nodeClear n =>
    by_cases hn : n ∈ c.raw
    · cases hs : c.list.clear n <;>
        simp [fire,Conf.patch,hn,patch_clear ns v ptrs c.list (hraw n hn),hs]
    · simp [fire,Conf.patch,hn]
  | nodeRelease n =>
    by_cases hn : n ∈ c.raw
    · cases hs : c.list.release n <;>
        simp [fire,Conf.patch,hn,patch_release ns v ptrs c.list (hraw n hn),hs]
    · simp [fire,Conf.patch,hn]
  | nodeDelete n =>
    by_cases hn : n ∈ c.raw
    · cases hs : c.list.delete n <;>
        simp [fire,Conf.patch,hn,patch_delete ns v ptrs c.list (hraw n hn),hs,queued]
    · simp [fire,Conf.patch,hn]
  | construct h =>
    by_cases hn : c.hp h = none <;>
      simp [fire,Conf.patch,hn,HazardPointer.construct,patch_acquireNode ns v ptrs hfresh,Conf.setHp]
  | acquire h p =>
    cases hn : c.hp h with
    | none => simp [fire,Conf.patch,hn]
    | some n =>
      cases hs : HazardPointer.acquire c.list n p <;>
        simp [fire,Conf.patch,hn,HazardPointer.patch_acquire v ptrs c.list (hhp h n hn),hs]
  | release h | destroy h =>
    cases hn : c.hp h with
    | none => simp [fire,Conf.patch,hn]
    | some n =>
      cases hs : HazardPointer.release c.list n <;>
        simp [fire,Conf.patch,hn,HazardPointer.patch_release v ptrs c.list (hhp h n hn),hs,Conf.setHp]
  | delete h =>
    cases hn : c.hp h with
    | none => simp [fire,Conf.patch,hn]
    | some n =>
      cases hs : HazardPointer.delete c.list n <;>
        simp [fire,Conf.patch,hn,HazardPointer.patch_delete v ptrs c.list (hhp h n hn),hs,Conf.setHp,
          queued]
  | collect => exact absurd rfl hl

end HazardPointerRuns
end Benedias
