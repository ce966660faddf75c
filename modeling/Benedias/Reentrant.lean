import Benedias.HazardPointerRuns
import Mathlib.Data.Option.Basic

/-! `Collect` when the destructors that it runs use the same list. `collector_client_lock` is
recursive, so that they may call whatever a client may, `Collect` included. -/
namespace Benedias
namespace Reentrant

open Interleaving HazardPointerList BinarySearch

/-- The locals of a `Collect` during its `delete obj_ptr`. -/
structure Frame where
  gcNode : ℕ
  nextGcNode : ℕ
  deriving DecidableEq

structure Conf (H : Type) where
  base : HazardPointerRuns.Conf H
  /-- `gc_node` of the innermost `Collect` at the head of its loop; `none` while the client or a
  destructor runs -/
  gcNode : Option ℕ
  /-- the destructors that have not returned, innermost first -/
  deleting : List Frame
  /-- what the last `Collect` has returned -/
  done : Bool
  /-- a `CHECK_ASSERT` has failed -/
  failed : Bool

inductive Label (H : Type)
  /-- the client, or the innermost destructor, calls an operation -/
  | call (l : HazardPointerRuns.Label H)
  /-- the innermost `Collect` goes round its loop, up to `delete obj_ptr` -/
  | round
  /-- the innermost destructor returns, and the rest of its round follows -/
  | resume

variable {H : Type}

def Conf.setList (c : Conf H) (s : HazardPointerList) : Conf H :=
  { c with base := { c.base with list := s } }

def Conf.fail (c : Conf H) : Conf H := { c with failed := true }

/-- `Collect` up to its loop. -/
def Conf.collect (c : Conf H) : Conf H :=
  let s := c.base.list
  if s.gcList = s.endNode then { c with done := false }
  else match s.scan s.fresh s.nodes with
    | none => c.fail
    | some ptrs =>
      { c.setList { s with allHazPtrs := (s.allHazPtrs++ptrs).insertionSort (· ≤ ·) } with
        gcNode := some s.gcList }

def Conf.round (c : Conf H) (gcNode : ℕ) : Conf H :=
  let s := c.base.list
  if gcNode = s.endNode then
    { c.setList { s with allHazPtrs := [] } with gcNode := none, done := s.gcList = s.endNode }
  else
    let nextGcNode := (s.node gcNode).next
    let objPtr := (s.node gcNode).gcPointer
    if gcNode = 0 ∨ objPtr = 0 ∨ (s.node gcNode).pointer ≠ 0 then c.fail
    else if binarySearch s.allHazPtrs objPtr then { c with gcNode := some nextGcNode }
    else
      { c.setList ((s.setGcPointer gcNode 0).deleteObj objPtr) with
        gcNode := none, deleting := ⟨gcNode,nextGcNode⟩::c.deleting }

/-- What follows `delete obj_ptr` in the round. -/
def reclaim (s : HazardPointerList) (gcNode : ℕ) : Option HazardPointerList := do
  let s ← s.remove gcNode .gcList
  guard ((s.node s.endNode).pointer = 0)
  s.push gcNode .freeList

def Conf.resume (c : Conf H) (f : Frame) (fs : List Frame) : Conf H :=
  match reclaim c.base.list f.gcNode with
  | none => c.fail
  | some s => { c.setList s with gcNode := some f.nextGcNode, deleting := fs }

instance (c : HazardPointerRuns.Conf H) [DecidableEq H] :
    (l : HazardPointerRuns.Label H) → Decidable (l.Enabled c)
  | .prime _ | .acquireNode | .collect => .isTrue trivial
  | .nodeAcquire n _ | .nodeClear n | .nodeRelease n | .nodeDelete n =>
    inferInstanceAs (Decidable (n ∈ c.raw))
  | .construct h => inferInstanceAs (Decidable (c.hp h = none))
  | .acquire h _ | .release h | .delete h | .destroy h =>
    decidable_of_iff ((c.hp h).isSome) Option.isSome_iff_exists

variable [DecidableEq H]

def Conf.call (c : Conf H) : HazardPointerRuns.Label H → Option (Conf H)
  | .collect => some c.collect
  | l =>
    if l.Enabled c.base then
      some ((HazardPointerRuns.fire c.base l).elim c.fail fun b => { c with base := b })
    else none

def fire (c : Conf H) : Label H → Option (Conf H)
  | .call l => if c.failed = false ∧ c.gcNode = none then c.call l else none
  | .round => if c.failed = false then c.gcNode.map c.round else none
  | .resume =>
    if c.failed = false ∧ c.gcNode = none then
      match c.deleting with
      | [] => none
      | f::fs => some (c.resume f fs)
    else none

def start : Conf H where
  base := HazardPointerRuns.start
  gcNode := none
  deleting := []
  done := true
  failed := false

def system (H : Type) [DecidableEq H] : System (Conf H) (Label H) where
  init c := c = start
  fire := fire

/-- `remove` and `push` do not touch `end_node`. -/
theorem remove_endNode {s s' : HazardPointerList} {n : ℕ} {head : Head}
    (h : s.remove n head = some s') : s'.endNode = s.endNode := by
  simp only [remove,bind,Option.bind_eq_some_iff,pure,Option.some.injEq] at h
  obtain ⟨r,-,-,-,rfl⟩ := h
  cases r <;> simp [assign]

theorem push_endNode {s s' : HazardPointerList} {n : ℕ} {head : Head}
    (h : s.push n head = some s') : s'.endNode = s.endNode := by
  simp only [push,bind,Option.bind_eq_some_iff,pure,Option.some.injEq] at h
  obtain ⟨-,-,rfl⟩ := h
  simp

/-- A `Collect` at its end. -/
def Conf.collected (c : Conf H) (s : HazardPointerList) : Conf H :=
  { c.setList { s with allHazPtrs := [] } with gcNode := none, done := s.gcList = s.endNode }

theorem exec_collectFrom {fuel : ℕ} : ∀ {c : Conf H} {s s' : HazardPointerList} {n : ℕ},
    c.base.list = s → c.gcNode = some n → c.failed = false →
    collectFrom noDtor s.endNode fuel s n = some s' →
    ∃ as, (∀ a ∈ as, a = .round ∨ a = .resume) ∧
      (system H).exec c as = some (c.collected s') := by
  induction fuel with
  | zero => intro c s s' n _ _ _ h; cases h
  | succ k ih =>
    intro c s s' n hs hn hf h
    subst hs
    simp only [collectFrom] at h
    split at h
    case isTrue he =>
      obtain rfl := Option.some.inj h
      exact ⟨[.round],by simp,by simp [System.exec,system,fire,hf,hn,Conf.round,he,Conf.collected]⟩
    case isFalse he =>
      simp only [bind,Option.bind_eq_some_iff] at h
      obtain ⟨_,h0,_,h1,_,h2,h⟩ := h
      rw [Option.guard_eq_some'] at h0 h1 h2
      split at h
      case isTrue hfound =>
        -- the object is protected
        have hfire : (system H).fire c .round =
            some { c with gcNode := some (c.base.list.node n).next } := by
          simp [system,fire,hf,hn,Conf.round,he,h0,h1,h2,hfound]
        obtain ⟨as,has,hex⟩ := ih (c:={ c with gcNode := some (c.base.list.node n).next })
          rfl rfl hf h
        refine ⟨.round::as,by simpa using has,?_⟩
        simp only [System.exec,hfire,Option.bind_some]
        exact hex
      case isFalse hfound =>
        -- the object is deleted, and its destructor returns at once
        let s₁ := (c.base.list.setGcPointer n 0).deleteObj (c.base.list.node n).gcPointer
        simp only [noDtor,Option.bind_some,Option.bind_eq_some_iff] at h
        obtain ⟨s₂,hs₂,_,hg,s₃,hs₃,h⟩ := h
        rw [Option.guard_eq_some'] at hg
        have hend₂ : s₂.endNode = c.base.list.endNode := remove_endNode (s:=s₁) hs₂
        have hend₃ : s₃.endNode = c.base.list.endNode := (push_endNode hs₃).trans hend₂
        have hrec : reclaim s₁ n = some s₃ := by
          simp [reclaim,s₁,hs₂,hend₂,hg,hs₃]
        have hround : (system H).fire c .round = some { c.setList s₁ with
            gcNode := none, deleting := ⟨n,(c.base.list.node n).next⟩::c.deleting } := by
          simp [system,fire,hf,hn,Conf.round,he,h0,h1,h2,hfound,s₁]
        let c₃ : Conf H := { c.setList s₃ with gcNode := some (c.base.list.node n).next }
        have hresume : (system H).fire { c.setList s₁ with
            gcNode := none, deleting := ⟨n,(c.base.list.node n).next⟩::c.deleting } .resume =
              some c₃ := by
          simp [system,fire,hf,Conf.resume,Conf.setList,hrec,c₃]
        rw [← hend₃] at h
        obtain ⟨as,has,hex⟩ := ih (c:=c₃) rfl rfl hf h
        refine ⟨.round::.resume::as,by simpa using has,?_⟩
        simp only [System.exec,hround,hresume,Option.bind_some]
        exact hex

/-- Where the destructors return at once the machine does what `collect` does. -/
theorem exec_collect {c : Conf H} {s : HazardPointerList} {done : Bool} (hn : c.gcNode = none)
    (hf : c.failed = false) (h : c.base.list.collect noDtor = some (s,done)) :
    ∃ as, (∀ a ∈ as, a = .round ∨ a = .resume) ∧
      (system H).exec c (.call .collect::as) = some { c.setList s with done := done } := by
  have hcall : (system H).fire c (.call .collect) = some c.collect := by
    simp [system,fire,hf,hn,Conf.call]
  simp only [System.exec,hcall,Option.bind_some]
  unfold HazardPointerList.collect at h
  split at h
  case isTrue hgc =>
    obtain ⟨rfl,rfl⟩ := Prod.mk.inj (Option.some.inj h)
    exact ⟨[],by simp,by simp [System.exec,Conf.collect,hgc,Conf.setList]⟩
  case isFalse hgc =>
    simp only [bind,Option.bind_eq_some_iff,pure,Option.some.injEq,Prod.mk.injEq] at h
    obtain ⟨ptrs,hp,s₁,hs₁,rfl,rfl⟩ := h
    have hc : c.collect = { c.setList { c.base.list with
        allHazPtrs := (c.base.list.allHazPtrs++ptrs).insertionSort (· ≤ ·) } with
          gcNode := some c.base.list.gcList } := by
      simp [Conf.collect,hgc,hp]
    obtain ⟨as,has,hex⟩ := exec_collectFrom (c:=c.collect) rfl (by rw [hc]) (by rw [hc]; exact hf)
      (by rw [hc]; exact hs₁)
    refine ⟨as,has,?_⟩
    rw [hex,hc]
    simp [Conf.collected,Conf.setList,hn]

end Reentrant
end Benedias
