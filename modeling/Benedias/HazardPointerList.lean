import Benedias.BinarySearch
import Mathlib.Logic.Function.Basic

/-! `HazardPointerList` as one thread executes it: the three lists threaded through the nodes in
memory, and the functions of the list, of its nodes and of `HazardPointer`. Addresses are natural
numbers with 0 for NULL; `none` is a failed `CHECK_ASSERT`, or a loop that takes more steps than
there are addresses in use. -/
namespace Benedias

open BinarySearch

/-- `HazardPointerNode`; `fixed_link` is set by `Add` only. -/
structure HazardPointerNode where
  pointer : ℕ
  gcPointer : ℕ
  fixedLink : ℕ
  next : ℕ
  deriving DecidableEq

structure HazardPointerList where
  node : ℕ → HazardPointerNode
  endNode : ℕ
  nodes : ℕ
  gcList : ℕ
  freeList : ℕ
  allHazPtrs : List ℕ
  /-- `new` returns this address next -/
  fresh : ℕ
  /-- the objects that have been deleted, in order -/
  deleted : List ℕ

namespace HazardPointerList

/-- The second argument of `push`, `pop` and `remove`. -/
inductive Head
  | gcList | freeList
  deriving DecidableEq

/-- What `ppnode` of `remove` points to. -/
inductive Ref
  | head (head : Head) | next (n : ℕ)
  deriving DecidableEq

def setNode (s : HazardPointerList) (n : ℕ) (v : HazardPointerNode) : HazardPointerList :=
  { s with node := Function.update s.node n v }

def setPointer (s : HazardPointerList) (n p : ℕ) : HazardPointerList :=
  s.setNode n { s.node n with pointer := p }
def setGcPointer (s : HazardPointerList) (n p : ℕ) : HazardPointerList :=
  s.setNode n { s.node n with gcPointer := p }
def setFixedLink (s : HazardPointerList) (n p : ℕ) : HazardPointerList :=
  s.setNode n { s.node n with fixedLink := p }
def setNext (s : HazardPointerList) (n p : ℕ) : HazardPointerList :=
  s.setNode n { s.node n with next := p }

def head (s : HazardPointerList) : Head → ℕ
  | .gcList => s.gcList
  | .freeList => s.freeList

def setHead (s : HazardPointerList) : Head → ℕ → HazardPointerList
  | .gcList, n => { s with gcList := n }
  | .freeList, n => { s with freeList := n }

/-- `*ppnode` -/
def deref (s : HazardPointerList) : Ref → ℕ
  | .head head => s.head head
  | .next n => (s.node n).next

def assign (s : HazardPointerList) : Ref → ℕ → HazardPointerList
  | .head head, n => s.setHead head n
  | .next m, n => s.setNext m n

def isUnqueued (s : HazardPointerList) (n : ℕ) : Bool := (s.node n).next = 0

/-- `new HazardPointerNode<T>(this)` -/
def new (s : HazardPointerList) : HazardPointerList × ℕ :=
  ({ s with node := Function.update s.node s.fresh ⟨0,0,0,0⟩, fresh := s.fresh+1 },s.fresh)

/-- The constructor, through `init`; `fixed_link` and `next` of `end_node` point to itself. -/
def init : HazardPointerList where
  node n := if n = 1 then ⟨0,0,1,1⟩ else ⟨0,0,0,0⟩
  endNode := 1
  nodes := 1
  gcList := 1
  freeList := 1
  allHazPtrs := []
  fresh := 2
  deleted := []

/-- The compare-exchange finds `nodes` unchanged, as no other thread runs. -/
def add (s : HazardPointerList) (node : ℕ) : HazardPointerList :=
  let s := s.setFixedLink node s.nodes
  { s with nodes := node }

def push (s : HazardPointerList) (node : ℕ) (head : Head) : Option HazardPointerList := do
  guard (s.isUnqueued node)
  let s := s.setNext node (s.head head)
  return s.setHead head node

/-- The inner loop of `remove`. -/
def findLink (s : HazardPointerList) (node : ℕ) : ℕ → Ref → Option Ref
  | 0, _ => none
  | n+1, ppnode =>
    if s.deref ppnode ≠ node ∧ s.deref ppnode ≠ s.endNode then
      s.findLink node n (.next (s.deref ppnode))
    else some ppnode

def remove (s : HazardPointerList) (node : ℕ) (head : Head) : Option HazardPointerList := do
  let ppnode ← s.findLink node s.fresh (.head head)
  guard (s.deref ppnode ≠ s.endNode)
  let expected := s.deref ppnode
  let desired := (s.node expected).next
  return (s.assign ppnode desired).setNext node 0

def pop (s : HazardPointerList) (head : Head) : HazardPointerList × ℕ :=
  let node := s.head head
  let desired := (s.node node).next
  let s := s.setHead head desired
  (if node ≠ s.endNode then s.setNext node 0 else s,node)

def enqueueFreeRecord (s : HazardPointerList) (node : ℕ) : Option HazardPointerList := do
  guard (s.isUnqueued node)
  guard ((s.node node).pointer = 0)
  s.push node .freeList

/-- Without the signal to the collector thread, which does not touch the list. -/
def enqueueRecordForCollection (s : HazardPointerList) (node : ℕ) : Option HazardPointerList := do
  guard (s.isUnqueued node)
  guard ((s.node node).pointer = 0)
  guard ((s.node node).gcPointer ≠ 0)
  s.push node .gcList

def prime (s : HazardPointerList) : ℕ → Option HazardPointerList
  | 0 => some s
  | nodeCount+1 => do
    let (s,node) := s.new
    let s := s.add node
    let s ← s.push node .freeList
    s.prime nodeCount

def acquireNode (s : HazardPointerList) : HazardPointerList × ℕ :=
  let (s,node) := s.pop .freeList
  if node = s.endNode then
    let (s,node) := s.new
    (s.add node,node)
  else (s,node)

/-- `HazardPointerNode::Acquire`, when the location holds `p`. -/
def acquire (s : HazardPointerList) (node p : ℕ) : Option HazardPointerList := do
  guard (s.isUnqueued node)
  guard ((s.node node).gcPointer = 0)
  return s.setPointer node p

def clear (s : HazardPointerList) (node : ℕ) : Option HazardPointerList := do
  guard ((s.node node).gcPointer = 0)
  return s.setPointer node 0

def release (s : HazardPointerList) (node : ℕ) : Option (HazardPointerList × Bool) := do
  guard ((s.node node).gcPointer = 0)
  if (s.node node).pointer = 0 then return (s,false)
  let s ← (s.setPointer node 0).enqueueFreeRecord node
  return (s,true)

/-- The exchange swaps `gc_pointer` and `pointer`. -/
def delete (s : HazardPointerList) (node : ℕ) : Option (HazardPointerList × Bool) := do
  guard ((s.node node).gcPointer = 0)
  if (s.node node).pointer = 0 then return (s,false)
  let gc := (s.node node).gcPointer
  let s := (s.setGcPointer node (s.node node).pointer).setPointer node gc
  let s ← s.enqueueRecordForCollection node
  guard ((s.node node).pointer = 0)
  return (s,true)

/-- The hazard scan of `Collect`: the pointers to push onto `all_haz_ptrs`, in list order. -/
def scan (s : HazardPointerList) : ℕ → ℕ → Option (List ℕ)
  | 0, _ => none
  | n+1, node =>
    if node = s.endNode then some []
    else do
      let rest ← s.scan n (s.node node).fixedLink
      if (s.node node).pointer = 0 then return rest
      return (s.node node).pointer::rest

/-- `delete obj_ptr`, without the destructor. -/
def deleteObj (s : HazardPointerList) (objPtr : ℕ) : HazardPointerList :=
  { s with deleted := s.deleted++[objPtr] }

/-- The loop of `Collect` over the gc list; `dtor x` is what the destructor of the object at `x`
does to the list. -/
def collectFrom (dtor : ℕ → HazardPointerList → Option HazardPointerList) (node : ℕ) :
    ℕ → HazardPointerList → ℕ → Option HazardPointerList
  | 0, _, _ => none
  | n+1, s, gcNode =>
    if gcNode = s.endNode then some s
    else do
      guard (gcNode ≠ 0)
      let nextGcNode := (s.node gcNode).next
      let objPtr := (s.node gcNode).gcPointer
      guard (objPtr ≠ 0)
      guard ((s.node gcNode).pointer = 0)
      if binarySearch s.allHazPtrs objPtr then collectFrom dtor node n s nextGcNode
      else
        let s := s.setGcPointer gcNode 0
        let s ← dtor objPtr (s.deleteObj objPtr)
        let s ← s.remove gcNode .gcList
        guard ((s.node node).pointer = 0)
        let s ← s.push gcNode .freeList
        collectFrom dtor node n s nextGcNode

/-- After the scan `node` of the source is `end_node`. -/
def collect (dtor : ℕ → HazardPointerList → Option HazardPointerList)
    (s : HazardPointerList) : Option (HazardPointerList × Bool) := do
  if s.gcList = s.endNode then return (s,false)
  let ptrs ← s.scan s.fresh s.nodes
  let s := { s with allHazPtrs := (s.allHazPtrs++ptrs).insertionSort (· ≤ ·) }
  let s ← collectFrom dtor s.endNode s.fresh s s.gcList
  let s := { s with allHazPtrs := [] }
  return (s,s.gcList = s.endNode)

def haveDeletes (s : HazardPointerList) : Bool := s.gcList ≠ s.endNode

end HazardPointerList

/-! `HazardPointer`, with its `hp_node`. -/
namespace HazardPointer

def construct (s : HazardPointerList) : HazardPointerList × ℕ := s.acquireNode

def acquire (s : HazardPointerList) (hpNode p : ℕ) : Option HazardPointerList :=
  if hpNode = 0 then some s else s.acquire hpNode p

/-- The result of the node's `Release` is not looked at; `hp_node` is NULL afterwards. -/
def release (s : HazardPointerList) (hpNode : ℕ) : Option (HazardPointerList × ℕ) :=
  if hpNode = 0 then some (s,0) else (s.release hpNode).map fun r => (r.1,0)

def delete (s : HazardPointerList) (hpNode : ℕ) : Option (HazardPointerList × ℕ) :=
  if hpNode = 0 then some (s,0) else (s.delete hpNode).map fun r => (r.1,0)

end HazardPointer

end Benedias
