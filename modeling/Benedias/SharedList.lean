import Benedias.HazardPointerList
import Benedias.Interleaving

/-! `HazardPointerList` shared by any threads: one load, store or compare-exchange of a shared
field is one step, in the order of the source. The memory is the one of `HazardPointerList`; the
vector `all_haz_ptrs` is only touched under `collector_client_lock`. -/
namespace Benedias
namespace SharedList

open Interleaving BinarySearch HazardPointerList

inductive AddFor
  | acquireNode | prime (left : ℕ)
  deriving DecidableEq

inductive PushFor
  | release | delete | prime (left : ℕ) | collect (next : ℕ)
  deriving DecidableEq

/-- Program points with the locals of the source. `failed` is a `CHECK_ASSERT` that does not hold,
`notFound` the one in the branch of `remove` that has not found the node. -/
inductive Pc (L : Type)
  | idle | failed | notFound
  -- AcquireNode: pop, then new
  | popLoad | popNext (node : ℕ) | popCas (node desired : ℕ) | popClear (node : ℕ)
  | alloc (f : AddFor)
  -- Add
  | addLoad (node : ℕ) (f : AddFor) | addStore (node nodes : ℕ) (f : AddFor)
  | addCas (node : ℕ) (f : AddFor) | addFailed (node nodes : ℕ) (f : AddFor)
  -- push
  | pushCheck (node : ℕ) (head : Head) (f : PushFor) | pushLoad (node : ℕ) (head : Head) (f : PushFor)
  | pushStore (node top : ℕ) (head : Head) (f : PushFor)
  | pushCas (node : ℕ) (head : Head) (f : PushFor)
  | pushFailed (node top : ℕ) (head : Head) (f : PushFor)
  -- HazardPointerNode::Acquire, and the client's look at the location afterwards
  | acqNext (node : ℕ) (l : L) | acqGc (node : ℕ) (l : L) | acqTest (node : ℕ) (l : L)
  | acqLoad (node : ℕ) (l : L) | acqStore (node obj : ℕ)
  | valLoad (node : ℕ) (l : L) | valTest (node : ℕ) (l : L) (obj : ℕ)
  -- HazardPointerNode::Clear
  | clrGc (node : ℕ) | clrStore (node : ℕ)
  -- HazardPointerNode::Release, EnqueueFreeRecord
  | relGc (node : ℕ) (drop : Bool) | relTest (node : ℕ) (drop : Bool) | relStore (node : ℕ)
  | relNext (node : ℕ) | relPointer (node : ℕ)
  -- HazardPointerNode::Delete, EnqueueRecordForCollection
  | delGc (node : ℕ) (drop : Bool) | delTest (node : ℕ) (drop : Bool) | delLoad (node : ℕ)
  | delExchange (node obj : ℕ) | delStore (node old : ℕ) | delNext (node : ℕ)
  | delPointer (node : ℕ) | delGcPointer (node : ℕ) | delLast (node : ℕ)
  -- Collect: the scan
  | colTest | colLock | scanHead | scanTest (node : ℕ) | scanPush (node : ℕ) | scanLink (node : ℕ)
  | sort
  -- Collect: the traversal
  | gcHead | gcNext (gcNode : ℕ) | gcObj (gcNode next : ℕ) | gcPointer (gcNode next obj : ℕ)
  | gcStore (gcNode next obj : ℕ) | gcDelete (gcNode next obj : ℕ)
  -- remove, called by Collect
  | remTest (gcNode next : ℕ) (ppnode : Ref) | remEnd (gcNode next : ℕ) (ppnode : Ref)
  | remNext (gcNode next : ℕ) (ppnode : Ref) | remExit (gcNode next : ℕ) (ppnode : Ref)
  | remExpected (gcNode next : ℕ) (ppnode : Ref)
  | remDesired (gcNode next : ℕ) (ppnode : Ref) (expected : ℕ)
  | remCas (gcNode next : ℕ) (ppnode : Ref) (expected desired : ℕ)
  | remClear (gcNode next : ℕ)
  | gcEnd (gcNode next : ℕ) | colClear | colDone | colUnlock (done : Bool)
  deriving DecidableEq

inductive Write
  | none
  | pointer (node v : ℕ) | gcPointer (node v : ℕ) | fixedLink (node v : ℕ) | next (node v : ℕ)
  | new
  /-- the compare-exchange of `Add`, of `push`, of `pop` and of `remove(node)` succeeds -/
  | add (node : ℕ) | push (head : Head) (node : ℕ) | pop (node desired : ℕ)
  | unlink (ppnode : Ref) (node desired : ℕ)
  | lock | unlock
  | hazPtr (v : ℕ) | sort | clear
  | delete (node obj : ℕ)
  /-- a `HazardPointer` forgets its node -/
  | drop (node : ℕ)
  | validate (node : ℕ)

structure Conf (T L : Type) where
  mem : HazardPointerList
  /-- the shared pointer variables of the clients -/
  loc : L → ℕ
  lock : Option T
  pc : T → Pc L
  held : T → List ℕ
  fixed : List ℕ
  /-- the nodes pushed onto `gc_list` for which `remove` has not succeeded, latest first -/
  gc : List ℕ
  /-- the nodes pushed onto `free_list` and neither popped nor skipped by a `pop`, latest first -/
  free : List ℕ
  /-- the object that `Delete` of the node was called for, until it is deleted -/
  cargo : ℕ → ℕ
  /-- the client has found the location unchanged since it set the node's pointer -/
  valid : ℕ → Bool

variable {T L : Type}

def AddFor.after (node : ℕ) : AddFor → Pc L
  | .acquireNode => .idle
  | .prime left => .pushCheck node .freeList (.prime left)

/-- `while (node_count--)` -/
def primeFrom : ℕ → Pc L
  | 0 => .idle
  | left+1 => .alloc (.prime left)

def scanFrom (m : HazardPointerList) (node : ℕ) : Pc L :=
  if node = m.endNode then .sort else .scanTest node

def gcFrom (m : HazardPointerList) (gcNode : ℕ) : Pc L :=
  if gcNode = m.endNode then .colClear else if gcNode = 0 then .failed else .gcNext gcNode

def PushFor.after (m : HazardPointerList) (node : ℕ) : PushFor → Pc L
  | .release => .idle
  | .delete => .delLast node
  | .prime left => primeFrom left
  | .collect next => gcFrom m next

/-- `CHECK_ASSERT` -/
def check (b : Bool) (p : Pc L) : Pc L := if b then p else .failed

/-- The next step at a program point; `none` if the thread is blocked or not inside a function.
The signal to the collector thread after the push of `Delete` is left out. -/
def Pc.next (c : Conf T L) : Pc L → Option (Write × Pc L)
  | .idle | .failed | .notFound => none
  | .popLoad => some (.none,.popNext c.mem.freeList)
  | .popNext node => some (.none,.popCas node (c.mem.node node).next)
  | .popCas node desired =>
    if c.mem.freeList = node then
      some (.pop node desired,if node = c.mem.endNode then .alloc .acquireNode else .popClear node)
    else some (.none,.popLoad)
  | .popClear node => some (.next node 0,.idle)
  | .alloc f => some (.new,.addLoad c.mem.fresh f)
  | .addLoad node f => some (.none,.addStore node c.mem.nodes f)
  | .addStore node nodes f => some (.fixedLink node nodes,.addCas node f)
  | .addCas node f =>
    if c.mem.nodes = (c.mem.node node).fixedLink then some (.add node,f.after node)
    else some (.none,.addFailed node c.mem.nodes f)
  | .addFailed node nodes f => some (.fixedLink node nodes,.addLoad node f)
  | .pushCheck node head f => some (.none,check (c.mem.isUnqueued node) (.pushLoad node head f))
  | .pushLoad node head f => some (.none,.pushStore node (c.mem.head head) head f)
  | .pushStore node top head f => some (.next node top,.pushCas node head f)
  | .pushCas node head f =>
    if c.mem.head head = (c.mem.node node).next then some (.push head node,f.after c.mem node)
    else some (.none,.pushFailed node (c.mem.head head) head f)
  | .pushFailed node top head f => some (.next node top,.pushLoad node head f)
  | .acqNext node l => some (.none,check (c.mem.isUnqueued node) (.acqGc node l))
  | .acqGc node l => some (.none,check ((c.mem.node node).gcPointer = 0) (.acqTest node l))
  | .acqTest node l =>
    some (.none,if (c.mem.node node).gcPointer ≠ 0 then .idle else .acqLoad node l)
  | .acqLoad node l => some (.none,.acqStore node (c.loc l))
  | .acqStore node obj => some (.pointer node obj,.idle)
  | .valLoad node l => some (.none,.valTest node l (c.mem.node node).pointer)
  | .valTest node l obj => some (if c.loc l = obj then .validate node else .none,.idle)
  | .clrGc node => some (.none,check ((c.mem.node node).gcPointer = 0) (.clrStore node))
  | .clrStore node => some (.pointer node 0,.idle)
  | .relGc node drop => some (.none,check ((c.mem.node node).gcPointer = 0) (.relTest node drop))
  | .relTest node drop =>
    if (c.mem.node node).pointer = 0 then some (if drop then .drop node else .none,.idle)
    else some (.none,.relStore node)
  | .relStore node => some (.pointer node 0,.relNext node)
  | .relNext node => some (.none,check (c.mem.isUnqueued node) (.relPointer node))
  | .relPointer node =>
    some (.none,check ((c.mem.node node).pointer = 0) (.pushCheck node .freeList .release))
  | .delGc node drop => some (.none,check ((c.mem.node node).gcPointer = 0) (.delTest node drop))
  | .delTest node drop =>
    if (c.mem.node node).pointer = 0 then some (if drop then .drop node else .none,.idle)
    else some (.none,.delLoad node)
  | .delLoad node => some (.none,.delExchange node (c.mem.node node).pointer)
  | .delExchange node obj => some (.gcPointer node obj,.delStore node (c.mem.node node).gcPointer)
  | .delStore node old => some (.pointer node old,.delNext node)
  | .delNext node => some (.none,check (c.mem.isUnqueued node) (.delPointer node))
  | .delPointer node => some (.none,check ((c.mem.node node).pointer = 0) (.delGcPointer node))
  | .delGcPointer node =>
    some (.none,check ((c.mem.node node).gcPointer ≠ 0) (.pushCheck node .gcList .delete))
  | .delLast node => some (.none,check ((c.mem.node node).pointer = 0) .idle)
  | .colTest => some (.none,if c.mem.gcList = c.mem.endNode then .idle else .colLock)
  | .colLock =>
    match c.lock with
    | some _ => none
    | none => some (.lock,.scanHead)
  | .scanHead => some (.none,scanFrom c.mem c.mem.nodes)
  | .scanTest node =>
    some (.none,if (c.mem.node node).pointer ≠ 0 then .scanPush node else .scanLink node)
  | .scanPush node => some (.hazPtr (c.mem.node node).pointer,.scanLink node)
  | .scanLink node => some (.none,scanFrom c.mem (c.mem.node node).fixedLink)
  | .sort => some (.sort,.gcHead)
  | .gcHead => some (.none,gcFrom c.mem c.mem.gcList)
  | .gcNext gcNode => some (.none,.gcObj gcNode (c.mem.node gcNode).next)
  | .gcObj gcNode next =>
    let obj := (c.mem.node gcNode).gcPointer
    some (.none,check (obj ≠ 0) (.gcPointer gcNode next obj))
  | .gcPointer gcNode next obj =>
    some (.none,check ((c.mem.node gcNode).pointer = 0)
      (if binarySearch c.mem.allHazPtrs obj then gcFrom c.mem next else .gcStore gcNode next obj))
  | .gcStore gcNode next obj => some (.gcPointer gcNode 0,.gcDelete gcNode next obj)
  | .gcDelete gcNode next obj => some (.delete gcNode obj,.remTest gcNode next (.head .gcList))
  | .remTest gcNode next ppnode =>
    some (.none,if c.mem.deref ppnode ≠ gcNode then .remEnd gcNode next ppnode
      else .remExit gcNode next ppnode)
  | .remEnd gcNode next ppnode =>
    some (.none,if c.mem.deref ppnode ≠ c.mem.endNode then .remNext gcNode next ppnode
      else .remExit gcNode next ppnode)
  | .remNext gcNode next ppnode => some (.none,.remTest gcNode next (.next (c.mem.deref ppnode)))
  | .remExit gcNode next ppnode =>
    some (.none,if c.mem.deref ppnode = c.mem.endNode then .notFound
      else .remExpected gcNode next ppnode)
  | .remExpected gcNode next ppnode =>
    some (.none,.remDesired gcNode next ppnode (c.mem.deref ppnode))
  | .remDesired gcNode next ppnode expected =>
    some (.none,.remCas gcNode next ppnode expected (c.mem.node expected).next)
  | .remCas gcNode next ppnode expected desired =>
    if c.mem.deref ppnode = expected then
      some (.unlink ppnode gcNode desired,.remClear gcNode next)
    else some (.none,.remTest gcNode next (.head .gcList))
  | .remClear gcNode next => some (.next gcNode 0,.gcEnd gcNode next)
  | .gcEnd gcNode next =>
    some (.none,check ((c.mem.node c.mem.endNode).pointer = 0)
      (.pushCheck gcNode .freeList (.collect next)))
  | .colClear => some (.clear,.colDone)
  | .colDone => some (.none,.colUnlock (c.mem.gcList = c.mem.endNode))
  | .colUnlock _ => some (.unlock,.idle)

variable [DecidableEq T] [DecidableEq L]

def Conf.take (c : Conf T L) (t : T) (node : ℕ) : Conf T L :=
  { c with held := Function.update c.held t (node::c.held t) }

def Conf.give (c : Conf T L) (t : T) (node : ℕ) : Conf T L :=
  { c with held := Function.update c.held t ((c.held t).erase node) }

def Conf.setPc (c : Conf T L) (t : T) (p : Pc L) : Conf T L :=
  { c with pc := Function.update c.pc t p }

def Conf.write (c : Conf T L) (t : T) : Write → Conf T L
  | .none => c
  | .pointer node v =>
    { c with mem := c.mem.setPointer node v, valid := Function.update c.valid node false }
  | .gcPointer node v => { c with mem := c.mem.setGcPointer node v }
  | .fixedLink node v => { c with mem := c.mem.setFixedLink node v }
  | .next node v => { c with mem := c.mem.setNext node v }
  | .new => { c.take t c.mem.fresh with mem := c.mem.new.1 }
  | .add node => { c with mem := { c.mem with nodes := node }, fixed := node::c.fixed }
  | .push .gcList node => { c.give t node with mem := { c.mem with gcList := node }, gc := node::c.gc }
  | .push .freeList node =>
    { c.give t node with mem := { c.mem with freeList := node }, free := node::c.free }
  | .pop node desired =>
    let m := { c.mem with freeList := desired }
    if node = c.mem.endNode then { c with mem := m }
    else { c.take t node with mem := m, free := c.free.tail.dropWhile (· ≠ desired) }
  | .unlink ppnode node desired =>
    { c.take t node with mem := c.mem.assign ppnode desired, gc := c.gc.erase node }
  | .lock => { c with lock := some t }
  | .unlock => { c with lock := none }
  | .hazPtr v => { c with mem := { c.mem with allHazPtrs := c.mem.allHazPtrs++[v] } }
  | .sort => { c with mem := { c.mem with allHazPtrs := c.mem.allHazPtrs.insertionSort (· ≤ ·) } }
  | .clear => { c with mem := { c.mem with allHazPtrs := [] } }
  | .delete node obj => { c with mem := c.mem.deleteObj obj, cargo := Function.update c.cargo node 0 }
  | .drop node => c.give t node
  | .validate node => { c with valid := Function.update c.valid node true }

inductive Label (T L : Type)
  | acquireNode (t : T) | prime (t : T) (nodeCount : ℕ)
  | acquire (t : T) (node : ℕ) (l : L) | validate (t : T) (node : ℕ) (l : L)
  | clear (t : T) (node : ℕ)
  /-- `drop` if the node is used through a `HazardPointer`, which forgets it in any case -/
  | release (t : T) (node : ℕ) (drop : Bool) | delete (t : T) (node : ℕ) (drop : Bool)
  | collect (t : T)
  | step (t : T)
  | store (l : L) (obj : ℕ)

def Conf.call (c : Conf T L) (t : T) (node : ℕ) (p : Pc L) : Option (Conf T L) :=
  if c.pc t = .idle ∧ node ∈ c.held t then some (c.setPc t p) else none

def fire (c : Conf T L) : Label T L → Option (Conf T L)
  | .acquireNode t => if c.pc t = .idle then some (c.setPc t .popLoad) else none
  | .prime t nodeCount => if c.pc t = .idle then some (c.setPc t (primeFrom nodeCount)) else none
  | .acquire t node l => c.call t node (.acqNext node l)
  | .validate t node l => c.call t node (.valLoad node l)
  | .clear t node => c.call t node (.clrGc node)
  | .release t node drop => c.call t node (.relGc node drop)
  | .delete t node drop =>
    { c with cargo := Function.update c.cargo node (c.mem.node node).pointer }.call t node
      (.delGc node drop)
  | .collect t => if c.pc t = .idle then some (c.setPc t .colTest) else none
  | .step t => ((c.pc t).next c).map fun r => (c.write t r.1).setPc t r.2
  | .store l obj => some { c with loc := Function.update c.loc l obj }

def start : Conf T L where
  mem := HazardPointerList.init
  loc := fun _ => 0
  lock := none
  pc := fun _ => .idle
  held := fun _ => []
  fixed := []
  gc := []
  free := []
  cargo := fun _ => 0
  valid := fun _ => false

def system (T L : Type) [DecidableEq T] [DecidableEq L] : System (Conf T L) (Label T L) where
  init c := c = start
  fire := fire

end SharedList
end Benedias
