import Benedias.SharedListRuns
import Mathlib.Data.Fintype.Basic

/-! The gc list under pushes that come in at any time, and the handing out of nodes. Both hold as
long as no push comes between two looks of `remove` at the head, and no node comes back to the
free list between two looks of `pop`; either may happen, and a run of each kind is given. -/
namespace Benedias
namespace SharedList

open Interleaving LinkedChain HazardPointerList

variable {T L : Type}

structure GcIntact (c : Conf T L) : Prop where
  /-- the list has the nodes that have been pushed and not removed -/
  chain : Chain c.mem.nextOf c.mem.endNode c.mem.gcList c.gc
  nodup : c.gc.Nodup
  notNull : c.mem.gcList ≠ 0 ∧ ∀ n ∈ c.gc, c.mem.nextOf n ≠ 0
  /-- where the compare-exchange of `remove` succeeds, it takes out the node -/
  removes : ∀ t r n d p, (c.pc t).next c = some (.unlink r n d,p) → n ∈ c.gc ∧
    Chain (c.mem.assign r d).nextOf c.mem.endNode (c.mem.assign r d).gcList (c.gc.erase n)
  found : ∀ t, c.pc t ≠ .notFound
  disjoint : ∃ free, Chain c.mem.nextOf c.mem.endNode c.mem.freeList free ∧ ∀ n ∈ c.gc, n ∉ free

structure ExclusiveNodes (c : Conf T L) : Prop where
  nodup : ∀ t, (c.held t).Nodup
  unique : ∀ t u n, n ∈ c.held t → n ∈ c.held u → t = u
  /-- the list has the nodes that have come back and not been popped -/
  chain : Chain c.mem.nextOf c.mem.endNode c.mem.freeList c.free
  notFree : ∀ t, ∀ n ∈ c.held t, n ∉ c.free
  /-- the node that `AcquireNode` is about to take from the list -/
  popped : ∀ t n d p, (c.pc t).next c = some (.pop n d,p) → n ≠ c.mem.endNode → n ∈ c.free
  new : ∀ t, c.mem.fresh ∉ c.held t

theorem chain_ne_zero {c : Conf T L} {place : ℕ → Place T} (hs : Shared c place) {n : ℕ}
    (hn : n = c.mem.endNode ∨ n ∈ c.gc) : n ≠ 0 := by
  rcases hn with rfl | hn
  · exact Nat.ne_of_gt hs.endNode.1
  · exact hs.ne_zero (hs.born_gc hn)

variable [DecidableEq T] [DecidableEq L] {c : Conf T L}

theorem gc_intact (hr : (system T L).ReachableVia Undisturbed c) : GcIntact c := by
  obtain ⟨place,hi⟩ := reachable_inv hr
  have hs := hi.shared
  constructor
  case chain => exact hs.gcChain
  case nodup => exact hs.gcChain.nodup
  case notNull =>
    refine ⟨chain_ne_zero hs ?_,fun n hn => chain_ne_zero hs (hs.gcChain.next_mem hn)⟩
    by_cases he : c.mem.gcList = c.mem.endNode
    · exact .inl he
    · exact .inr (hs.gcChain.head_mem he)
  case removes =>
    intro t r n d p h
    obtain ⟨hn,rfl,hr,hd⟩ := hi.ok h rfl
    exact ⟨hn,hs.unlink_chain hn hr hd⟩
  case found =>
    intro t ht
    have hp := hi.pos t
    rw [ht] at hp
    exact hp
  case disjoint => exact ⟨c.free,hs.freeChain,fun n hn => hs.gc_free hn⟩

theorem exclusive_nodes (hr : (system T L).ReachableVia Undisturbed c) : ExclusiveNodes c := by
  obtain ⟨place,hi⟩ := reachable_inv hr
  have hs := hi.shared
  constructor
  case nodup => exact hs.nodup
  case unique => exact fun _ _ _ ht hu => hs.held_unique ht hu
  case chain => exact hs.freeChain
  case notFree => exact fun _ _ hn => hs.held_free hn
  case popped =>
    intro t n d p h hn
    have hf : c.mem.freeList = n := next_pop h
    exact hf ▸ hs.freeChain.head_mem (hf.trans_ne hn)
  case new => exact fun _ hf => hs.born_held hf hs.fresh_unborn

instance [Fintype T] (c : Conf T L) (a : Label T L) : Decidable (HeadSteady c a) :=
  inferInstanceAs (Decidable (_ → ∀ _, ¬_))

instance (c : Conf T L) (a : Label T L) : Decidable (PopCurrent c a) :=
  inferInstanceAs (Decidable (_ = true))

instance [Fintype T] (c : Conf T L) (a : Label T L) : Decidable (Undisturbed c a) :=
  inferInstanceAs (Decidable (_ ∧ _))

def steps {T L : Type} (t : T) (k : ℕ) : List (Label T L) := List.replicate k (.step t)

/-- A client takes two nodes and acquires an object with each. -/
def queueSchedule : List (Label Party Unit) :=
  List.flatten [.acquireNode 1::steps 1 7,.acquireNode 1::steps 1 7,
    [.store () 7],.acquire 1 2 ()::steps 1 5,[.store () 8],.acquire 1 3 ()::steps 1 5,
    [.store () 0]]

/-- One node is queued, `Collect` takes some steps, and the other node is queued. -/
def removeSchedule (k : ℕ) : List (Label Party Unit) :=
  List.flatten [queueSchedule,.delete 1 2 true::steps 1 13,.collect 0::steps 0 k,
    .delete 1 3 true::steps 1 13]

/-- The push comes when `expected` has been read: the compare-exchange fails, the second pass of
`remove` finds the node behind the new head, and it is handed out again. -/
def busySchedule : List (Label Party Unit) :=
  List.flatten [removeSchedule 18,steps 0 16,.acquireNode 1::steps 1 4]

def busyConf : Conf Party Unit :=
  ((system Party Unit).execVia Undisturbed start busySchedule).getD start

example : (busyConf.gc,busyConf.mem.gcList,busyConf.held 1) = ([3],3,[2]) := by decide

theorem busyConf_reachable : (system Party Unit).ReachableVia Undisturbed busyConf :=
  .execViaD busySchedule (.init rfl)

theorem gc_intact_busyConf : GcIntact busyConf := gc_intact busyConf_reachable

theorem exclusive_nodes_busyConf : ExclusiveNodes busyConf := exclusive_nodes busyConf_reachable

/-- The push comes when `remove` has found its node at the head. -/
def wrongSchedule : List (Label Party Unit) := removeSchedule 16++steps 0 4

def wrongConf : Conf Party Unit :=
  ((system Party Unit).execVia PopCurrent start wrongSchedule).getD start

/-- No assertion has failed, and no node has come from the free list at all; the node that was
pushed last is off the gc list, and the one that `remove` was called for is on it. -/
theorem not_gc_intact :
    ∃ c : Conf Party Unit, (system Party Unit).ReachableVia PopCurrent c ∧
      (∀ t, c.pc t ≠ .failed) ∧ ¬GcIntact c := by
  refine ⟨wrongConf,.execViaD wrongSchedule (.init rfl),by decide,fun h => ?_⟩
  have hgc : wrongConf.gc = [3] := by decide
  have hc := h.chain
  rw [hgc] at hc
  exact absurd hc.1 (by decide)

/-- Thread 0 is about to pop node 3 and has read its link to node 2; thread 1 pops both nodes and
gives node 3 back. -/
def abaSchedule : List (Label Party Unit) :=
  List.flatten [.prime 1 2::steps 1 16,.acquireNode 0::steps 0 2,
    .acquireNode 1::steps 1 4,.acquireNode 1::steps 1 4,
    [.store () 7],.acquire 1 3 ()::steps 1 5,.release 1 3 true::steps 1 9,
    steps 0 2,.acquireNode 0::steps 0 4]

def abaConf : Conf Party Unit :=
  ((system Party Unit).execVia HeadSteady start abaSchedule).getD start

/-- Both threads have returned from `AcquireNode` and hold the same node. -/
theorem not_exclusive_nodes :
    ∃ c : Conf Party Unit, (system Party Unit).ReachableVia HeadSteady c ∧
      (∀ t, c.pc t = .idle) ∧ ¬ExclusiveNodes c := by
  refine ⟨abaConf,.execViaD abaSchedule (.init rfl),by decide,fun h => ?_⟩
  exact absurd (h.unique 0 1 2 (by decide) (by decide)) (by decide)

end SharedList
end Benedias
