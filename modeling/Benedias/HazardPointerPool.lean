import Benedias.HazardPointerList
import Benedias.LinkedChain
import Mathlib.Data.List.Perm.Subperm
import Mathlib.Tactic.Common

/-! What the functions of `HazardPointerList` do to its three lists. A `Pool` holds the lists as
such, and each function on the linked nodes is shown to carry out an operation on the pool. -/
namespace Benedias

open LinkedChain BinarySearch

/-- The nodes on the fixed list, the gc list and the free list. -/
structure Pool where
  fixed : List ℕ
  gc : List ℕ
  free : List ℕ

namespace Pool

/-- `n` is the address of a new node, in case one is needed. -/
def acquireNode (p : Pool) (n : ℕ) : Pool × ℕ :=
  match p.free with
  | [] => ({ p with fixed := n::p.fixed },n)
  | m::free => ({ p with free := free },m)

def enqueueFree (p : Pool) (n : ℕ) : Pool := { p with free := n::p.free }
def enqueueGc (p : Pool) (n : ℕ) : Pool := { p with gc := n::p.gc }

def prime (p : Pool) (n : ℕ) : ℕ → Pool
  | 0 => p
  | k+1 => prime { p with fixed := n::p.fixed, free := n::p.free } (n+1) k

/-- Keep what is protected, in order, and free the rest. -/
def collect (p : Pool) (keep : ℕ → Bool) : Pool :=
  { p with gc := p.gc.filter keep, free := (p.gc.filter (!keep ·)).reverse++p.free }

/-- The node is in use by a client: on the fixed list and on no other. -/
structure Off (p : Pool) (n : ℕ) : Prop where
  fixed : n ∈ p.fixed
  gc : n ∉ p.gc
  free : n ∉ p.free

end Pool

namespace HazardPointerList

def nextOf (s : HazardPointerList) (n : ℕ) : ℕ := (s.node n).next
def fixedLinkOf (s : HazardPointerList) (n : ℕ) : ℕ := (s.node n).fixedLink

/-- The fixed list holds every node that has been allocated. -/
structure Complete (s : HazardPointerList) (fixed : List ℕ) : Prop where
  chain : Chain s.fixedLinkOf s.endNode s.nodes fixed
  endNode : 0 < s.endNode ∧ s.endNode < s.fresh
  endPointer : (s.node s.endNode).pointer = 0
  mem : ∀ n, n ∈ fixed ↔ n ≠ 0 ∧ n ≠ s.endNode ∧ n < s.fresh

/-- The lists in memory spell the pool, and every node is as its place demands. -/
structure Represents (s : HazardPointerList) (p : Pool) : Prop where
  complete : s.Complete p.fixed
  gc : Chain s.nextOf s.endNode s.gcList p.gc
  free : Chain s.nextOf s.endNode s.freeList p.free
  endNext : s.nextOf s.endNode = s.endNode
  gcNode : ∀ n ∈ p.gc, n ∈ p.fixed ∧ (s.node n).pointer = 0 ∧ (s.node n).gcPointer ≠ 0
  freeNode : ∀ n ∈ p.free, n ∈ p.fixed ∧ (s.node n).pointer = 0 ∧ (s.node n).gcPointer = 0
  offList : ∀ n ∈ p.fixed, n ∉ p.gc → n ∉ p.free → s.nextOf n = 0 ∧ (s.node n).gcPointer = 0

theorem init_represents : init.Represents ⟨[],[],[]⟩ := by
  constructor
  case complete => constructor <;> simp [init]; intro n h0 h1; omega
  all_goals simp [init,nextOf]

theorem Represents.disjoint {s : HazardPointerList} {p : Pool} (hr : s.Represents p) {n : ℕ}
    (hg : n ∈ p.gc) : n ∉ p.free :=
  fun hf => (hr.gcNode n hg).2.2 (hr.freeNode n hf).2.2

section Setters

variable (s : HazardPointerList) (n p : ℕ) (head : Head)

@[simp] theorem setPointer_nextOf : (s.setPointer n p).nextOf = s.nextOf := by
  funext m
  rcases eq_or_ne m n with rfl | h <;> simp [nextOf,setPointer,setNode, *]

@[simp] theorem setGcPointer_nextOf : (s.setGcPointer n p).nextOf = s.nextOf := by
  funext m
  rcases eq_or_ne m n with rfl | h <;> simp [nextOf,setGcPointer,setNode, *]

@[simp] theorem setFixedLink_nextOf : (s.setFixedLink n p).nextOf = s.nextOf := by
  funext m
  rcases eq_or_ne m n with rfl | h <;> simp [nextOf,setFixedLink,setNode, *]

@[simp] theorem setNext_nextOf : (s.setNext n p).nextOf = Function.update s.nextOf n p := by
  funext m
  rcases eq_or_ne m n with rfl | h <;> simp [nextOf,setNext,setNode, *]

@[simp] theorem setHead_node : (s.setHead head n).node = s.node := by cases head <;> rfl

@[simp] theorem setHead_nextOf : (s.setHead head n).nextOf = s.nextOf := by
  funext m
  simp [nextOf]

@[simp] theorem setPointer_fixedLinkOf : (s.setPointer n p).fixedLinkOf = s.fixedLinkOf := by
  funext m
  rcases eq_or_ne m n with rfl | h <;> simp [fixedLinkOf,setPointer,setNode, *]

@[simp] theorem setGcPointer_fixedLinkOf : (s.setGcPointer n p).fixedLinkOf = s.fixedLinkOf := by
  funext m
  rcases eq_or_ne m n with rfl | h <;> simp [fixedLinkOf,setGcPointer,setNode, *]

theorem setPointer_ne {m : ℕ} (h : m ≠ n) : (s.setPointer n p).node m = s.node m := by
  simp [setPointer,setNode,h]

theorem setGcPointer_ne {m : ℕ} (h : m ≠ n) : (s.setGcPointer n p).node m = s.node m := by
  simp [setGcPointer,setNode,h]

@[simp] theorem setPointer_self : (s.setPointer n p).node n = { s.node n with pointer := p } := by
  simp [setPointer,setNode]

@[simp] theorem setGcPointer_self :
    (s.setGcPointer n p).node n = { s.node n with gcPointer := p } := by
  simp [setGcPointer,setNode]

theorem setGcPointer_pointer (m v : ℕ) :
    ((s.setGcPointer n v).node m).pointer = (s.node m).pointer := by
  rcases eq_or_ne m n with rfl | h <;> simp [setGcPointer,setNode, *]

theorem setPointer_gcPointer (m v : ℕ) :
    ((s.setPointer n v).node m).gcPointer = (s.node m).gcPointer := by
  rcases eq_or_ne m n with rfl | h <;> simp [setPointer,setNode, *]

@[simp] theorem setNext_head : (s.setNext n p).head head = s.head head := by cases head <;> rfl
@[simp] theorem setNext_endNode : (s.setNext n p).endNode = s.endNode := rfl

@[simp] theorem setHead_head : (s.setHead head n).head head = n := by cases head <;> rfl

theorem setHead_head_ne {head head' : Head} (h : head' ≠ head) :
    (s.setHead head n).head head' = s.head head' := by
  cases head <;> cases head' <;> simp_all [HazardPointerList.head,setHead]

@[simp] theorem setHead_endNode : (s.setHead head n).endNode = s.endNode := by cases head <;> rfl

end Setters

/-- Only the links of the gc and free lists differ, and the heads of these. -/
structure Relinked (s s' : HazardPointerList) : Prop where
  pointer : ∀ n, (s'.node n).pointer = (s.node n).pointer
  gcPointer : ∀ n, (s'.node n).gcPointer = (s.node n).gcPointer
  fixedLink : ∀ n, (s'.node n).fixedLink = (s.node n).fixedLink
  endNode : s'.endNode = s.endNode
  nodes : s'.nodes = s.nodes
  allHazPtrs : s'.allHazPtrs = s.allHazPtrs
  fresh : s'.fresh = s.fresh
  deleted : s'.deleted = s.deleted

theorem setNext_relinked (s : HazardPointerList) (n p : ℕ) : Relinked s (s.setNext n p) := by
  constructor <;> simp only [setNext,setNode] <;> intro m
  all_goals rcases eq_or_ne m n with rfl | h <;> simp [*]

theorem setHead_relinked (s : HazardPointerList) (head : Head) (n : ℕ) :
    Relinked s (s.setHead head n) := by
  cases head <;> exact ⟨fun _ => rfl,fun _ => rfl,fun _ => rfl,rfl,rfl,rfl,rfl,rfl⟩

theorem Relinked.trans {s s' s'' : HazardPointerList} (h : Relinked s s') (h' : Relinked s' s'') :
    Relinked s s'' :=
  ⟨fun n => (h'.pointer n).trans (h.pointer n),fun n => (h'.gcPointer n).trans (h.gcPointer n),
    fun n => (h'.fixedLink n).trans (h.fixedLink n),h'.endNode.trans h.endNode,
    h'.nodes.trans h.nodes,h'.allHazPtrs.trans h.allHazPtrs,h'.fresh.trans h.fresh,
    h'.deleted.trans h.deleted⟩

theorem isUnqueued_iff {s : HazardPointerList} {n : ℕ} : s.isUnqueued n ↔ s.nextOf n = 0 := by
  simp [isUnqueued,nextOf]

/-- What `push` does when its assertion holds. -/
theorem push_spec {s : HazardPointerList} {n : ℕ} (head : Head) (hn : s.nextOf n = 0) :
    ∃ s', s.push n head = some s' ∧ Relinked s s' ∧
      s'.nextOf = Function.update s.nextOf n (s.head head) ∧ s'.head head = n ∧
      ∀ head', head' ≠ head → s'.head head' = s.head head' := by
  refine ⟨(s.setNext n (s.head head)).setHead head n,?_,?_,by simp,by simp,?_⟩
  · have hu : s.isUnqueued n := isUnqueued_iff.mpr hn
    simp [push,hu]
  · exact (setNext_relinked _ _ _).trans (setHead_relinked _ _ _)
  · intro head' h
    simp [setHead_head_ne _ _ h]

/-- What `pop` does to a list that is not empty. -/
theorem pop_spec {s : HazardPointerList} (head : Head) (he : s.head head ≠ s.endNode) :
    ∃ s', s.pop head = (s',s.head head) ∧ Relinked s s' ∧
      s'.nextOf = Function.update s.nextOf (s.head head) 0 ∧
      s'.head head = s.nextOf (s.head head) ∧
      ∀ head', head' ≠ head → s'.head head' = s.head head' := by
  refine ⟨(s.setHead head (s.nextOf (s.head head))).setNext (s.head head) 0,?_,?_,by simp,?_,?_⟩
  · simp [pop,he,nextOf]
  · exact (setHead_relinked _ _ _).trans (setNext_relinked _ _ _)
  · simp
  · intro head' h
    simp [setHead_head_ne _ _ h]

/-- The reference behind the nodes of a list. -/
def Ref.after (r : Ref) : List ℕ → Ref
  | [] => r
  | n::l => Ref.after (.next n) l

/-- The inner loop of `remove` stops at the reference to the node. -/
theorem findLink_eq {s : HazardPointerList} {n : ℕ} {p q : List ℕ} :
    ∀ (r : Ref) (fuel : ℕ), Chain s.nextOf s.endNode (s.deref r) (p++n::q) → p.length < fuel →
      s.findLink n fuel r = some (r.after p) ∧ s.deref (r.after p) = n := by
  induction p with
  | nil =>
    intro r fuel hc hf
    obtain ⟨k,rfl⟩ := Nat.exists_eq_add_one_of_ne_zero (Nat.ne_zero_of_lt hf)
    have hr : s.deref r = n := hc.1
    simp [findLink,hr,Ref.after]
  | cons a p ih =>
    intro r fuel hc hf
    have hn := hc.nodup
    obtain ⟨ha,hs,hc⟩ := hc
    obtain ⟨k,rfl⟩ := Nat.exists_eq_add_one_of_ne_zero (Nat.ne_zero_of_lt hf)
    have hne : a ≠ n := by
      rintro rfl
      simp at hn
    have h := ih (.next a) k hc (by simp at hf; omega)
    simpa [findLink,Ref.after,ha,hs,hne] using h

theorem Ref.after_concat (r : Ref) (p : List ℕ) (a : ℕ) : r.after (p++[a]) = .next a := by
  induction p generalizing r with
  | nil => rfl
  | cons b p ih => exact ih _

/-- `remove` takes exactly the given node out of its list. -/
theorem remove_spec {s : HazardPointerList} {n : ℕ} {head : Head} {p q : List ℕ}
    (hc : Chain s.nextOf s.endNode (s.head head) (p++n::q)) (hf : p.length < s.fresh) :
    ∃ s', s.remove n head = some s' ∧ Relinked s s' ∧
      Chain s'.nextOf s'.endNode (s'.head head) (p++q) ∧ s'.nextOf n = 0 ∧
      (∀ m, m ∉ p → m ≠ n → s'.nextOf m = s.nextOf m) ∧
      ∀ head', head' ≠ head → s'.head head' = s.head head' := by
  have hn := hc.nodup
  have hne : n ≠ s.endNode := by
    rintro rfl
    exact hc.stop_not_mem (by simp)
  obtain ⟨hfind,hder⟩ := findLink_eq (.head head) _ hc hf
  have hrun : s.remove n head =
      some ((s.assign ((Ref.head head).after p) (s.nextOf n)).setNext n 0) := by
    simp [remove,hfind,hder,hne,nextOf]
  refine ⟨_,hrun,?_⟩
  rcases List.eq_nil_or_concat p with rfl | ⟨p,b,rfl⟩
  · have hq := hc.2.2
    have hnq : n ∉ q := (List.nodup_cons.mp hn).1
    refine ⟨(setHead_relinked s head _).trans (setNext_relinked _ _ _),?_,by simp,?_,?_⟩
    · simpa [Ref.after,assign] using hq.update hnq
    · intro m _ hm
      simp [Ref.after,assign,hm]
    · intro head' h
      simp [Ref.after,assign,setHead_head_ne _ _ h]
  · simp only [List.concat_eq_append,List.append_assoc,List.singleton_append] at hc hn ⊢
    simp only [Ref.after_concat,assign]
    have hnq : n ∉ p++b::q := by
      simp only [List.nodup_append,List.nodup_cons,List.mem_cons] at hn
      simp only [List.mem_append,List.mem_cons]
      grind
    refine ⟨(setNext_relinked s b _).trans (setNext_relinked _ _ _),?_,by simp,?_,?_⟩
    · simpa using hc.unlink.update hnq
    · intro m hm hmn
      simp only [List.mem_append,List.mem_singleton] at hm
      simp [hmn,show m ≠ b by grind]
    · intro head' h
      simp

theorem Relinked.fixedLinkOf {s s' : HazardPointerList} (h : Relinked s s') :
    s'.fixedLinkOf = s.fixedLinkOf := funext h.fixedLink

section Pool

variable {s s' : HazardPointerList} {p : Pool} {n : ℕ}

theorem Complete.ne_endNode {fixed : List ℕ} (hc : s.Complete fixed) (hn : n ∈ fixed) :
    n ≠ s.endNode := ((hc.mem n).mp hn).2.1

/-- There is fuel for a walk over every node and one step more. -/
theorem Complete.length_lt {fixed l : List ℕ} (hc : s.Complete fixed) (hl : l.Nodup)
    (hs : ∀ n ∈ l, n ∈ fixed) : l.length < s.fresh := by
  have hsub : 0::l ⊆ List.range s.fresh := by
    intro n hn
    rw [List.mem_range]
    rcases List.mem_cons.mp hn with rfl | hn
    · exact hc.endNode.1.trans hc.endNode.2
    · exact ((hc.mem n).mp (hs n hn)).2.2
  have h0 : 0 ∉ l := fun h => ((hc.mem 0).mp (hs 0 h)).1 rfl
  have h := ((List.nodup_cons.mpr ⟨h0,hl⟩).subperm hsub).length_le
  simp only [List.length_cons,List.length_range] at h
  omega

theorem Complete.setPointer {fixed : List ℕ} (hc : s.Complete fixed) (hn : n ∈ fixed) (v : ℕ) :
    (s.setPointer n v).Complete fixed where
  chain := by rw [setPointer_fixedLinkOf]; exact hc.chain
  endNode := hc.endNode
  endPointer := by
    have h := setPointer_ne s n v (hc.ne_endNode hn).symm
    exact (congrArg HazardPointerNode.pointer h).trans hc.endPointer
  mem := hc.mem

theorem Complete.setGcPointer {fixed : List ℕ} (hc : s.Complete fixed) (hn : n ∈ fixed) (v : ℕ) :
    (s.setGcPointer n v).Complete fixed where
  chain := by rw [setGcPointer_fixedLinkOf]; exact hc.chain
  endNode := hc.endNode
  endPointer := by
    have h := setGcPointer_ne s n v (hc.ne_endNode hn).symm
    exact (congrArg HazardPointerNode.pointer h).trans hc.endPointer
  mem := hc.mem

theorem Complete.relink {fixed : List ℕ} (hc : s.Complete fixed) (hl : Relinked s s') :
    s'.Complete fixed where
  chain := by
    rw [hl.fixedLinkOf,hl.endNode,hl.nodes]
    exact hc.chain
  endNode := by
    rw [hl.endNode,hl.fresh]
    exact hc.endNode
  endPointer := by
    rw [hl.endNode,hl.pointer]
    exact hc.endPointer
  mem := by
    rw [hl.endNode,hl.fresh]
    exact hc.mem

/-- The `pointer` of a node in no list is the business of its holder. -/
theorem Represents.setPointer (hr : s.Represents p) (hn : n ∈ p.fixed) (hg : n ∉ p.gc)
    (hf : n ∉ p.free) (v : ℕ) : (s.setPointer n v).Represents p where
  complete := hr.complete.setPointer hn v
  gc := by rw [setPointer_nextOf]; exact hr.gc
  free := by rw [setPointer_nextOf]; exact hr.free
  endNext := by rw [setPointer_nextOf]; exact hr.endNext
  gcNode m hm := by
    rw [setPointer_ne _ _ _ (show m ≠ n by rintro rfl; exact hg hm)]
    exact hr.gcNode m hm
  freeNode m hm := by
    rw [setPointer_ne _ _ _ (show m ≠ n by rintro rfl; exact hf hm)]
    exact hr.freeNode m hm
  offList m hm hmg hmf := by
    have h := hr.offList m hm hmg hmf
    rw [setPointer_nextOf]
    rcases eq_or_ne m n with rfl | hne
    · simpa using h
    · rwa [setPointer_ne _ _ _ hne]

/-- A node of the gc list may have any object. -/
theorem Represents.setGcPointer (hr : s.Represents p) (hn : n ∈ p.gc) {v : ℕ} (hv : v ≠ 0) :
    (s.setGcPointer n v).Represents p where
  complete := hr.complete.setGcPointer (hr.gcNode n hn).1 v
  gc := by rw [setGcPointer_nextOf]; exact hr.gc
  free := by rw [setGcPointer_nextOf]; exact hr.free
  endNext := by rw [setGcPointer_nextOf]; exact hr.endNext
  gcNode m hm := by
    have h := hr.gcNode m hm
    rcases eq_or_ne m n with rfl | hne
    · simpa [hv] using And.intro h.1 h.2.1
    · rwa [setGcPointer_ne _ _ _ hne]
  freeNode m hm := by
    rw [setGcPointer_ne _ _ _ (show m ≠ n by rintro rfl; exact hr.disjoint hn hm)]
    exact hr.freeNode m hm
  offList m hm hmg hmf := by
    rw [setGcPointer_nextOf,setGcPointer_ne _ _ _ (show m ≠ n by rintro rfl; exact hmg hn)]
    exact hr.offList m hm hmg hmf

theorem Represents.deleteObj (hr : s.Represents p) (x : ℕ) : (s.deleteObj x).Represents p :=
  ⟨⟨hr.complete.chain,hr.complete.endNode,hr.complete.endPointer,hr.complete.mem⟩,hr.gc,hr.free,
    hr.endNext,hr.gcNode,hr.freeNode,hr.offList⟩

/-- `push` of a node that is in no list onto the free list. -/
theorem Represents.pushFree (hr : s.Represents p) (hn : n ∈ p.fixed) (hg : n ∉ p.gc)
    (hf : n ∉ p.free) (hp : (s.node n).pointer = 0) :
    ∃ s', s.push n .freeList = some s' ∧ Relinked s s' ∧ s'.Represents (p.enqueueFree n) := by
  have hoff := hr.offList n hn hg hf
  obtain ⟨s',hs,hl,hnext,hhead,hother⟩ := push_spec .freeList (s:=s) (n:=n) hoff.1
  have hgc : s'.gcList = s.gcList := hother .gcList (by simp)
  have hfree : s'.freeList = n := hhead
  have hne := hr.complete.ne_endNode hn
  refine ⟨s',hs,hl,hr.complete.relink hl,?_,?_,?_,?_,?_,?_⟩
  · rw [hnext,hl.endNode,hgc]
    exact hr.gc.update hg
  · rw [hnext,hl.endNode,hfree]
    exact hr.free.push hf hne
  · rw [hnext,hl.endNode,Function.update_of_ne hne.symm]
    exact hr.endNext
  · intro m hm
    rw [hl.pointer,hl.gcPointer]
    exact hr.gcNode m hm
  · intro m hm
    rw [hl.pointer,hl.gcPointer]
    rcases List.mem_cons.mp hm with rfl | hm
    · exact ⟨hn,hp,hoff.2⟩
    · exact hr.freeNode m hm
  · intro m hm hmg hmf
    obtain ⟨hmn,hmf⟩ : m ≠ n ∧ m ∉ p.free := by simpa [Pool.enqueueFree] using hmf
    rw [hl.gcPointer,hnext,Function.update_of_ne hmn]
    exact hr.offList m hm hmg hmf

/-- `push` onto the gc list of a node whose pointer has moved to `gc_pointer`. -/
theorem Represents.pushGc (hr : s.Represents p) (hn : n ∈ p.fixed) (hg : n ∉ p.gc)
    (hf : n ∉ p.free) (hp : (s.node n).pointer ≠ 0) :
    ∃ s', ((s.setGcPointer n (s.node n).pointer).setPointer n 0).push n .gcList = some s' ∧
      Relinked ((s.setGcPointer n (s.node n).pointer).setPointer n 0) s' ∧
      s'.Represents (p.enqueueGc n) := by
  have hoff := hr.offList n hn hg hf
  have hc := (hr.complete.setGcPointer hn (s.node n).pointer).setPointer hn 0
  obtain ⟨s',hs,hl,hnext,hhead,hother⟩ := push_spec .gcList
    (s:=(s.setGcPointer n (s.node n).pointer).setPointer n 0) (n:=n) (by simpa using hoff.1)
  simp only [setPointer_nextOf,setGcPointer_nextOf] at hnext
  have hfree : s'.freeList = s.freeList := hother .freeList (by simp)
  have hgc : s'.gcList = n := hhead
  have hend : s'.endNode = s.endNode := hl.endNode
  have hnext' : s'.nextOf = Function.update s.nextOf n s.gcList := hnext
  have hne := hr.complete.ne_endNode hn
  have hself : (s'.node n).pointer = 0 ∧ (s'.node n).gcPointer = (s.node n).pointer := by
    rw [hl.pointer,hl.gcPointer]
    simp
  have hrest : ∀ m, m ≠ n → (s'.node m).pointer = (s.node m).pointer ∧
      (s'.node m).gcPointer = (s.node m).gcPointer := by
    intro m hm
    rw [hl.pointer,hl.gcPointer,setPointer_ne _ _ _ hm,setGcPointer_ne _ _ _ hm]
    exact ⟨rfl,rfl⟩
  refine ⟨s',hs,hl,hc.relink hl,?_,?_,?_,?_,?_,?_⟩
  · rw [hnext',hend,hgc]
    exact hr.gc.push hg hne
  · rw [hnext',hend,hfree]
    exact hr.free.update hf
  · rw [hnext',hend,Function.update_of_ne hne.symm]
    exact hr.endNext
  · intro m hm
    rcases List.mem_cons.mp hm with rfl | hm'
    · rw [hself.1,hself.2]
      exact ⟨hn,rfl,hp⟩
    · have hmn : m ≠ n := by rintro rfl; exact hg hm'
      rw [(hrest m hmn).1,(hrest m hmn).2]
      exact hr.gcNode m hm'
  · intro m hm
    have hmn : m ≠ n := by rintro rfl; exact hf hm
    rw [(hrest m hmn).1,(hrest m hmn).2]
    exact hr.freeNode m hm
  · intro m hm hmg hmf
    obtain ⟨hmn,hmg⟩ : m ≠ n ∧ m ∉ p.gc := by simpa [Pool.enqueueGc] using hmg
    rw [(hrest m hmn).2,hnext',Function.update_of_ne hmn]
    exact hr.offList m hm hmg hmf

theorem Represents.acquire (hr : s.Represents p) (hn : p.Off n) (v : ℕ) :
    s.acquire n v = some (s.setPointer n v) ∧ (s.setPointer n v).Represents p := by
  have hoff := hr.offList n hn.fixed hn.gc hn.free
  have hu : s.isUnqueued n := isUnqueued_iff.mpr hoff.1
  exact ⟨by simp [HazardPointerList.acquire,hu,hoff.2],hr.setPointer hn.fixed hn.gc hn.free v⟩

theorem Represents.clear (hr : s.Represents p) (hn : p.Off n) :
    s.clear n = some (s.setPointer n 0) ∧ (s.setPointer n 0).Represents p := by
  have hoff := hr.offList n hn.fixed hn.gc hn.free
  exact ⟨by simp [HazardPointerList.clear,hoff.2],hr.setPointer hn.fixed hn.gc hn.free 0⟩

theorem Represents.release_null (hr : s.Represents p) (hn : p.Off n) (hp : (s.node n).pointer = 0) :
    s.release n = some (s,false) := by
  have hoff := hr.offList n hn.fixed hn.gc hn.free
  simp [HazardPointerList.release,hoff.2,hp]

theorem Represents.release (hr : s.Represents p) (hn : p.Off n) (hp : (s.node n).pointer ≠ 0) :
    ∃ s', s.release n = some (s',true) ∧ Relinked (s.setPointer n 0) s' ∧
      s'.Represents (p.enqueueFree n) := by
  have hoff := hr.offList n hn.fixed hn.gc hn.free
  have hr' := hr.setPointer hn.fixed hn.gc hn.free 0
  obtain ⟨s',hs,hl,hrep⟩ := hr'.pushFree hn.fixed hn.gc hn.free (by simp)
  have hu : (s.setPointer n 0).isUnqueued n := isUnqueued_iff.mpr (by simpa using hoff.1)
  refine ⟨s',?_,hl,hrep⟩
  simp [HazardPointerList.release,enqueueFreeRecord,hoff.2,hp,hu,hs]

theorem Represents.delete_null (hr : s.Represents p) (hn : p.Off n) (hp : (s.node n).pointer = 0) :
    s.delete n = some (s,false) := by
  have hoff := hr.offList n hn.fixed hn.gc hn.free
  simp [HazardPointerList.delete,hoff.2,hp]

theorem Represents.delete (hr : s.Represents p) (hn : p.Off n) (hp : (s.node n).pointer ≠ 0) :
    ∃ s', s.delete n = some (s',true) ∧
      Relinked ((s.setGcPointer n (s.node n).pointer).setPointer n 0) s' ∧
      s'.Represents (p.enqueueGc n) := by
  have hoff := hr.offList n hn.fixed hn.gc hn.free
  obtain ⟨s',hs,hl,hrep⟩ := hr.pushGc hn.fixed hn.gc hn.free hp
  have hu : ((s.setGcPointer n (s.node n).pointer).setPointer n 0).isUnqueued n :=
    isUnqueued_iff.mpr (by simpa using hoff.1)
  have hlast : (s'.node n).pointer = 0 := by simp [hl.pointer]
  refine ⟨s',?_,hl,hrep⟩
  simp [HazardPointerList.delete,enqueueRecordForCollection,hoff.2,hp,hu,hs,hlast]

/-- Nothing has been deleted, and the nodes there were keep their `gc_pointer`. -/
structure Quiet (s s' : HazardPointerList) : Prop where
  deleted : s'.deleted = s.deleted
  allHazPtrs : s'.allHazPtrs = s.allHazPtrs
  fresh : s.fresh ≤ s'.fresh
  gcPointer : ∀ n, n < s.fresh → (s'.node n).gcPointer = (s.node n).gcPointer

theorem Quiet.trans {s'' : HazardPointerList} (h : Quiet s s') (h' : Quiet s' s'') : Quiet s s'' :=
  ⟨h'.deleted.trans h.deleted,h'.allHazPtrs.trans h.allHazPtrs,h.fresh.trans h'.fresh,
    fun n hn => (h'.gcPointer n (hn.trans_le h.fresh)).trans (h.gcPointer n hn)⟩

theorem Relinked.quiet (h : Relinked s s') : Quiet s s' :=
  ⟨h.deleted,h.allHazPtrs,h.fresh.ge,fun n _ => h.gcPointer n⟩

theorem setPointer_quiet (s : HazardPointerList) (n v : ℕ) : Quiet s (s.setPointer n v) := by
  refine ⟨rfl,rfl,le_rfl,fun m _ => ?_⟩
  rcases eq_or_ne m n with rfl | h
  · simp
  · rw [setPointer_ne _ _ _ h]

/-- `new` followed by `Add`. -/
theorem newAdd_eq (s : HazardPointerList) : s.new.1.add s.fresh =
    { s with
      node := Function.update s.node s.fresh ⟨0,0,s.nodes,0⟩
      nodes := s.fresh
      fresh := s.fresh+1 } := by
  simp [new,add,setFixedLink,setNode]

theorem newAdd_quiet (s : HazardPointerList) : Quiet s (s.new.1.add s.fresh) := by
  rw [newAdd_eq]
  refine ⟨rfl,rfl,Nat.le_succ _,fun n hn => ?_⟩
  simp [Nat.ne_of_lt hn]

theorem Represents.newAdd (hr : s.Represents p) :
    (s.new.1.add s.fresh).Represents { p with fixed := s.fresh::p.fixed } := by
  have hc := hr.complete
  have hnew : s.fresh ∉ p.fixed := fun h => Nat.lt_irrefl _ ((hc.mem _).mp h).2.2
  have hgc : s.fresh ∉ p.gc := fun h => hnew (hr.gcNode _ h).1
  have hfree : s.fresh ∉ p.free := fun h => hnew (hr.freeNode _ h).1
  have hne : s.endNode ≠ s.fresh := Nat.ne_of_lt hc.endNode.2
  rw [newAdd_eq]
  have hnext : nextOf { s with
      node := Function.update s.node s.fresh ⟨0,0,s.nodes,0⟩
      nodes := s.fresh
      fresh := s.fresh+1 } = Function.update s.nextOf s.fresh 0 := by
    funext m
    rcases eq_or_ne m s.fresh with rfl | h <;> simp [nextOf, *]
  have hfix : fixedLinkOf { s with
      node := Function.update s.node s.fresh ⟨0,0,s.nodes,0⟩
      nodes := s.fresh
      fresh := s.fresh+1 } = Function.update s.fixedLinkOf s.fresh s.nodes := by
    funext m
    rcases eq_or_ne m s.fresh with rfl | h <;> simp [fixedLinkOf, *]
  have hnode : ∀ m, m ≠ s.fresh →
      Function.update s.node s.fresh ⟨0,0,s.nodes,0⟩ m = s.node m := by
    intro m hm
    simp [hm]
  refine ⟨⟨?_,?_,?_,?_⟩,?_,?_,?_,?_,?_,?_⟩
  · rw [hfix]
    exact hc.chain.push hnew hne.symm
  · exact ⟨hc.endNode.1,Nat.lt_succ_of_lt hc.endNode.2⟩
  · simpa [hnode _ hne] using hc.endPointer
  · intro m
    have hpos := hc.endNode
    have h := hc.mem m
    simp only [List.mem_cons,h]
    omega
  · rw [hnext]
    exact hr.gc.update hgc
  · rw [hnext]
    exact hr.free.update hfree
  · rw [hnext,Function.update_of_ne hne]
    exact hr.endNext
  · intro m hm
    have h := hr.gcNode m hm
    simp only [hnode m (by rintro rfl; exact hgc hm)]
    exact ⟨List.mem_cons_of_mem _ h.1,h.2⟩
  · intro m hm
    have h := hr.freeNode m hm
    simp only [hnode m (by rintro rfl; exact hfree hm)]
    exact ⟨List.mem_cons_of_mem _ h.1,h.2⟩
  · intro m hm hmg hmf
    rw [hnext]
    rcases List.mem_cons.mp hm with rfl | hm
    · simp
    · have hmn : m ≠ s.fresh := by rintro rfl; exact hnew hm
      simp only [hnode m hmn,Function.update_of_ne hmn]
      exact hr.offList m hm hmg hmf

theorem Represents.acquireNode (hr : s.Represents p) :
    ∃ s', s.acquireNode = (s',(p.acquireNode s.fresh).2) ∧
      s'.Represents (p.acquireNode s.fresh).1 ∧ Quiet s s' := by
  obtain ⟨fixed,gc,free⟩ := p
  cases free with
  | nil =>
    have hfree : s.freeList = s.endNode := hr.free
    have hpop : s.pop .freeList = (s,s.endNode) := by
      have hend : (s.node s.endNode).next = s.endNode := hr.endNext
      have hset : s.setHead .freeList (s.node s.endNode).next = s := by
        rw [hend,← hfree]
        rfl
      simp [pop,head,hset,hfree]
    refine ⟨s.new.1.add s.fresh,?_,hr.newAdd,newAdd_quiet s⟩
    simp [HazardPointerList.acquireNode,hpop,Pool.acquireNode,new]
  | cons n free =>
    obtain ⟨hn,hne,hrest⟩ := hr.free
    have hhead : s.head .freeList = n := hn
    obtain ⟨s',hs,hl,hnext,hhead',hother⟩ := pop_spec .freeList (s:=s) (by rw [hhead]; exact hne)
    rw [hhead] at hs hnext hhead'
    have hgc : s'.gcList = s.gcList := hother .gcList (by simp)
    have hfree : s'.freeList = s.nextOf n := hhead'
    have hnd := List.nodup_cons.mp hr.free.nodup
    have hng : n ∉ gc := fun h => hr.disjoint h (by simp)
    refine ⟨s',?_,⟨hr.complete.relink hl,?_,?_,?_,?_,?_,?_⟩,hl.quiet⟩
    · simp [HazardPointerList.acquireNode,hs,hl.endNode,hne,Pool.acquireNode]
    · rw [hnext,hl.endNode,hgc]
      exact hr.gc.update hng
    · rw [hnext,hl.endNode,hfree]
      exact hrest.update hnd.1
    · rw [hnext,hl.endNode,Function.update_of_ne (Ne.symm hne)]
      exact hr.endNext
    · intro m hm
      rw [hl.pointer,hl.gcPointer]
      exact hr.gcNode m hm
    · intro m hm
      rw [hl.pointer,hl.gcPointer]
      exact hr.freeNode m (List.mem_cons_of_mem _ hm)
    · intro m hm hmg hmf
      rw [hl.gcPointer,hnext]
      rcases eq_or_ne m n with rfl | hmn
      · exact ⟨by simp,(hr.freeNode m (by simp)).2.2⟩
      · rw [Function.update_of_ne hmn]
        exact hr.offList m hm hmg (by simpa [hmn,Pool.acquireNode] using hmf)

theorem Represents.prime (hr : s.Represents p) (k : ℕ) :
    ∃ s', s.prime k = some s' ∧ s'.Represents (p.prime s.fresh k) ∧ Quiet s s' := by
  induction k generalizing s p with
  | zero => exact ⟨s,rfl,hr,⟨rfl,rfl,le_rfl,fun _ _ => rfl⟩⟩
  | succ k ih =>
    have hnew : s.fresh ∉ p.fixed := fun h => Nat.lt_irrefl _ ((hr.complete.mem _).mp h).2.2
    have hq := newAdd_quiet s
    obtain ⟨s',hs,hl,hr'⟩ := hr.newAdd.pushFree (n:=s.fresh) (by simp)
      (fun h => hnew (hr.gcNode _ h).1) (fun h => hnew (hr.freeNode _ h).1) (by simp [newAdd_eq])
    obtain ⟨s'',hs',hr'',hq'⟩ := ih hr'
    refine ⟨s'',?_,?_,hq.trans (hl.quiet.trans hq')⟩
    · have hstep : s.prime (k+1) =
          ((s.new.1.add s.fresh).push s.fresh .freeList).bind fun s' => s'.prime k := rfl
      rw [hstep,hs]
      exact hs'
    · simpa [Pool.prime,Pool.enqueueFree,hl.fresh,newAdd_eq] using hr''

end Pool

end HazardPointerList
end Benedias
