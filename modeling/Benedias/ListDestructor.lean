import Benedias.CollectResult
import Benedias.NodeConservation

/-! The destructor of `HazardPointerList`: it takes every protection away, collects, and deletes
the nodes along their own links. -/
namespace Benedias
namespace HazardPointerList

open LinkedChain

/-- What the first loop does with a node. -/
def releaseNode (s : HazardPointerList) (node : ℕ) : Option HazardPointerList :=
  if (s.node node).pointer ≠ 0 then (s.release node).map Prod.fst else some s

/-- The first loop. -/
def releaseNodes : ℕ → HazardPointerList → ℕ → Option HazardPointerList
  | 0, _, _ => none
  | n+1, s, node =>
    if node = s.endNode then some s
    else do
      let s ← s.releaseNode node
      releaseNodes n s (s.node node).fixedLink

/-- The last loop; a node that is among the deleted ones is neither read nor deleted again. -/
def deleteNodes (s : HazardPointerList) : ℕ → ℕ → List ℕ → Option (List ℕ)
  | 0, _, _ => none
  | n+1, node, freed =>
    if node = s.endNode then some freed
    else do
      guard (node ∉ freed)
      let delNode := node
      s.deleteNodes n (s.node node).fixedLink (freed++[delNode])

/-- `~HazardPointerList` after `DeregisterClient`, which does not touch the list, and the nodes
it deletes, in order. -/
def destroy (dtor : ℕ → HazardPointerList → Option HazardPointerList) (s : HazardPointerList) :
    Option (HazardPointerList × List ℕ) := do
  let s ← releaseNodes s.fresh s s.nodes
  let (s,_) ← s.collect dtor
  let s := { s with gcList := s.endNode, freeList := s.endNode }
  let node := s.nodes
  let s := { s with nodes := s.endNode }
  let freed ← s.deleteNodes s.fresh node []
  guard (s.endNode ∉ freed)
  return (s,freed++[s.endNode])

/-- What the first loop does to the nodes of `l`, and what it leaves. -/
structure Released (s s' : HazardPointerList) (l : List ℕ) : Prop where
  released : ∀ n ∈ l, (s'.node n).pointer = 0
  pointer : ∀ n, n ∉ l → (s'.node n).pointer = (s.node n).pointer
  gcPointer : ∀ n, (s'.node n).gcPointer = (s.node n).gcPointer
  fixedLink : ∀ n, (s'.node n).fixedLink = (s.node n).fixedLink
  endNode : s'.endNode = s.endNode
  nodes : s'.nodes = s.nodes
  allHazPtrs : s'.allHazPtrs = s.allHazPtrs
  fresh : s'.fresh = s.fresh
  deleted : s'.deleted = s.deleted

theorem Released.nil (s : HazardPointerList) : Released s s [] := by
  constructor <;> simp

theorem Released.cons {s s₁ s' : HazardPointerList} {n : ℕ} {l : List ℕ} (h : Released s s₁ [n])
    (h' : Released s₁ s' l) : Released s s' (n::l) where
  released m hm := by
    by_cases hl : m ∈ l
    · exact h'.released m hl
    · obtain rfl : m = n := by simpa [hl] using hm
      rw [h'.pointer m hl]
      exact h.released m (by simp)
  pointer m hm := by
    obtain ⟨hmn,hml⟩ := List.ne_and_not_mem_of_not_mem_cons hm
    exact (h'.pointer m hml).trans (h.pointer m (by simpa using hmn))
  gcPointer m := (h'.gcPointer m).trans (h.gcPointer m)
  fixedLink m := (h'.fixedLink m).trans (h.fixedLink m)
  endNode := h'.endNode.trans h.endNode
  nodes := h'.nodes.trans h.nodes
  allHazPtrs := h'.allHazPtrs.trans h.allHazPtrs
  fresh := h'.fresh.trans h.fresh
  deleted := h'.deleted.trans h.deleted

theorem Released.same {s : HazardPointerList} {n : ℕ} (hp : (s.node n).pointer = 0) :
    Released s s [n] := by
  constructor <;> simp [hp]

theorem Relinked.released {s s' : HazardPointerList} {n : ℕ}
    (h : Relinked (s.setPointer n 0) s') : Released s s' [n] where
  released m hm := by
    obtain rfl := List.mem_singleton.mp hm
    rw [h.pointer]
    simp
  pointer m hm := by
    rw [h.pointer,setPointer_ne _ _ _ (by simpa using hm)]
  gcPointer m := by
    rw [h.gcPointer]
    exact setPointer_gcPointer s n m 0
  fixedLink m := by
    rw [h.fixedLink]
    exact congrFun (setPointer_fixedLinkOf s n 0) m
  endNode := h.endNode
  nodes := h.nodes
  allHazPtrs := h.allHazPtrs
  fresh := h.fresh
  deleted := h.deleted

/-- One node of the fixed list: if it protects an object it goes to the free list. -/
theorem Represents.releaseNode {s : HazardPointerList} {p : Pool} {n : ℕ} (hr : s.Represents p)
    (hn : n ∈ p.fixed) : ∃ s' free, s.releaseNode n = some s' ∧
      s'.Represents { p with free := free } ∧ Released s s' [n] := by
  by_cases hp : (s.node n).pointer = 0
  · exact ⟨s,p.free,by simp [HazardPointerList.releaseNode,hp],hr,.same hp⟩
  · have hoff : p.Off n := ⟨hn,fun hg => hp (hr.gcNode n hg).2.1,fun hf => hp (hr.freeNode n hf).2.1⟩
    obtain ⟨s',hs,hl,hr'⟩ := hr.release hoff hp
    exact ⟨s',n::p.free,by simp [HazardPointerList.releaseNode,hp,hs],hr',hl.released⟩

theorem releaseNodes_spec {p : Pool} {l : List ℕ} :
    ∀ (s : HazardPointerList) (free : List ℕ) (n fuel : ℕ), s.Represents { p with free := free } →
      Chain s.fixedLinkOf s.endNode n l → (∀ m ∈ l, m ∈ p.fixed) → l.length < fuel →
      ∃ s' free', releaseNodes fuel s n = some s' ∧ s'.Represents { p with free := free' } ∧
        Released s s' l := by
  induction l with
  | nil =>
    intro s free n fuel hr hc hm hf
    obtain ⟨k,rfl⟩ := Nat.exists_eq_add_one_of_ne_zero (Nat.ne_zero_of_lt hf)
    have hn : n = s.endNode := hc
    exact ⟨s,free,by simp [releaseNodes,hn],hr,.nil s⟩
  | cons a l ih =>
    intro s free n fuel hr hc hm hf
    obtain ⟨k,rfl⟩ := Nat.exists_eq_add_one_of_ne_zero (Nat.ne_zero_of_lt hf)
    obtain ⟨rfl,hne,hc⟩ := hc
    obtain ⟨s₁,free₁,hs₁,hr₁,hrel⟩ := hr.releaseNode (hm n (by simp))
    have hlinks : s₁.fixedLinkOf = s.fixedLinkOf := funext hrel.fixedLink
    have hc₁ : Chain s₁.fixedLinkOf s₁.endNode (s₁.node n).fixedLink l := by
      rw [hlinks,hrel.endNode,hrel.fixedLink]
      exact hc
    obtain ⟨s',free',hs',hr',hrel'⟩ := ih s₁ free₁ _ k hr₁ hc₁
      (fun m hml => hm m (List.mem_cons_of_mem _ hml)) (by simp at hf; omega)
    refine ⟨s',free',?_,hr',hrel.cons hrel'⟩
    rw [← hs']
    simp [releaseNodes,hne,hs₁,hrel.fixedLink]

theorem deleteNodes_spec {s : HazardPointerList} {l : List ℕ} :
    ∀ (n fuel : ℕ) (freed : List ℕ), Chain s.fixedLinkOf s.endNode n l → (freed++l).Nodup →
      l.length < fuel → s.deleteNodes fuel n freed = some (freed++l) := by
  induction l with
  | nil =>
    intro n fuel freed hc hd hf
    obtain ⟨k,rfl⟩ := Nat.exists_eq_add_one_of_ne_zero (Nat.ne_zero_of_lt hf)
    have hn : n = s.endNode := hc
    simp [deleteNodes,hn]
  | cons a l ih =>
    intro n fuel freed hc hd hf
    obtain ⟨k,rfl⟩ := Nat.exists_eq_add_one_of_ne_zero (Nat.ne_zero_of_lt hf)
    obtain ⟨rfl,hne,hc⟩ := hc
    have hn : n ∉ freed := fun h => (List.nodup_append.mp hd).2.2 n h n (by simp) rfl
    have h := ih _ k (freed++[n]) hc (by simpa using hd) (by simp at hf; omega)
    rw [List.append_assoc,List.singleton_append] at h
    rw [← h]
    simp [deleteNodes,hne,hn,fixedLinkOf]

/-- Once no node protects anything, `Collect` deletes all that is queued. -/
theorem collect_unprotected {s : HazardPointerList} {p : Pool}
    (h : ∀ n ∈ p.fixed, (s.node n).pointer = 0) : p.gc.filter (!s.guarded p.fixed ·) = p.gc := by
  rw [List.filter_eq_self]
  intro n hn
  simp only [guarded,mem_hazards,Bool.not_eq_true',decide_eq_false_iff_not]
  rintro ⟨h0,m,hm,hp⟩
  exact h0 (hp.symm.trans (h m hm))

/-- The destructor deletes each queued object, and each node, `end_node` last. -/
theorem Represents.destroy {s : HazardPointerList} {p : Pool} (hr : s.Represents p)
    (hv : s.allHazPtrs = []) :
    ∃ s', s.destroy noDtor = some (s',p.fixed++[s.endNode]) ∧
      s'.deleted = s.deleted++p.gc.map fun n => (s.node n).gcPointer := by
  have hc := hr.complete
  have hlen := hc.length_lt hc.chain.nodup fun _ h => h
  obtain ⟨s₁,free₁,hs₁,hr₁,hrel⟩ :=
    releaseNodes_spec s p.free s.nodes s.fresh hr hc.chain (fun _ h => h) hlen
  obtain ⟨s₂,done,hs₂,hr₂,hcol⟩ := hr₁.collect (hrel.allHazPtrs.trans hv)
  have hgc : p.gc.filter (!s₁.guarded p.fixed ·) = p.gc :=
    collect_unprotected (p:=p) hrel.released
  have hend : s₂.endNode = s.endNode := hcol.endNode.trans hrel.endNode
  have hfresh : s₂.fresh = s.fresh := hcol.fresh.trans hrel.fresh
  have hdel := deleteNodes_spec
    (s:={ s₂ with gcList := s₂.endNode, freeList := s₂.endNode, nodes := s₂.endNode })
    s₂.nodes s₂.fresh [] hr₂.complete.chain hr₂.complete.chain.nodup (hfresh ▸ hlen)
  refine ⟨{ s₂ with gcList := s₂.endNode, freeList := s₂.endNode, nodes := s₂.endNode },?_,?_⟩
  · have hstop : s.endNode ∉ p.fixed := hc.chain.stop_not_mem
    simp only [HazardPointerList.destroy,hs₁,hs₂,hdel,bind,Option.bind_some]
    simp [hstop,hend,Pool.collect]
  · change s₂.deleted = _
    rw [hcol.deleted,hrel.deleted,hgc]
    simp [hrel.gcPointer]

end HazardPointerList

namespace HazardPointerRuns

open Interleaving HazardPointerList

variable {H : Type} [DecidableEq H]

/-- After any serialized run `~HazardPointerList` runs to its end without a failed assertion. All
that was ever passed to `Delete` is deleted then, once for each call, the objects still queued by
the destructor, and nothing else is. Each node that was ever created is deleted once, and
`end_node` last. -/
theorem destructor_exact {c : Conf H} (h : (system H).Reachable c) :
    ∃ p s' freed, c.list.Represents p ∧ c.list.destroy noDtor = some (s',freed) ∧
      s'.deleted = c.list.deleted++p.gc.map (fun n => (c.list.node n).gcPointer) ∧
      (c.retired.Nodup → s'.deleted.Nodup) ∧ s'.deleted.Perm c.retired ∧
      freed = p.fixed++[c.list.endNode] ∧ freed.Nodup ∧
      ∀ n, n ∈ freed ↔ n ≠ 0 ∧ n < c.list.fresh := by
  obtain ⟨p,hi,hret⟩ := reachable_account h
  have hr := hi.represents
  obtain ⟨s',hs',hdel⟩ := hr.destroy hi.hazPtrs
  have hperm : s'.deleted.Perm c.retired := hdel ▸ hret
  have hc := hr.complete
  refine ⟨p,s',_,hr,hs',hdel,hperm.nodup_iff.mpr,hperm,rfl,?_,fun n => ?_⟩
  · rw [List.nodup_append]
    refine ⟨hc.chain.nodup,by simp,?_⟩
    rintro n hn m hm rfl
    exact hc.chain.stop_not_mem (List.mem_singleton.mp hm ▸ hn)
  · have hpos := hc.endNode
    rw [List.mem_append,List.mem_singleton,hc.mem n]
    constructor
    · rintro (⟨h0,-,hlt⟩ | rfl)
      · exact ⟨h0,hlt⟩
      · exact ⟨Nat.ne_of_gt hpos.1,hpos.2⟩
    · rintro ⟨h0,hlt⟩
      by_cases he : n = c.list.endNode
      · exact .inr he
      · exact .inl ⟨h0,he,hlt⟩

/-- The queue holds an object that a third node still protects. -/
theorem destructor_exact_queueConf :
    ∃ p s' freed, queueConf.list.Represents p ∧ queueConf.list.destroy noDtor = some (s',freed) ∧
      s'.deleted = queueConf.list.deleted++p.gc.map (fun n => (queueConf.list.node n).gcPointer) ∧
      (queueConf.retired.Nodup → s'.deleted.Nodup) ∧ s'.deleted.Perm queueConf.retired ∧
      freed = p.fixed++[queueConf.list.endNode] ∧ freed.Nodup ∧
      ∀ n, n ∈ freed ↔ n ≠ 0 ∧ n < queueConf.list.fresh :=
  destructor_exact queueConf_reachable

end HazardPointerRuns
end Benedias
