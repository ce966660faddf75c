import Benedias.HazardPointerPool

/-! `Collect` on its own: the scan gathers every protected object, and the traversal of the gc
list frees exactly the nodes whose object is not among them. -/
namespace Benedias
namespace HazardPointerList

open LinkedChain BinarySearch

/-- The destructor of the objects does not touch the list. -/
def noDtor (_ : ℕ) (s : HazardPointerList) : Option HazardPointerList := some s

/-- The objects that the nodes of a list protect. -/
def hazards (s : HazardPointerList) (fixed : List ℕ) : List ℕ :=
  (fixed.map fun n => (s.node n).pointer).filter (· ≠ 0)

theorem scan_eq {s : HazardPointerList} {l : List ℕ} :
    ∀ (n fuel : ℕ), Chain s.fixedLinkOf s.endNode n l → l.length < fuel →
      s.scan fuel n = some (s.hazards l) := by
  induction l with
  | nil =>
    intro n fuel hc hf
    obtain ⟨k,rfl⟩ := Nat.exists_eq_add_one_of_ne_zero (Nat.ne_zero_of_lt hf)
    have hn : n = s.endNode := hc
    simp [scan,hn,hazards]
  | cons a l ih =>
    intro n fuel hc hf
    obtain ⟨k,rfl⟩ := Nat.exists_eq_add_one_of_ne_zero (Nat.ne_zero_of_lt hf)
    obtain ⟨rfl,hne,hc⟩ := hc
    have h := ih _ k hc (by simp at hf; omega)
    by_cases hp : (s.node n).pointer = 0
    · simp [scan,hne,show s.scan k (s.node n).fixedLink = _ from h,hazards,hp]
    · simp [scan,hne,show s.scan k (s.node n).fixedLink = _ from h,hazards,hp]

/-- What a part of `Collect` that frees the given nodes leaves as it was. -/
structure Collected (s s' : HazardPointerList) (freed : List ℕ) : Prop where
  pointer : ∀ n, (s'.node n).pointer = (s.node n).pointer
  kept : ∀ n, n ∉ freed → (s'.node n).gcPointer = (s.node n).gcPointer
  cleared : ∀ n ∈ freed, (s'.node n).gcPointer = 0
  deleted : s'.deleted = s.deleted++freed.map fun n => (s.node n).gcPointer
  allHazPtrs : s'.allHazPtrs = s.allHazPtrs
  endNode : s'.endNode = s.endNode
  fresh : s'.fresh = s.fresh

/-- A gc node without an object, whatever has been deleted, moves to the free list. -/
theorem Represents.reclaimNode {s : HazardPointerList} {fixed kept l free : List ℕ} {n : ℕ}
    (hr : s.Represents ⟨fixed,kept++n::l,free⟩) (deleted : List ℕ) :
    ∃ s₂ s₃, ({ s.setGcPointer n 0 with deleted := deleted } : HazardPointerList).remove n .gcList =
        some s₂ ∧
      s₂.push n .freeList = some s₃ ∧ (s₂.node s.endNode).pointer = 0 ∧
      s₃.Represents ⟨fixed,kept++l,n::free⟩ ∧
      Relinked { s.setGcPointer n 0 with deleted := deleted } s₃ := by
  let s₁ : HazardPointerList := { s.setGcPointer n 0 with deleted := deleted }
  have hnd := hr.gc.nodup
  have hgn := hr.gcNode n (by simp)
  have hne := hr.complete.ne_endNode hgn.1
  have hnk : n ∉ kept++l := by
    simp only [List.nodup_append,List.nodup_cons,List.mem_cons] at hnd
    simp only [List.mem_append]
    grind
  have hnf : n ∉ free := hr.disjoint (by simp)
  have hc₁ : s₁.Complete fixed := by
    have h := hr.complete.setGcPointer hgn.1 0
    exact ⟨h.chain,h.endNode,h.endPointer,h.mem⟩
  have hnext₁ : s₁.nextOf = s.nextOf := setGcPointer_nextOf s n 0
  have hgc₁ : Chain s₁.nextOf s₁.endNode (s₁.head .gcList) (kept++n::l) := by
    rw [hnext₁]
    exact hr.gc
  have hlen := hr.complete.length_lt hnd fun m hm => (hr.gcNode m hm).1
  obtain ⟨s₂,hs₂,hl₂,hgc₂,hz₂,hsame₂,hother₂⟩ := remove_spec (s:=s₁) hgc₁
    (by simp only [List.length_append] at hlen; exact Nat.lt_of_le_of_lt (Nat.le_add_right _ _) hlen)
  obtain ⟨s₃,hs₃,hl₃,hnext₃,hhead₃,hother₃⟩ := push_spec .freeList (s:=s₂) hz₂
  have hl : Relinked s₁ s₃ := hl₂.trans hl₃
  have hend : s₃.endNode = s.endNode := hl.endNode
  have hfree₂ : s₂.freeList = s.freeList := hother₂ .freeList (by simp)
  have hgc₃ : s₃.gcList = s₂.gcList := hother₃ .gcList (by simp)
  have hfree₃ : s₃.freeList = n := hhead₃
  have hnext : ∀ m, m ∉ kept → m ≠ n → s₃.nextOf m = s.nextOf m := by
    intro m hm hmn
    rw [hnext₃,Function.update_of_ne hmn,hsame₂ m hm hmn,hnext₁]
  have hself : (s₃.node n).gcPointer = 0 := by
    rw [hl.gcPointer]
    exact congrArg HazardPointerNode.gcPointer (setGcPointer_self s n 0)
  have hptr : ∀ m, (s₃.node m).pointer = (s.node m).pointer := by
    intro m
    rw [hl.pointer]
    exact setGcPointer_pointer s n m 0
  have hgcp : ∀ m, m ≠ n → (s₃.node m).gcPointer = (s.node m).gcPointer := by
    intro m h
    rw [hl.gcPointer]
    exact congrArg HazardPointerNode.gcPointer (setGcPointer_ne s n 0 h)
  have hkept : ∀ m ∈ kept++l, m ∈ kept++n::l := by
    intro m hm
    simp only [List.mem_append,List.mem_cons] at hm ⊢
    tauto
  refine ⟨s₂,s₃,hs₂,hs₃,?_,⟨hc₁.relink hl,?_,?_,?_,?_,?_,?_⟩,hl⟩
  · have h := (hc₁.relink hl₂).endPointer
    rwa [show s₂.endNode = s.endNode from hl₂.endNode] at h
  · rw [hnext₃,hl₃.endNode,hgc₃]
    exact hgc₂.update hnk
  · rw [hnext₃,hl₃.endNode,hfree₃]
    have hfree : Chain s₂.nextOf s₂.endNode (s₂.head .freeList) free := by
      rw [show s₂.head .freeList = s.freeList from hfree₂,show s₂.endNode = s.endNode from hl₂.endNode]
      refine hr.free.congr fun m hm => ?_
      have hmk : m ∉ kept := fun h => hr.disjoint (n:=m) (by simp [h]) hm
      rw [hsame₂ m hmk (by rintro rfl; exact hnf hm),hnext₁]
    exact hfree.push hnf (by rw [show s₂.endNode = s.endNode from hl₂.endNode]; exact hne)
  · rw [hend,hnext s.endNode (fun h => hr.gc.stop_not_mem (by simp [h])) hne.symm]
    exact hr.endNext
  · intro m hm
    have h := hr.gcNode m (hkept m hm)
    rw [hptr,hgcp m (by rintro rfl; exact hnk hm)]
    exact h
  · intro m hm
    rcases List.mem_cons.mp hm with rfl | hm'
    · rw [hptr,hself]
      exact ⟨hgn.1,hgn.2.1,rfl⟩
    · have h := hr.freeNode m hm'
      rw [hptr,hgcp m (by rintro rfl; exact hnf hm')]
      exact h
  · intro m hm hmg hmf
    have hmg' : m ∉ kept++l := hmg
    have hmf' : m ≠ n ∧ m ∉ free := by simpa using hmf
    have hmk : m ∉ kept++n::l := by
      simp only [List.mem_append,List.mem_cons] at hmg' ⊢
      tauto
    have h := hr.offList m hm hmk hmf'.2
    rw [hgcp m hmf'.1,hnext m (by simp at hmk; tauto) hmf'.1]
    exact h

/-- One unprotected node: its object is deleted and it moves to the free list. -/
theorem Represents.collectNode {s : HazardPointerList} {fixed kept l free : List ℕ} {n : ℕ}
    (hr : s.Represents ⟨fixed,kept++n::l,free⟩) :
    ∃ s₂ s₃,
      ((s.setGcPointer n 0).deleteObj (s.node n).gcPointer).remove n .gcList = some s₂ ∧
      s₂.push n .freeList = some s₃ ∧ (s₂.node s.endNode).pointer = 0 ∧
      s₃.Represents ⟨fixed,kept++l,n::free⟩ ∧ Collected s s₃ [n] := by
  obtain ⟨s₂,s₃,hs₂,hs₃,hend,hr₃,hl⟩ := hr.reclaimNode (s.deleted++[(s.node n).gcPointer])
  refine ⟨s₂,s₃,hs₂,hs₃,hend,hr₃,?_,?_,?_,hl.deleted,hl.allHazPtrs,hl.endNode,hl.fresh⟩
  · intro m
    rw [hl.pointer]
    exact setGcPointer_pointer s n m 0
  · intro m hm
    rw [hl.gcPointer]
    exact congrArg HazardPointerNode.gcPointer (setGcPointer_ne s n 0 (by simpa using hm))
  · intro m hm
    rw [hl.gcPointer,List.mem_singleton.mp hm]
    exact congrArg HazardPointerNode.gcPointer (setGcPointer_self s n 0)

theorem Collected.refl (s : HazardPointerList) : Collected s s [] := by
  constructor <;> simp

theorem Collected.cons {s s' s'' : HazardPointerList} {n : ℕ} {l : List ℕ} (h : Collected s s' [n])
    (h' : Collected s' s'' l) (hn : n ∉ l) : Collected s s'' (n::l) where
  pointer m := (h'.pointer m).trans (h.pointer m)
  kept m hm := by
    obtain ⟨hmn,hml⟩ := List.ne_and_not_mem_of_not_mem_cons hm
    exact (h'.kept m hml).trans (h.kept m (by simpa using hmn))
  cleared m hm := by
    rcases List.mem_cons.mp hm with rfl | hm
    · exact (h'.kept m hn).trans (h.cleared m (by simp))
    · exact h'.cleared m hm
  deleted := by
    rw [h'.deleted,h.deleted]
    have he : ∀ m ∈ l, (s'.node m).gcPointer = (s.node m).gcPointer := by
      intro m hm
      refine h.kept m ?_
      rw [List.mem_singleton]
      rintro rfl
      exact hn hm
    simp [List.map_congr_left he]
  allHazPtrs := h'.allHazPtrs.trans h.allHazPtrs
  endNode := h'.endNode.trans h.endNode
  fresh := h'.fresh.trans h.fresh

/-- The object of the node was found in the scan. -/
def found (s : HazardPointerList) (n : ℕ) : Bool := binarySearch s.allHazPtrs (s.node n).gcPointer

/-- The traversal keeps the found nodes in their order and frees the others one by one. -/
theorem collectFrom_spec {fixed l : List ℕ} :
    ∀ (s : HazardPointerList) (kept free : List ℕ) (n fuel : ℕ),
      s.Represents ⟨fixed,kept++l,free⟩ → Chain s.nextOf s.endNode n l → l.length < fuel →
      ∃ s', collectFrom noDtor s.endNode fuel s n = some s' ∧
        s'.Represents ⟨fixed,kept++l.filter s.found,(l.filter (!s.found ·)).reverse++free⟩ ∧
        Collected s s' (l.filter (!s.found ·)) := by
  induction l with
  | nil =>
    intro s kept free n fuel hr hc hf
    obtain ⟨k,rfl⟩ := Nat.exists_eq_add_one_of_ne_zero (Nat.ne_zero_of_lt hf)
    have hn : n = s.endNode := hc
    exact ⟨s,by simp [collectFrom,hn],by simpa using hr,.refl s⟩
  | cons a l ih =>
    intro s kept free n fuel hr hc hf
    obtain ⟨k,rfl⟩ := Nat.exists_eq_add_one_of_ne_zero (Nat.ne_zero_of_lt hf)
    have hk : l.length < k := by simp at hf; omega
    obtain ⟨rfl,hne,hc⟩ := hc
    have hgn := hr.gcNode n (by simp)
    have hn0 : n ≠ 0 := ((hr.complete.mem n).mp hgn.1).1
    by_cases hfound : s.found n
    · obtain ⟨s',hs',hr',hcol⟩ := ih s (kept++[n]) free _ k (by simpa using hr) hc hk
      refine ⟨s',?_,by simpa [hfound] using hr',by simpa [hfound] using hcol⟩
      rw [← hs']
      simp [collectFrom,hne,hn0,hgn.2.1,hgn.2.2,show binarySearch _ _ = true from hfound,nextOf]
    · obtain ⟨s₂,s₃,hs₂,hs₃,hend,hr₃,hcol⟩ := hr.collectNode
      have hc₃ : Chain s₃.nextOf s₃.endNode (s.nextOf n) l := by
        rw [← hcol.endNode] at hc
        exact hc.transfer hr₃.gc
      have hnl : n ∉ l := by
        have hnd := hr.gc.nodup
        simp only [List.nodup_append,List.nodup_cons] at hnd
        exact hnd.2.1.1
      have hsame : ∀ m ∈ l, s₃.found m = s.found m := by
        intro m hm
        have hmn : m ∉ [n] := by
          rw [List.mem_singleton]
          rintro rfl
          exact hnl hm
        simp only [found,hcol.allHazPtrs,hcol.kept m hmn]
      obtain ⟨s',hs',hr',hcol'⟩ := ih s₃ kept (n::free) _ k hr₃ hc₃ hk
      have hneg : ∀ m ∈ l, (!s₃.found m) = !s.found m := fun m hm => by rw [hsame m hm]
      rw [List.filter_congr hsame,List.filter_congr hneg] at hr'
      rw [List.filter_congr hneg] at hcol'
      refine ⟨s',?_,by simpa [hfound] using hr',?_⟩
      · rw [← hs']
        simp only [found,Bool.not_eq_true] at hfound
        simp [collectFrom,hne,hn0,hgn.2.1,hgn.2.2,hfound,noDtor,hs₂,hs₃,hend,hcol.endNode,nextOf]
      · have hcons := hcol.cons hcol' (fun h => hnl (List.mem_of_mem_filter h))
        simpa [hfound] using hcons

/-- Some node protects the object that the node is queued with. -/
def guarded (s : HazardPointerList) (fixed : List ℕ) (n : ℕ) : Bool :=
  decide ((s.node n).gcPointer ∈ s.hazards fixed)

theorem mem_hazards {s : HazardPointerList} {fixed : List ℕ} {x : ℕ} :
    x ∈ s.hazards fixed ↔ x ≠ 0 ∧ ∃ n ∈ fixed, (s.node n).pointer = x := by
  simp only [hazards,List.mem_filter,List.mem_map,decide_eq_true_eq]
  tauto

theorem Represents.setHazPtrs {s : HazardPointerList} {p : Pool} (hr : s.Represents p)
    (l : List ℕ) : ({ s with allHazPtrs := l } : HazardPointerList).Represents p :=
  ⟨⟨hr.complete.chain,hr.complete.endNode,hr.complete.endPointer,hr.complete.mem⟩,hr.gc,hr.free,
    hr.endNext,hr.gcNode,hr.freeNode,hr.offList⟩

/-- `Collect` keeps exactly the nodes whose object some node protects at the time of the call. -/
theorem Represents.collect {s : HazardPointerList} {p : Pool} (hr : s.Represents p)
    (hv : s.allHazPtrs = []) :
    ∃ s' done, s.collect noDtor = some (s',done) ∧
      s'.Represents (p.collect (s.guarded p.fixed)) ∧
      Collected s s' (p.gc.filter (!s.guarded p.fixed ·)) := by
  by_cases hgc : s.gcList = s.endNode
  · have hnil : p.gc = [] := Chain.eq_nil (hgc ▸ hr.gc)
    refine ⟨s,false,by simp [HazardPointerList.collect,hgc],?_,?_⟩
    · obtain ⟨fixed,gc,free⟩ := p
      obtain rfl : gc = [] := hnil
      simpa [Pool.collect] using hr
    · simpa [hnil] using Collected.refl s
  · let ptrs := (s.hazards p.fixed).insertionSort (· ≤ ·)
    have hfuel := hr.complete.length_lt hr.complete.chain.nodup fun _ h => h
    have hscan := scan_eq s.nodes s.fresh hr.complete.chain hfuel
    have hfuel' := hr.complete.length_lt hr.gc.nodup fun n hn => (hr.gcNode n hn).1
    obtain ⟨s',hs',hr',hcol⟩ := collectFrom_spec { s with allHazPtrs := ptrs } [] p.free s.gcList
      s.fresh (hr.setHazPtrs ptrs) hr.gc hfuel'
    have hfound : found { s with allHazPtrs := ptrs } = s.guarded p.fixed := by
      funext n
      rw [Bool.eq_iff_iff]
      simp only [found,guarded,decide_eq_true_eq,ptrs,binarySearch_sort]
    rw [hfound] at hr' hcol
    refine ⟨{ s' with allHazPtrs := [] },decide (s'.gcList = s'.endNode),?_,hr'.setHazPtrs [],?_⟩
    · simp only [HazardPointerList.collect,hgc,hscan,hv,List.nil_append,if_false,bind,Option.bind]
      rw [show collectFrom noDtor s.endNode s.fresh _ s.gcList = some s' from hs']
      rfl
    · exact ⟨hcol.pointer,hcol.kept,hcol.cleared,hcol.deleted,hv.symm,hcol.endNode,hcol.fresh⟩

end HazardPointerList
end Benedias
