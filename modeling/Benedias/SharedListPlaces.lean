import Benedias.SharedList
import Benedias.HazardPointerPool

/-! The shared lists under single writes: each node is in one place, the three chains spell the
nodes in their places, and a write of one thread keeps this if it writes links of its own nodes
only and its compare-exchanges find the links it has read. -/
namespace Benedias
namespace SharedList

open LinkedChain HazardPointerList

/-- Where a node is. -/
inductive Place (T : Type)
  | unborn | held (t : T) | gc | free | lost
  deriving DecidableEq

variable {T L : Type}

/-- The list has exactly the nodes in the place. -/
def Covers (l : List ℕ) (place : ℕ → Place T) (k : Place T) : Prop := ∀ n, n ∈ l ↔ place n = k

section Covers

variable {l : List ℕ} {place : ℕ → Place T} {k k' : Place T} {n : ℕ}

theorem Covers.cons (h : Covers l place k) : Covers (n::l) (Function.update place n k) k := by
  intro m
  by_cases hm : m = n
  · simp [hm]
  · simpa [hm] using h m

theorem Covers.erase (h : Covers l place k) (hl : l.Nodup) (hk : k' ≠ k) :
    Covers (l.erase n) (Function.update place n k') k := by
  intro m
  by_cases hm : m = n
  · simp [hm,hk,hl.not_mem_erase]
  · simpa [hm] using h m

theorem Covers.update (h : Covers l place k) (hn : place n ≠ k) (hk : k' ≠ k) :
    Covers l (Function.update place n k') k := by
  intro m
  by_cases hm : m = n
  · simpa [hm,hk,h n] using hn
  · simpa [hm] using h m

end Covers

/-- What holds of the shared state whatever the program points of the threads. -/
structure Shared (c : Conf T L) (place : ℕ → Place T) : Prop where
  gcChain : Chain c.mem.nextOf c.mem.endNode c.mem.gcList c.gc
  freeChain : Chain c.mem.nextOf c.mem.endNode c.mem.freeList c.free
  fixedChain : Chain c.mem.fixedLinkOf c.mem.endNode c.mem.nodes c.fixed
  endNode : 0 < c.mem.endNode ∧ c.mem.endNode < c.mem.fresh
  endNext : c.mem.nextOf c.mem.endNode = c.mem.endNode
  gcPlace : Covers c.gc place .gc
  freePlace : Covers c.free place .free
  heldPlace : ∀ t, Covers (c.held t) place (.held t)
  nodup : ∀ t, (c.held t).Nodup
  born : ∀ n, place n ≠ .unborn ↔ n ≠ 0 ∧ n ≠ c.mem.endNode ∧ n < c.mem.fresh
  fixedBorn : ∀ n ∈ c.fixed, place n ≠ .unborn

section Shared

variable {c : Conf T L} {place : ℕ → Place T} {n : ℕ} {t : T}

theorem Shared.born_gc (hs : Shared c place) (hn : n ∈ c.gc) : place n ≠ .unborn := by
  rw [(hs.gcPlace n).mp hn]
  simp

theorem Shared.born_held (hs : Shared c place) (hn : n ∈ c.held t) : place n ≠ .unborn := by
  rw [(hs.heldPlace t n).mp hn]
  simp

theorem Shared.ne_zero (hs : Shared c place) (hn : place n ≠ .unborn) : n ≠ 0 :=
  ((hs.born n).mp hn).1

theorem Shared.ne_endNode (hs : Shared c place) (hn : place n ≠ .unborn) : n ≠ c.mem.endNode :=
  ((hs.born n).mp hn).2.1

theorem Shared.held_gc (hs : Shared c place) (hn : n ∈ c.held t) : n ∉ c.gc := by
  rw [hs.gcPlace,(hs.heldPlace t n).mp hn]
  simp

theorem Shared.held_free (hs : Shared c place) (hn : n ∈ c.held t) : n ∉ c.free := by
  rw [hs.freePlace,(hs.heldPlace t n).mp hn]
  simp

theorem Shared.held_unique (hs : Shared c place) {u : T} (hn : n ∈ c.held t) (hu : n ∈ c.held u) :
    t = u := by
  have h := ((hs.heldPlace t n).mp hn).symm.trans ((hs.heldPlace u n).mp hu)
  simpa using h

theorem Shared.gc_free (hs : Shared c place) (hn : n ∈ c.gc) : n ∉ c.free := by
  rw [hs.freePlace,(hs.gcPlace n).mp hn]
  simp

theorem Shared.fresh_unborn (hs : Shared c place) : place c.mem.fresh = .unborn := by
  by_contra h
  exact Nat.lt_irrefl _ ((hs.born _).mp h).2.2

end Shared

/-- The node `m` comes before `g` on the list. -/
def Before (l : List ℕ) (m g : ℕ) : Prop := ∃ a b, l = a++m::b ∧ g ∈ b

/-- `ppnode` of `remove(g)` is the head or a link before `g`. -/
def RefOk (l : List ℕ) (g : ℕ) : Ref → Prop
  | .head head => head = .gcList
  | .next m => Before l m g

/-- What a write relies on. -/
def Write.Ok (c : Conf T L) (t : T) : Write → Prop
  | .next node _ | .drop node => node ∈ c.held t
  | .fixedLink node _ => node ∈ c.held t ∧ node ∉ c.fixed
  | .add node => node ∈ c.held t ∧ node ∉ c.fixed ∧ c.mem.nodes = c.mem.fixedLinkOf node
  | .push head node => node ∈ c.held t ∧ c.mem.head head = c.mem.nextOf node
  | .pop node desired =>
    c.mem.freeList = node ∧ (desired = c.mem.endNode ∨ desired ∈ c.free.tail)
  | .unlink ppnode node desired =>
    node ∈ c.gc ∧ c.mem.nextOf node = desired ∧ RefOk c.gc node ppnode ∧ c.mem.deref ppnode = node
  | _ => True

/-- Where the nodes are after a write. -/
def Write.place (c : Conf T L) (t : T) (place : ℕ → Place T) : Write → ℕ → Place T
  | .new => Function.update place c.mem.fresh (.held t)
  | .push .gcList node => Function.update place node .gc
  | .push .freeList node => Function.update place node .free
  | .pop node desired =>
    if node = c.mem.endNode then place
    else fun m =>
      if m = node then .held t
      else if m ∈ c.free ∧ m ∉ c.free.tail.dropWhile (· ≠ desired) then .lost else place m
  | .unlink _ node _ => Function.update place node (.held t)
  | .drop node => Function.update place node .lost
  | _ => place

section Update

variable {c : Conf T L} {place : ℕ → Place T} {n : ℕ} {t : T} {k : Place T}

theorem Shared.born_update (hs : Shared c place) (hn : place n ≠ .unborn) (hk : k ≠ .unborn)
    (m : ℕ) : Function.update place n k m ≠ .unborn ↔
      m ≠ 0 ∧ m ≠ c.mem.endNode ∧ m < c.mem.fresh := by
  rw [← hs.born m]
  by_cases hm : m = n
  · simp [hm,hn,hk]
  · simp [hm]

theorem Shared.fixed_update (hs : Shared c place) (hk : k ≠ .unborn) :
    ∀ m ∈ c.fixed, Function.update place n k m ≠ .unborn := by
  intro m hm
  by_cases hmn : m = n
  · simpa [hmn] using hk
  · simpa [hmn] using hs.fixedBorn m hm

variable [DecidableEq T]

theorem Shared.covers_take (hs : Shared c place) (hn : ∀ u, place n ≠ .held u) (u : T) :
    Covers (Function.update c.held t (n::c.held t) u) (Function.update place n (.held t))
      (.held u) := by
  by_cases hu : u = t
  · subst hu
    simpa using (hs.heldPlace u).cons
  · simpa [hu] using (hs.heldPlace u).update (hn u) (by simpa using Ne.symm hu)

theorem Shared.nodup_take (hs : Shared c place) (hn : ∀ u, place n ≠ .held u) (u : T) :
    (Function.update c.held t (n::c.held t) u).Nodup := by
  by_cases hu : u = t
  · subst hu
    simpa using ⟨fun h => hn u ((hs.heldPlace u n).mp h),hs.nodup u⟩
  · simpa [hu] using hs.nodup u

theorem Shared.covers_give (hs : Shared c place) (hn : n ∈ c.held t) (hk : ∀ u, k ≠ .held u)
    (u : T) : Covers (Function.update c.held t ((c.held t).erase n) u) (Function.update place n k)
      (.held u) := by
  by_cases hu : u = t
  · subst hu
    simpa using (hs.heldPlace u).erase (hs.nodup u) (hk u)
  · have hne : place n ≠ .held u := by
      rw [(hs.heldPlace t n).mp hn]
      simpa using Ne.symm hu
    simpa [hu] using (hs.heldPlace u).update hne (hk u)

theorem Shared.nodup_give (hs : Shared c place) (u : T) :
    (Function.update c.held t ((c.held t).erase n) u).Nodup := by
  by_cases hu : u = t
  · subst hu
    simpa using (hs.nodup u).erase n
  · simpa [hu] using hs.nodup u

end Update

section Links

variable (s : HazardPointerList) (n p : ℕ)

theorem setNext_fixedLinkOf : (s.setNext n p).fixedLinkOf = s.fixedLinkOf := by
  funext m
  rcases eq_or_ne m n with rfl | h <;> simp [fixedLinkOf,setNext,setNode, *]

theorem setFixedLink_fixedLinkOf :
    (s.setFixedLink n p).fixedLinkOf = Function.update s.fixedLinkOf n p := by
  funext m
  rcases eq_or_ne m n with rfl | h <;> simp [fixedLinkOf,setFixedLink,setNode, *]

theorem new_nextOf : s.new.1.nextOf = Function.update s.nextOf s.fresh 0 := by
  funext m
  rcases eq_or_ne m s.fresh with rfl | h <;> simp [nextOf,HazardPointerList.new, *]

theorem new_fixedLinkOf : s.new.1.fixedLinkOf = Function.update s.fixedLinkOf s.fresh 0 := by
  funext m
  rcases eq_or_ne m s.fresh with rfl | h <;> simp [fixedLinkOf,HazardPointerList.new, *]

end Links

section Write

variable {c : Conf T L} {place : ℕ → Place T} {n : ℕ} {t : T}

/-- A write of other fields of the nodes than their links. -/
theorem Shared.setNodes (hs : Shared c place) {f : ℕ → HazardPointerNode}
    (hnext : ∀ n, (f n).next = c.mem.nextOf n)
    (hlink : ∀ n, (f n).fixedLink = c.mem.fixedLinkOf n) :
    Shared { c with mem := { c.mem with node := f } } place where
  gcChain := hs.gcChain.congr fun n _ => hnext n
  freeChain := hs.freeChain.congr fun n _ => hnext n
  fixedChain := hs.fixedChain.congr fun n _ => hlink n
  endNode := hs.endNode
  endNext := (hnext _).trans hs.endNext
  gcPlace := hs.gcPlace
  freePlace := hs.freePlace
  heldPlace := hs.heldPlace
  nodup := hs.nodup
  born := hs.born
  fixedBorn := hs.fixedBorn

theorem Shared.writeNext (hs : Shared c place) (hn : n ∈ c.held t) (v : ℕ) :
    Shared { c with mem := c.mem.setNext n v } place where
  gcChain := by
    rw [setNext_nextOf]
    exact hs.gcChain.update (hs.held_gc hn)
  freeChain := by
    rw [setNext_nextOf]
    exact hs.freeChain.update (hs.held_free hn)
  fixedChain := by
    rw [setNext_fixedLinkOf]
    exact hs.fixedChain
  endNode := hs.endNode
  endNext := by
    rw [setNext_nextOf]
    exact (Function.update_of_ne (hs.ne_endNode (hs.born_held hn)).symm _ _).trans hs.endNext
  gcPlace := hs.gcPlace
  freePlace := hs.freePlace
  heldPlace := hs.heldPlace
  nodup := hs.nodup
  born := hs.born
  fixedBorn := hs.fixedBorn

theorem Shared.writeFixedLink (hs : Shared c place) (hn : n ∉ c.fixed) (v : ℕ) :
    Shared { c with mem := c.mem.setFixedLink n v } place where
  gcChain := by
    rw [setFixedLink_nextOf]
    exact hs.gcChain
  freeChain := by
    rw [setFixedLink_nextOf]
    exact hs.freeChain
  fixedChain := by
    rw [setFixedLink_fixedLinkOf]
    exact hs.fixedChain.update hn
  endNode := hs.endNode
  endNext := by
    rw [setFixedLink_nextOf]
    exact hs.endNext
  gcPlace := hs.gcPlace
  freePlace := hs.freePlace
  heldPlace := hs.heldPlace
  nodup := hs.nodup
  born := hs.born
  fixedBorn := hs.fixedBorn

theorem Shared.writeAdd (hs : Shared c place) (hn : n ∈ c.held t)
    (hl : c.mem.nodes = c.mem.fixedLinkOf n) :
    Shared { c with mem := { c.mem with nodes := n }, fixed := n::c.fixed } place where
  gcChain := hs.gcChain
  freeChain := hs.freeChain
  fixedChain := ⟨rfl,hs.ne_endNode (hs.born_held hn),hl ▸ hs.fixedChain⟩
  endNode := hs.endNode
  endNext := hs.endNext
  gcPlace := hs.gcPlace
  freePlace := hs.freePlace
  heldPlace := hs.heldPlace
  nodup := hs.nodup
  born := hs.born
  fixedBorn := by simpa using ⟨hs.born_held hn,hs.fixedBorn⟩

theorem Shared.popEnd (hs : Shared c place) (hf : c.mem.freeList = c.mem.endNode) {v : ℕ}
    (hv : v = c.mem.endNode ∨ v ∈ c.free.tail) :
    Shared { c with mem := { c.mem with freeList := v } } place := by
  have hnil : c.free = [] := (hf ▸ hs.freeChain).eq_nil
  have hv : v = c.mem.endNode := by simpa [hnil] using hv
  refine { hs with freeChain := ?_ }
  rw [hnil]
  exact hv

theorem Shared.unlink_chain (hs : Shared c place) {r : Ref} (hn : n ∈ c.gc) (hr : RefOk c.gc n r)
    (hd : c.mem.deref r = n) :
    Chain (c.mem.assign r (c.mem.nextOf n)).nextOf c.mem.endNode
      (c.mem.assign r (c.mem.nextOf n)).gcList (c.gc.erase n) := by
  have hne := hs.ne_endNode (hs.born_gc hn)
  cases r with
  | head head =>
    obtain rfl : head = .gcList := hr
    have hd : c.mem.gcList = n := hd
    obtain ⟨l,hl,hc⟩ := hs.gcChain.eq_cons (hd ▸ hne)
    rw [hl,hd,List.erase_cons_head]
    exact hd ▸ hc
  | next m =>
    obtain ⟨a,b,hl,hb⟩ := hr
    have hc := hl ▸ hs.gcChain
    have hd : c.mem.nextOf m = n := hd
    obtain ⟨b',hb',-⟩ := hc.tail.eq_cons (hd ▸ hne)
    rw [hd] at hb'
    subst hb'
    have hnd := hc.nodup
    have he : c.gc.erase n = a++m::b' := by
      rw [List.nodup_append] at hnd
      have ha : n ∉ a := fun h => hnd.2.2 n h n (by simp) rfl
      have hm : m ≠ n := by
        rintro rfl
        simp at hnd
      rw [hl,List.erase_append_right _ ha,List.erase_cons_tail (by simpa using hm),
        List.erase_cons_head]
    rw [he]
    rw [assign,setNext_nextOf]
    exact hc.unlink

/-- `*ppnode = v` where `ppnode` is the head of the gc list or a link of it. -/
theorem assign_frame {r : Ref} (hr : RefOk c.gc n r) (v : ℕ) :
    (c.mem.assign r v).endNode = c.mem.endNode ∧ (c.mem.assign r v).nodes = c.mem.nodes ∧
      (c.mem.assign r v).freeList = c.mem.freeList ∧ (c.mem.assign r v).fresh = c.mem.fresh ∧
      (c.mem.assign r v).fixedLinkOf = c.mem.fixedLinkOf ∧
      ∀ m ∉ c.gc, (c.mem.assign r v).nextOf m = c.mem.nextOf m := by
  cases r with
  | head head =>
    obtain rfl : head = .gcList := hr
    exact ⟨rfl,rfl,rfl,rfl,rfl,fun _ _ => rfl⟩
  | next k =>
    obtain ⟨a,b,hl,-⟩ := hr
    refine ⟨rfl,rfl,rfl,rfl,setNext_fixedLinkOf _ _ _,fun m hm => ?_⟩
    rw [assign,setNext_nextOf]
    refine Function.update_of_ne ?_ _ _
    rintro rfl
    simp [hl] at hm

variable [DecidableEq T]

theorem Shared.writeNew (hs : Shared c place) :
    Shared { c.take t c.mem.fresh with mem := c.mem.new.1 }
      (Function.update place c.mem.fresh (.held t)) := by
  have hu := hs.fresh_unborn
  have hgc : c.mem.fresh ∉ c.gc := fun h => hs.born_gc h hu
  have hfree : c.mem.fresh ∉ c.free := by simp [hs.freePlace _,hu]
  have hfixed : c.mem.fresh ∉ c.fixed := fun h => hs.fixedBorn _ h hu
  have hheld : ∀ u, place c.mem.fresh ≠ .held u := by simp [hu]
  constructor
  case gcChain =>
    rw [new_nextOf]
    exact hs.gcChain.update hgc
  case freeChain =>
    rw [new_nextOf]
    exact hs.freeChain.update hfree
  case fixedChain =>
    rw [new_fixedLinkOf]
    exact hs.fixedChain.update hfixed
  case endNode => exact ⟨hs.endNode.1,Nat.lt_succ_of_lt hs.endNode.2⟩
  case endNext =>
    rw [new_nextOf]
    exact (Function.update_of_ne (Nat.ne_of_lt hs.endNode.2) _ _).trans hs.endNext
  case gcPlace => exact hs.gcPlace.update (by simp [hu]) (by simp)
  case freePlace => exact hs.freePlace.update (by simp [hu]) (by simp)
  case heldPlace => exact hs.covers_take hheld
  case nodup => exact hs.nodup_take hheld
  case born =>
    intro m
    have hend := hs.endNode
    have hb := hs.born m
    by_cases hm : m = c.mem.fresh
    · simp only [hm,Function.update_self,HazardPointerList.new]
      simp only [ne_eq,reduceCtorEq,not_false_eq_true,true_iff]
      omega
    · simp only [Function.update_of_ne hm,hb,HazardPointerList.new]
      omega
  case fixedBorn => exact hs.fixed_update (by simp)

theorem Shared.pushGc (hs : Shared c place) (hn : n ∈ c.held t)
    (hl : c.mem.gcList = c.mem.nextOf n) :
    Shared { c.give t n with mem := { c.mem with gcList := n }, gc := n::c.gc }
      (Function.update place n .gc) where
  gcChain := ⟨rfl,hs.ne_endNode (hs.born_held hn),hl ▸ hs.gcChain⟩
  freeChain := hs.freeChain
  fixedChain := hs.fixedChain
  endNode := hs.endNode
  endNext := hs.endNext
  gcPlace := hs.gcPlace.cons
  freePlace := hs.freePlace.update (by simp [(hs.heldPlace t n).mp hn]) (by simp)
  heldPlace := hs.covers_give hn (by simp)
  nodup := hs.nodup_give
  born := hs.born_update (hs.born_held hn) (by simp)
  fixedBorn := hs.fixed_update (by simp)

theorem Shared.pushFree (hs : Shared c place) (hn : n ∈ c.held t)
    (hl : c.mem.freeList = c.mem.nextOf n) :
    Shared { c.give t n with mem := { c.mem with freeList := n }, free := n::c.free }
      (Function.update place n .free) where
  gcChain := hs.gcChain
  freeChain := ⟨rfl,hs.ne_endNode (hs.born_held hn),hl ▸ hs.freeChain⟩
  fixedChain := hs.fixedChain
  endNode := hs.endNode
  endNext := hs.endNext
  gcPlace := hs.gcPlace.update (by simp [(hs.heldPlace t n).mp hn]) (by simp)
  freePlace := hs.freePlace.cons
  heldPlace := hs.covers_give hn (by simp)
  nodup := hs.nodup_give
  born := hs.born_update (hs.born_held hn) (by simp)
  fixedBorn := hs.fixed_update (by simp)

theorem Shared.drop (hs : Shared c place) (hn : n ∈ c.held t) :
    Shared (c.give t n) (Function.update place n .lost) where
  gcChain := hs.gcChain
  freeChain := hs.freeChain
  fixedChain := hs.fixedChain
  endNode := hs.endNode
  endNext := hs.endNext
  gcPlace := hs.gcPlace.update (by simp [(hs.heldPlace t n).mp hn]) (by simp)
  freePlace := hs.freePlace.update (by simp [(hs.heldPlace t n).mp hn]) (by simp)
  heldPlace := hs.covers_give hn (by simp)
  nodup := hs.nodup_give
  born := hs.born_update (hs.born_held hn) (by simp)
  fixedBorn := hs.fixed_update (by simp)

/-- The nodes between the popped one and the new head are lost. -/
theorem Shared.pop (hs : Shared c place) (hf : c.mem.freeList = n) (hn : n ≠ c.mem.endNode) {v : ℕ}
    (hv : v = c.mem.endNode ∨ v ∈ c.free.tail) :
    Shared { c.take t n with
        mem := { c.mem with freeList := v }, free := c.free.tail.dropWhile (· ≠ v) }
      (fun m => if m = n then .held t
        else if m ∈ c.free ∧ m ∉ c.free.tail.dropWhile (· ≠ v) then .lost else place m) := by
  obtain ⟨rest,hfree,htail⟩ := hs.freeChain.eq_cons (hf ▸ hn)
  rw [hf] at hfree htail
  have hsub : ∀ m ∈ rest.dropWhile (· ≠ v), m ∈ rest :=
    fun m hm => (List.dropWhile_suffix _).subset hm
  have hnr : n ∉ rest := by
    have h := hfree ▸ hs.freeChain.nodup
    exact (List.nodup_cons.mp h).1
  have hfp : ∀ m, m = n ∨ m ∈ rest ↔ place m = .free := by
    intro m
    rw [← hs.freePlace m,hfree,List.mem_cons]
  simp only [hfree,List.tail_cons,List.mem_cons] at hv ⊢
  constructor
  case gcChain => exact hs.gcChain
  case freeChain => exact htail.dropWhile hv
  case fixedChain => exact hs.fixedChain
  case endNode => exact hs.endNode
  case endNext => exact hs.endNext
  case gcPlace =>
    intro m
    have h1 : m ∈ (c.take t n).gc ↔ place m = .gc := hs.gcPlace m
    have h2 := hfp m
    grind
  case freePlace =>
    intro m
    have h1 := hsub m
    have h2 := hfp m
    grind
  case heldPlace =>
    intro u m
    have h1 := hs.heldPlace u m
    have h2 := hfp m
    by_cases hu : u = t
    · subst hu
      simp only [Conf.take,Function.update_self]
      grind
    · simp only [Conf.take,Function.update_of_ne hu]
      grind
  case nodup =>
    refine hs.nodup_take fun u hu => ?_
    rw [(hfp n).mp (.inl rfl)] at hu
    cases hu
  case born =>
    intro m
    have h1 := hs.born m
    have h2 := hfp m
    grind
  case fixedBorn =>
    intro m hm
    have h1 := hs.fixedBorn m hm
    grind

theorem Shared.unlink (hs : Shared c place) {r : Ref} (hn : n ∈ c.gc) (hr : RefOk c.gc n r)
    (hd : c.mem.deref r = n) :
    Shared { c.take t n with
        mem := c.mem.assign r (c.mem.nextOf n), gc := c.gc.erase n }
      (Function.update place n (.held t)) := by
  have hp := (hs.gcPlace n).mp hn
  have hheld : ∀ u, place n ≠ .held u := by simp [hp]
  obtain ⟨hend,hnodes,hfree,hfresh,hlink,hnext⟩ := assign_frame hr (c.mem.nextOf n)
  constructor
  case gcPlace => exact hs.gcPlace.erase hs.gcChain.nodup (by simp)
  case freePlace => exact hs.freePlace.update (by simp [hp]) (by simp)
  case heldPlace => exact hs.covers_take hheld
  case nodup => exact hs.nodup_take hheld
  case fixedBorn => exact hs.fixed_update (by simp)
  all_goals simp only [hend,hnodes,hfree,hfresh,hlink]
  case gcChain => exact hs.unlink_chain hn hr hd
  case freeChain => exact hs.freeChain.congr fun m hm => hnext m fun hg => hs.gc_free hg hm
  case fixedChain => exact hs.fixedChain
  case endNode => exact hs.endNode
  case endNext => exact (hnext _ hs.gcChain.stop_not_mem).trans hs.endNext
  case born => exact hs.born_update (hs.born_gc hn) (by simp)

theorem Shared.write (hs : Shared c place) {w : Write} (hw : w.Ok c t) :
    Shared (c.write t w) (w.place c t place) := by
  cases w with
  | none | lock | unlock | validate node => exact { hs with }
  | hazPtr v | sort | clear | delete node obj => exact { hs with }
  | pointer node v =>
    have h := hs.setNodes (congrFun (setPointer_nextOf c.mem node v))
      (congrFun (setPointer_fixedLinkOf c.mem node v))
    exact { h with }
  | gcPointer node v =>
    exact hs.setNodes (congrFun (setGcPointer_nextOf c.mem node v))
      (congrFun (setGcPointer_fixedLinkOf c.mem node v))
  | fixedLink node v => exact hs.writeFixedLink hw.2 v
  | next node v => exact hs.writeNext hw v
  | new => exact hs.writeNew
  | add node => exact hs.writeAdd hw.1 hw.2.2
  | push head node =>
    cases head with
    | gcList => exact hs.pushGc hw.1 hw.2
    | freeList => exact hs.pushFree hw.1 hw.2
  | pop node desired =>
    obtain ⟨hf,hv⟩ := hw
    simp only [Conf.write,Write.place]
    split
    case isTrue hn => exact hs.popEnd (hf.trans hn) hv
    case isFalse hn => exact hs.pop hf hn hv
  | unlink ppnode node desired =>
    obtain ⟨hg,rfl,hr,hd⟩ := hw
    exact hs.unlink hg hr hd
  | drop node => exact hs.drop hw

end Write

end SharedList
end Benedias
