import Benedias.CollectResult
import Benedias.NodeConservation

/-! `HazardPointer::Recycle`, and `Acquire` with the location it is called with: `none` is a NULL
location, `some p` one that holds `p`. -/
namespace Benedias

/-- What stops a call: a `CHECK_ASSERT`, or reading through a NULL location. -/
inductive Fault
  | assertion | nullRead
  deriving DecidableEq

/-- `HazardPointerNode::Acquire`. -/
def HazardPointerList.acquireAt (s : HazardPointerList) (node : ℕ) (ptrptr : Option ℕ) :
    Except Fault HazardPointerList :=
  if ¬s.isUnqueued node then .error .assertion
  else if (s.node node).gcPointer ≠ 0 then .error .assertion
  else match ptrptr with
    -- __atomic_store reads the location
    | none => .error .nullRead
    | some p => .ok (s.setPointer node p)

namespace HazardPointer

def acquireAt (s : HazardPointerList) (hpNode : ℕ) (ptrptr : Option ℕ) :
    Except Fault (HazardPointerList × Bool) :=
  if hpNode = 0 then .ok (s,false) else (s.acquireAt hpNode ptrptr).map fun s => (s,true)

/-- The list, `hp_node` and the result; there is no return statement after `AcquireNode`. -/
def recycle (s : HazardPointerList) (hpNode : ℕ) :
    Except Fault (HazardPointerList × ℕ × Option Bool) :=
  if hpNode ≠ 0 then (s.acquireAt hpNode none).map fun s => (s,hpNode,some true)
  else
    let (s,n) := s.acquireNode
    .ok (s,n,none)

/-- `operator()` -/
def get (s : HazardPointerList) (hpNode : ℕ) : ℕ := if hpNode ≠ 0 then (s.node hpNode).pointer else 0

end HazardPointer

namespace HazardPointerRuns

open Interleaving HazardPointerList

variable {H : Type}

/-- What `operator()` of `h` returns, if there is such a `HazardPointer`. -/
def Conf.value (c : Conf H) (h : H) : Option ℕ := (c.hp h).map (HazardPointer.get c.list)

/-- The values of all `HazardPointer`s and the deleted objects are the same. -/
def Alike (c c' : Conf H) : Prop :=
  (∀ h, c'.value h = c.value h) ∧ ∀ x, x ∈ c'.list.deleted ↔ x ∈ c.list.deleted

theorem Alike.refl (c : Conf H) : Alike c c := ⟨fun _ => rfl,fun _ => Iff.rfl⟩

/-- `Acquire` of the location takes the protection away from `n`, and changes nothing else. -/
def Clears (s : HazardPointerList) (n : ℕ) (ptrptr : Option ℕ) : Prop :=
  ∃ s' v, HazardPointer.acquireAt s n ptrptr = .ok (s',v) ∧
    (n ≠ 0 → (s'.node n).pointer = 0) ∧ (∀ m, m ≠ n → s'.node m = s.node m) ∧
    ∀ p, s.Represents p → s'.Represents p

theorem acquireNode_empty {s s' : HazardPointerList} {p : Pool} {n : ℕ} (hr : s.Represents p)
    (h : s.acquireNode = (s',n)) : (s'.node n).pointer = 0 := by
  by_cases hf : s.freeList = s.endNode
  · have hend : (s.node s.endNode).next = s.endNode := hr.endNext
    have hpop : s.pop .freeList = (s.setHead .freeList s.endNode,s.endNode) := by
      simp [pop,head,hf,hend]
    simp only [HazardPointerList.acquireNode,hpop,setHead_endNode,if_true] at h
    obtain ⟨rfl,rfl⟩ := Prod.mk.inj h
    simp [new,add,setFixedLink,setNode]
  · obtain ⟨s₁,hs,hl,-⟩ := pop_spec .freeList (s:=s) hf
    have hne : s.head .freeList ≠ s₁.endNode := by rw [hl.endNode]; exact hf
    simp only [HazardPointerList.acquireNode,hs,hne,if_false] at h
    obtain ⟨rfl,rfl⟩ := Prod.mk.inj h
    rw [hl.pointer]
    exact (hr.freeNode _ (hr.free.head_mem hf)).2.1

/-- A node that a client holds passes the assertions of `Acquire`. -/
theorem Represents.acquireAt {s : HazardPointerList} {p : Pool} {n : ℕ} (hr : s.Represents p)
    (hn : p.Off n) (ptrptr : Option ℕ) : s.acquireAt n ptrptr =
      ptrptr.elim (.error .nullRead) fun v => .ok (s.setPointer n v) := by
  have hoff := hr.offList n hn.fixed hn.gc hn.free
  have hu : s.isUnqueued n := isUnqueued_iff.mpr hoff.1
  cases ptrptr <;> simp [HazardPointerList.acquireAt,hu,hoff.2]

variable {c : Conf H} {p : Pool} {h : H} {n : ℕ}

theorem clears_null (hi : Inv c p) (hn : c.hp h = some n) : Clears c.list n none ↔ n = 0 := by
  constructor
  · rintro ⟨s',v,hs,-⟩
    by_contra h0
    simp [HazardPointer.acquireAt,h0,Represents.acquireAt hi.represents (hi.off_hp hn h0),
      Except.map] at hs
  · rintro rfl
    exact ⟨c.list,false,rfl,fun h => absurd rfl h,fun _ _ => rfl,fun _ h => h⟩

theorem clears_empty (hi : Inv c p) (hn : c.hp h = some n) : Clears c.list n (some 0) := by
  by_cases h0 : n = 0
  · subst h0
    exact ⟨c.list,false,rfl,fun h => absurd rfl h,fun _ _ => rfl,fun _ h => h⟩
  · have ho := hi.off_hp hn h0
    refine ⟨c.list.setPointer n 0,true,?_,fun _ => by simp,fun m hm => setPointer_ne _ _ _ hm,?_⟩
    · simp [HazardPointer.acquireAt,h0,Represents.acquireAt hi.represents ho,Except.map]
    · intro p' hr
      obtain rfl := Represents.unique hi.represents hr
      exact hr.setPointer ho.fixed ho.gc ho.free 0

variable [DecidableEq H]

/-- `Recycle` of the `HazardPointer` `h`, whose `hp_node` is `n`. -/
def Conf.recycle (c : Conf H) (h : H) (n : ℕ) : Except Fault (Conf H × Option Bool) :=
  (HazardPointer.recycle c.list n).map fun r => ({ c.setHp h (some r.2.1) with list := r.1 },r.2.2)

/-- In `c'`, reached from `c`, `h` is the only holder of a node without a pointer, and every
program goes on as if `h` had been destroyed and constructed in `c` instead. -/
structure Rebinds (c : Conf H) (h : H) (c' : Conf H) : Prop where
  bound : ∃ p n, c'.list.Represents p ∧ p.Off n ∧ c'.hp h = some n ∧
    (c'.list.node n).pointer = 0 ∧ (∀ h', c'.hp h' = some n → h' = h) ∧ n ∉ c'.raw
  alike : ∀ c₁ c₂, fire c (.destroy h) = some c₁ → fire c₁ (.construct h) = some c₂ →
    ∀ ls : List (Label H), (∀ l ∈ ls, l.ofHazardPointer) →
      Option.Rel Alike ((system H).exec c' ls) ((system H).exec c₂ ls)

/-- `Recycle` returns true and rebinds, and `Acquire` clears likewise. -/
def Recycles (c : Conf H) (h : H) (n : ℕ) : Prop :=
  (∃ c', c.recycle h n = .ok (c',some true) ∧ Rebinds c h c') ∧
    Clears c.list n none ∧ Clears c.list n (some 0)

theorem recycle_bound (hi : Inv c p) (hn : c.hp h = some n) (h0 : n ≠ 0) :
    c.recycle h n = .error .nullRead := by
  simp [Conf.recycle,HazardPointer.recycle,h0,Represents.acquireAt hi.represents (hi.off_hp hn h0),
    Except.map]

/-- On an instance that is not bound `Recycle` does what destruction and construction do. -/
theorem recycle_unbound (hi : Inv c p) (hn : c.hp h = some 0) :
    ∃ c', c.recycle h 0 = .ok (c',none) ∧ Rebinds c h c' := by
  obtain ⟨s,hs,hr',hq⟩ := hi.represents.acquireNode
  obtain ⟨hoff,hnot,hkeep,h0⟩ := acquireNode_off hi.represents
  have hinv := (hi.setList hr' (hq.allHazPtrs.trans hi.hazPtrs) fun m _ _ ho => hkeep m ho).takeHp
    (h:=h) hoff fun hm => hnot (hi.off _ hm h0)
  have hself : Function.update c.hp h (some (p.acquireNode c.list.fresh).2) h =
      some (p.acquireNode c.list.fresh).2 := Function.update_self ..
  refine ⟨_,by simp [Conf.recycle,HazardPointer.recycle,hs,Except.map]; rfl,?_,?_⟩
  · refine ⟨_,(p.acquireNode c.list.fresh).2,hr',hoff,hself,acquireNode_empty hi.represents hs,?_,
      hinv.rawHp h _ hself⟩
    exact fun h' hh => hinv.hpInj h' h _ hh hself h0
  · intro c₁ c₂ h₁ h₂ ls _
    have hc₁ : c₁ = c.setHp h none := by
      simp only [fire,hn,HazardPointer.release,bind,Option.bind_some,if_true] at h₁
      exact (Option.some.inj h₁).symm
    have hc₂ : c₂ = { c.setHp h (some (p.acquireNode c.list.fresh).2) with list := s } := by
      subst hc₁
      simpa [fire,HazardPointer.construct,Conf.setHp,hs] using h₂.symm
    rw [hc₂]
    cases (system H).exec _ ls with
    | none => exact .none
    | some c => exact .some (.refl c)

/-- `Recycle` never does what it should: a bound instance makes it read through NULL, and so does
`Acquire` of a NULL location there; for any other the function ends without a result. Apart from
that result it rebinds exactly the instances that are not bound, and `Acquire` of a location that
holds NULL always clears. -/
theorem recycle_never {c : Conf H} {h : H} {n : ℕ} (hr : (system H).Reachable c)
    (hn : c.hp h = some n) :
    ¬Recycles c h n ∧ (n ≠ 0 → c.recycle h n = .error .nullRead) ∧
      ((∃ c' v, c.recycle h n = .ok (c',v) ∧ Rebinds c h c') ↔ n = 0) ∧
      (Clears c.list n none ↔ n = 0) ∧ Clears c.list n (some 0) := by
  obtain ⟨p,hi,-⟩ := reachable_account hr
  have hbound : n ≠ 0 → c.recycle h n = .error .nullRead := recycle_bound hi hn
  refine ⟨?_,hbound,⟨?_,?_⟩,clears_null hi hn,clears_empty hi hn⟩
  · rintro ⟨⟨c',hc',-⟩,-⟩
    by_cases h0 : n = 0
    · subst h0
      obtain ⟨c'',hc'',-⟩ := recycle_unbound hi hn
      cases hc''.symm.trans hc'
    · cases (hbound h0).symm.trans hc'
  · rintro ⟨c',v,hc',-⟩
    by_contra h0
    cases (hbound h0).symm.trans hc'
  · rintro rfl
    obtain ⟨c',hc',hre⟩ := recycle_unbound hi hn
    exact ⟨c',none,hc',hre⟩

/-- The first instance is unbound after `Delete`, the second one is bound. -/
theorem recycle_never_keptConf :
    (¬Recycles keptConf 0 0 ∧ ((0 : ℕ) ≠ 0 → keptConf.recycle 0 0 = .error .nullRead) ∧
      ((∃ c' v, keptConf.recycle 0 0 = .ok (c',v) ∧ Rebinds keptConf 0 c') ↔ (0 : ℕ) = 0) ∧
      (Clears keptConf.list 0 none ↔ (0 : ℕ) = 0) ∧ Clears keptConf.list 0 (some 0)) ∧
    ¬Recycles keptConf 1 3 ∧ ((3 : ℕ) ≠ 0 → keptConf.recycle 1 3 = .error .nullRead) ∧
      ((∃ c' v, keptConf.recycle 1 3 = .ok (c',v) ∧ Rebinds keptConf 1 c') ↔ (3 : ℕ) = 0) ∧
      (Clears keptConf.list 3 none ↔ (3 : ℕ) = 0) ∧ Clears keptConf.list 3 (some 0) :=
  ⟨recycle_never keptConf_reachable.reachable (by decide),
    recycle_never keptConf_reachable.reachable (by decide)⟩

/-- `Recycle` of a new `HazardPointer`. -/
theorem not_recycles :
    ∃ c : Conf Unit, (system Unit).Reachable c ∧ c.hp () = some 2 ∧
      c.recycle () 2 = .error .nullRead ∧ ¬Recycles c () 2 := by
  have hf : (system Unit).fire start (.construct ()) =
      some ((fire start (.construct ())).getD start) := rfl
  have hr : (system Unit).Reachable ((fire start (.construct ())).getD start) :=
    System.Reachable.step (.init rfl) hf
  obtain ⟨p,hi,-⟩ := reachable_account hr
  have hnull := recycle_bound hi (h:=()) (n:=2) rfl (by decide)
  refine ⟨_,hr,rfl,hnull,?_⟩
  rintro ⟨⟨c',hc',-⟩,-⟩
  cases hnull.symm.trans hc'

end HazardPointerRuns
end Benedias
