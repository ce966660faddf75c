import Benedias.ReclamationSteps
import Benedias.SharedListIntegrity

/-! The assertions of the node operations: what the owner of a node finds in its fields at every
program point, and what the fields of the nodes on the lists are. -/
namespace Benedias
namespace SharedList

open Interleaving LinkedChain HazardPointerList

variable {T L : Type}

/-- What the owner of a node finds in its fields. -/
def Pc.expects : Pc L → HazardPointerNode → Prop
  | .popClear _, v | .remClear _ _, v => v.pointer = 0 ∧ v.gcPointer = 0
  | .addLoad _ _, v | .addStore _ _ _, v | .addCas _ _, v | .addFailed _ _ _, v
  | .relNext _, v | .relPointer _, v | .gcEnd _ _, v =>
    v.pointer = 0 ∧ v.gcPointer = 0 ∧ v.next = 0
  | .pushCheck _ head _, v => v.pointer = 0 ∧ (head = .gcList ↔ v.gcPointer ≠ 0) ∧ v.next = 0
  | .pushLoad _ head _, v | .pushStore _ _ head _, v | .pushCas _ head _, v
  | .pushFailed _ _ head _, v => v.pointer = 0 ∧ (head = .gcList ↔ v.gcPointer ≠ 0)
  | .delLoad _, v => v.pointer ≠ 0 ∧ v.gcPointer = 0 ∧ v.next = 0
  | .delExchange _ obj, v => obj ≠ 0 ∧ v.gcPointer = 0 ∧ v.next = 0
  | .delStore _ old, v => old = 0 ∧ v.gcPointer ≠ 0 ∧ v.next = 0
  | .delNext _, v | .delPointer _, v | .delGcPointer _, v =>
    v.pointer = 0 ∧ v.gcPointer ≠ 0 ∧ v.next = 0
  | _, v => v.gcPointer = 0 ∧ v.next = 0

/-- A node that a thread holds: the one it works on, or another. -/
def Pc.finds (p : Pc L) (n : ℕ) (v : HazardPointerNode) : Prop :=
  if p.own = some n then p.expects v else v.gcPointer = 0 ∧ v.next = 0

/-- The node whose `gc_pointer` `Collect` has set to NULL and that it has still to remove. -/
def Pc.taken : Pc L → Option ℕ
  | .gcDelete g _ _ | .remTest g _ _ | .remEnd g _ _ | .remNext g _ _ | .remExit g _ _
  | .remExpected g _ _ | .remDesired g _ _ _ | .remCas g _ _ _ _ => some g
  | _ => none

/-- The node at the last assertion of `Delete`, after the push. -/
def Pc.last : Pc L → Option ℕ
  | .delLast n => some n
  | _ => none

structure Fields (c : Conf T L) : Prop where
  held : ∀ t n, n ∈ c.held t → (c.pc t).finds n (c.mem.node n)
  gc : ∀ n ∈ c.gc, (c.mem.node n).pointer = 0 ∧
    ((∀ t, (c.pc t).taken ≠ some n) → (c.mem.node n).gcPointer ≠ 0)
  taken : ∀ t n, (c.pc t).taken = some n → (c.mem.node n).gcPointer = 0
  free : ∀ n ∈ c.free, (c.mem.node n).pointer = 0 ∧ (c.mem.node n).gcPointer = 0
  last : ∀ t n, (c.pc t).last = some n → (c.mem.node n).pointer = 0 ∧ n < c.mem.fresh
  endNode : (c.mem.node c.mem.endNode).pointer = 0
  alive : ∀ t, c.pc t ≠ .failed

/-- The node whose pointer a write sets to an object. -/
def Write.fills : Write → Option ℕ
  | .pointer n v => if v = 0 then Option.none else some n
  | _ => Option.none

/-- No node gets an object while a thread that has queued it is still inside `Delete`. -/
def NoRefill (c : Conf T L) (a : Label T L) : Prop :=
  ∀ u, (c.writeOf a).fills = none ∨ (c.pc u).last ≠ (c.writeOf a).fills

/-- The node in which a write stores a pointer or the link of the lists. -/
def Write.stores (c : Conf T L) : Write → Option ℕ
  | .pointer n _ | .gcPointer n _ | .next n _ | .unlink (.next n) _ _ => some n
  | .new => some c.mem.fresh
  | _ => Option.none

/-- Two contents of a node that `fixed_link` alone tells apart. -/
structure SameFields (v v' : HazardPointerNode) : Prop where
  pointer : v'.pointer = v.pointer
  gcPointer : v'.gcPointer = v.gcPointer
  next : v'.next = v.next

theorem Pc.expects.same {p : Pc L} {v v' : HazardPointerNode} (hp : p.expects v)
    (hv : SameFields v v') : p.expects v' := by
  obtain ⟨h1,h2,h3⟩ := hv
  cases p <;> simpa only [Pc.expects,h1,h2,h3] using hp

theorem Pc.finds.same {p : Pc L} {n : ℕ} {v v' : HazardPointerNode} (hp : p.finds n v)
    (hv : SameFields v v') : p.finds n v' := by
  unfold Pc.finds at hp ⊢
  split
  case isTrue hn =>
    rw [if_pos hn] at hp
    exact hp.same hv
  case isFalse hn =>
    rw [if_neg hn] at hp
    exact ⟨hv.gcPointer.trans hp.1,hv.next.trans hp.2⟩

section Next

variable {c : Conf T L} {p p' : Pc L} {w : Write} {n : ℕ}

theorem next_stores (h : p.next c = some (w,p')) (hw : w.stores c = some n) :
    p.own = some n ∨ n = c.mem.fresh ∨ (∃ nx obj, p = .gcStore n nx obj) ∨
      ∃ g nx e d, p = .remCas g nx (.next n) e d := by
  cases next_writes h with
  | new => exact .inr (.inl (Option.some.inj hw).symm)
  | @unlink g nx d r =>
    cases r with
    | head head => cases hw
    | next k =>
      cases hw
      exact .inr (.inr (.inr ⟨_,_,_,_,rfl⟩))
  | gcStore =>
    cases hw
    exact .inr (.inr (.inl ⟨_,_,rfl⟩))
  | popClear | pushStore | pushFailed | acqStore | clrStore | relStore | delExchange | delStore
  | remClear => exact .inl hw
  | _ => cases hw

theorem taken_gcFrom {m : HazardPointerList} {g : ℕ} : (gcFrom m g : Pc L).taken = none := by
  unfold gcFrom
  split
  · rfl
  · split <;> rfl

theorem taken_scanFrom {m : HazardPointerList} {g : ℕ} : (scanFrom m g : Pc L).taken = none := by
  unfold scanFrom
  split <;> rfl

theorem taken_primeFrom {k : ℕ} : (primeFrom k : Pc L).taken = none := by cases k <;> rfl

theorem taken_addAfter {f : AddFor} : (f.after n : Pc L).taken = none := by cases f <;> rfl

theorem taken_pushAfter {m : HazardPointerList} {f : PushFor} :
    (f.after m n : Pc L).taken = none := by
  cases f with
  | release | delete => rfl
  | prime left => exact taken_primeFrom
  | collect next => exact taken_gcFrom

theorem taken_check {b : Bool} : (check b p).taken = if b then p.taken else none := by
  cases b <;> rfl

theorem quiet_taken (h : p.next c = some (.none,p')) (hf : p' ≠ .notFound) :
    p'.taken = p.taken := by
  cases p
  case relTest | delTest => rcases tested_next h with rfl | rfl <;> rfl
  case scanHead | scanLink =>
    cases h
    exact taken_scanFrom
  case gcHead =>
    cases h
    exact taken_gcFrom
  case gcPointer g nx obj =>
    cases h
    rw [taken_check]
    split
    · split
      · exact taken_gcFrom
      · rfl
    · rfl
  case remExit g nx r =>
    cases h
    split
    next he => exact absurd (if_pos he) hf
    next => rfl
  all_goals first
    | (cases h; done)
    | (cases h; rfl)
    | (cases h; rw [taken_check]; split <;> rfl)
    | (cases h; split <;> rfl)
    | (simp only [Pc.next] at h; split at h <;> cases h <;> rfl)

theorem next_taken (h : p.next c = some (w,p')) (hn : p'.taken = some n) :
    p.taken = some n ∨ w = .gcPointer n 0 := by
  cases next_writes h with
  | quiet h =>
    by_cases hf : p' = .notFound
    · subst hf
      cases hn
    · exact .inl ((quiet_taken h hf).symm.trans hn)
  | gcStore => exact .inr (by rw [Option.some.inj hn])
  | gcDelete => exact .inl hn
  | pop => split at hn <;> cases hn
  | add => cases taken_addAfter.symm.trans hn
  | push => cases taken_pushAfter.symm.trans hn
  | _ => cases hn

theorem taken_next (h : p.next c = some (w,p')) (hn : p.taken = some n) (hf : p' ≠ .notFound) :
    p'.taken = some n ∨ ∃ r d, w = .unlink r n d := by
  cases next_writes h with
  | quiet h => exact .inl ((quiet_taken h hf).trans hn)
  | gcDelete => exact .inl hn
  | unlink =>
    cases hn
    exact .inr ⟨_,_,rfl⟩
  | _ => cases hn

theorem last_gcFrom {m : HazardPointerList} {g : ℕ} : (gcFrom m g : Pc L).last = none := by
  unfold gcFrom
  split
  · rfl
  · split <;> rfl

theorem last_scanFrom {m : HazardPointerList} {g : ℕ} : (scanFrom m g : Pc L).last = none := by
  unfold scanFrom
  split <;> rfl

theorem last_check {b : Bool} : (check b p).last = if b then p.last else none := by
  cases b <;> rfl

theorem quiet_last (h : p.next c = some (.none,p')) : p'.last = none := by
  cases p
  case relTest | delTest => rcases tested_next h with rfl | rfl <;> rfl
  case scanHead | scanLink =>
    cases h
    exact last_scanFrom
  case gcHead =>
    cases h
    exact last_gcFrom
  case gcPointer g nx obj =>
    cases h
    rw [last_check]
    split
    · split
      · exact last_gcFrom
      · rfl
    · rfl
  all_goals first
    | (cases h; done)
    | (cases h; rfl)
    | (cases h; rw [last_check]; split <;> rfl)
    | (cases h; split <;> rfl)
    | (simp only [Pc.next] at h; split at h <;> cases h <;> rfl)

theorem next_last (h : p.next c = some (w,p')) (hn : p'.last = some n) :
    ∃ head, p = .pushCas n head .delete := by
  cases next_writes h with
  | quiet h => cases (quiet_last h).symm.trans hn
  | @push m head f hl =>
    cases f with
    | delete =>
      cases hn
      exact ⟨head,rfl⟩
    | release => cases hn
    | prime left => cases left <;> cases hn
    | collect nx => cases last_gcFrom.symm.trans hn
  | pop => split at hn <;> cases hn
  | @add m f hl => cases f <;> cases hn
  | _ => cases hn

theorem Pc.expects.finds {v : HazardPointerNode} (hv : p.expects v) (hn : p.own = some n) :
    p.finds n v := by
  rwa [Pc.finds,if_pos hn]

/-- What a step that writes nothing does with the node that the thread works on. -/
theorem quiet_finds (h : p.next c = some (.none,p')) (hn : p.own = some n)
    (hv : p.expects (c.mem.node n)) (he : (c.mem.node c.mem.endNode).pointer = 0) :
    p'.finds n (c.mem.node n) ∧ p' ≠ .failed := by
  cases p <;> first
    | (cases hn; done)
    | (cases h; done)
    | (cases hn; cases h; exact ⟨Pc.expects.finds hv rfl,by simp⟩)
    | (cases hn; simp only [Pc.next] at h
       split at h <;> cases h <;> exact ⟨Pc.expects.finds hv rfl,by simp⟩)
    | (cases hn; cases h; simp_all [Pc.finds,Pc.own,Pc.expects,check,isUnqueued])
    | (cases hn; simp only [Pc.next] at h
       grind [Pc.finds,Pc.own,Pc.expects,check,isUnqueued])

end Next

section Write

variable [DecidableEq T] {c : Conf T L} {place : ℕ → Place T} {t : T} {p p' : Pc L} {w : Write}
  {n v : ℕ}

theorem node_write (hw : w.stores c ≠ some n) :
    SameFields (c.mem.node n) ((c.write t w).mem.node n) := by
  have hne : ∀ {m : ℕ}, w.stores c = some m → n ≠ m := by
    rintro m hm rfl
    exact hw hm
  cases w with
  | pointer m v =>
    have he : (c.mem.setPointer m v).node n = c.mem.node n := setPointer_ne _ _ _ (hne rfl)
    exact ⟨congrArg _ he,congrArg _ he,congrArg _ he⟩
  | gcPointer m v =>
    have he : (c.mem.setGcPointer m v).node n = c.mem.node n := setGcPointer_ne _ _ _ (hne rfl)
    exact ⟨congrArg _ he,congrArg _ he,congrArg _ he⟩
  | fixedLink m v =>
    refine ⟨setFixedLink_pointer _ _ _ _,setFixedLink_gcPointer _ _ _ _,?_⟩
    exact congrFun (setFixedLink_nextOf c.mem m v) n
  | next m v =>
    have he : (c.mem.setNext m v).node n = c.mem.node n := Function.update_of_ne (hne rfl) _ _
    exact ⟨congrArg _ he,congrArg _ he,congrArg _ he⟩
  | new =>
    have he : (c.mem.new.1).node n = c.mem.node n := Function.update_of_ne (hne rfl) _ _
    exact ⟨congrArg _ he,congrArg _ he,congrArg _ he⟩
  | push head m => cases head <;> exact ⟨rfl,rfl,rfl⟩
  | pop m v =>
    simp only [Conf.write]
    split <;> exact ⟨rfl,rfl,rfl⟩
  | unlink r m d =>
    refine ⟨assign_pointer _ _ _ _,assign_gcPointer _ _ _ _,?_⟩
    cases r with
    | head head => cases head <;> rfl
    | next k =>
      have he : (c.mem.setNext k d).node n = c.mem.node n := Function.update_of_ne (hne rfl) _ _
      exact congrArg _ he
  | _ => exact ⟨rfl,rfl,rfl⟩

theorem endNode_write : (c.write t w).mem.endNode = c.mem.endNode := by
  cases w with
  | push head m => cases head <;> rfl
  | pop m v =>
    simp only [Conf.write]
    split <;> rfl
  | unlink r m d =>
    cases r with
    | head head => cases head <;> rfl
    | next k => rfl
  | _ => rfl

/-- What a step does with the node that the thread works on and keeps. -/
theorem next_finds (h : p.next c = some (w,p')) (hn : p.own = some n)
    (hv : p.expects (c.mem.node n)) (he : (c.mem.node c.mem.endNode).pointer = 0)
    (hk : w.owns c p.own = some n) : p'.finds n ((c.write t w).mem.node n) := by
  cases next_writes h with
  | quiet h => exact (quiet_finds h hn hv he).1
  | addStore | addFailed =>
    cases hn
    exact Pc.finds.same (by simpa [Pc.finds,Pc.own,Pc.expects] using hv)
      (node_write (by simp [Write.stores]))
  | @add m f hf =>
    cases hn
    cases f <;> simp_all [Pc.finds,Pc.own,Pc.expects,AddFor.after,Conf.write]
  | popClear | pushStore | pushFailed | remClear =>
    cases hn
    have hm := setNext_pointer c.mem n n
    have hg := setNext_gcPointer c.mem n n
    simp_all [Pc.finds,Pc.own,Pc.expects,Conf.write,setNext,setNode]
  | acqStore | clrStore | relStore | delStore =>
    cases hn
    simp_all [Pc.finds,Pc.own,Pc.expects,Conf.write]
  | delExchange =>
    cases hn
    simp_all [Pc.finds,Pc.own,Pc.expects,Conf.write]
  | validate =>
    cases hn
    simpa [Pc.finds,Pc.own,Pc.expects,Conf.write] using hv
  | relDrop | delDrop | push => cases hk
  | _ => cases hn

theorem mem_held_write (hn : n ∈ (c.write t w).held t) :
    n ∈ c.held t ∨ w.owns c none = some n := by
  cases w with
  | new => simpa [Conf.write,Conf.take,Write.owns,eq_comm,or_comm] using hn
  | pop m v =>
    simp only [Conf.write,Write.owns] at hn ⊢
    split at hn
    · exact .inl hn
    next hm =>
      rw [if_neg hm]
      simpa [Conf.take,eq_comm,or_comm] using hn
  | push head m =>
    have hn : n ∈ (c.held t).erase m := by cases head <;> simpa [Conf.write,Conf.give] using hn
    exact .inl (List.mem_of_mem_erase hn)
  | drop m =>
    have hn : n ∈ (c.held t).erase m := by simpa [Conf.write,Conf.give] using hn
    exact .inl (List.mem_of_mem_erase hn)
  | unlink r m d => simpa [Conf.write,Conf.take,Write.owns,eq_comm,or_comm] using hn
  | _ => exact .inl hn

/-- The thread keeps its node, or gives it away. -/
theorem next_keeps (h : p.next c = some (w,p')) (hn : p.own = some n)
    (hnd : (c.held t).Nodup) (hh : n ∈ (c.write t w).held t) : w.owns c p.own = some n := by
  cases next_writes h with
  | @push m head f hf =>
    cases hn
    have hh : n ∈ (c.held t).erase n := by cases head <;> simpa [Conf.write,Conf.give] using hh
    exact absurd hh hnd.not_mem_erase
  | relDrop | delDrop =>
    cases hn
    have hh : n ∈ (c.held t).erase n := by simpa [Conf.write,Conf.give] using hh
    exact absurd hh hnd.not_mem_erase
  | new | pop | unlink => cases hn
  | _ => exact hn

end Write

section Step

variable {c : Conf T L} {place : ℕ → Place T} {t u : T} {p : Pc L} {w : Write} {n : ℕ}

theorem Inv.taken_gc (hi : Inv c place) (hn : (c.pc t).taken = some n) :
    n ∈ c.gc ∧ (c.pc t).critical := by
  have hp := hi.pos t
  generalize c.pc t = p at hn hp
  cases p with
  | gcDelete g nx obj =>
    cases hn
    exact ⟨hp.mem,rfl⟩
  | remTest g nx r | remEnd g nx r | remNext g nx r | remExit g nx r | remExpected g nx r
  | remDesired g nx r e | remCas g nx r e d =>
    cases hn
    exact ⟨hp.1.mem,rfl⟩
  | _ => cases hn

theorem Fields.expects (hf : Fields c) (hi : Inv c place) (hn : (c.pc t).own = some n) :
    (c.pc t).expects (c.mem.node n) := by
  have h := hf.held t n (hi.own t n hn)
  rwa [Pc.finds,if_pos hn] at h

/-- A step stores in the node that the thread works on, in a new node, or in one on the gc list. -/
theorem Inv.stores_place (hi : Inv c place) (h : (c.pc t).next c = some (w,p))
    (hn : w.stores c = some n) : (c.pc t).own = some n ∨ n = c.mem.fresh ∨ n ∈ c.gc := by
  have hp := hi.pos t
  rcases next_stores h hn with ho | rfl | ⟨nx,obj,hq⟩ | ⟨g,nx,e,d,hq⟩
  · exact .inl ho
  · exact .inr (.inl rfl)
  · rw [hq] at hp
    exact .inr (.inr hp.mem)
  · rw [hq] at hp
    exact .inr (.inr hp.2.1.mem)

theorem Inv.stored_own (hi : Inv c place) (h : (c.pc t).next c = some (w,p)) (hn : n ∈ c.held u)
    (hs : w.stores c = some n) : (c.pc t).own = some n := by
  rcases hi.stores_place h hs with ho | rfl | hg
  · exact ho
  · exact absurd hi.shared.fresh_unborn (hi.shared.born_held hn)
  · exact absurd hg (hi.shared.held_gc hn)

theorem Inv.not_stored_free (hi : Inv c place) (h : (c.pc t).next c = some (w,p))
    (hn : n ∈ c.free) : w.stores c ≠ some n := by
  intro hs
  rcases hi.stores_place h hs with ho | rfl | hg
  · exact hi.shared.held_free (hi.own t n ho) hn
  · have hu := hi.shared.fresh_unborn
    rw [(hi.shared.freePlace _).mp hn] at hu
    cases hu
  · exact hi.shared.gc_free hg hn

theorem gcFrom_alive {m : HazardPointerList} (hn : n ≠ 0) : (gcFrom m n : Pc L) ≠ .failed := by
  unfold gcFrom
  rw [if_neg hn]
  split <;> simp

theorem primeFrom_alive {k : ℕ} : (primeFrom k : Pc L) ≠ .failed := by cases k <;> simp [primeFrom]

/-- The checks of `Collect`, and the last one of `Delete`. -/
theorem Fields.quiet_alive (hf : Fields c) (hi : Inv c place)
    (h : (c.pc t).next c = some (.none,p)) : p ≠ .failed := by
  by_cases ho : (c.pc t).own = none
  · have hpos := hi.pos t
    have hl := hf.last t
    have hg : ∀ g nx, c.pc t = .gcObj g nx → (c.mem.node g).gcPointer ≠ 0 := by
      intro g nx hq
      rw [hq] at hpos
      refine (hf.gc g hpos.mem).2 fun u hu => ?_
      obtain rfl := hi.critical_unique (hi.taken_gc hu).2 (by rw [hq]; rfl)
      rw [hq] at hu
      cases hu
    have hz : ∀ {n}, OnGc c n → n ≠ 0 := chain_ne_zero hi.shared
    generalize c.pc t = q at h ho hpos hl hg
    cases q
    case gcHead =>
      cases h
      refine gcFrom_alive (hz ?_)
      by_cases he : c.mem.gcList = c.mem.endNode
      · exact .inl he
      · exact .inr (hi.shared.gcChain.head_mem he)
    case gcObj g nx =>
      cases h
      simp [check,hg g nx rfl]
    case gcPointer g nx obj =>
      cases h
      have hx : (gcFrom c.mem nx : Pc L) ≠ .failed := gcFrom_alive (hz (hpos.onGc hi.shared))
      simp only [(hf.gc g hpos.mem).1,check,decide_true,if_true]
      split
      · exact hx
      · simp
    case delLast n =>
      cases h
      simp [(hl n rfl).1,check]
    all_goals first
      | (cases ho; done)
      | (cases h; done)
      | (cases h; simp; done)
      | (cases h; split <;> simp)
      | (simp only [Pc.next] at h; grind [Pc.own,scanFrom])
  · obtain ⟨n,hn⟩ := Option.ne_none_iff_exists'.mp ho
    exact (quiet_finds h hn (hf.expects hi hn) hf.endNode).2

theorem Fields.next_alive (hf : Fields c) (hi : Inv c place) (h : (c.pc t).next c = some (w,p)) :
    p ≠ .failed := by
  have hq := fun h => hf.quiet_alive hi (t:=t) (p:=p) h
  have hpos := hi.pos t
  generalize c.pc t = q at h hpos hq
  cases next_writes h with
  | quiet h => exact hq h
  | pop => split <;> simp
  | @add n f hl => cases f <;> simp [AddFor.after]
  | @push n head f hl =>
    cases f with
    | release | delete => simp [PushFor.after]
    | prime left => exact primeFrom_alive
    | collect nx => exact gcFrom_alive (chain_ne_zero hi.shared hpos)
  | _ => simp

variable [DecidableEq T]

/-- The node that a thread works on, or has just taken out of a list. -/
theorem Fields.finds_own (hf : Fields c) (hi : Inv c place) (h : (c.pc t).next c = some (w,p))
    (hn : w.owns c (c.pc t).own = some n) : p.finds n ((c.write t w).mem.node n) := by
  by_cases ho : (c.pc t).own = some n
  · exact next_finds h ho (hf.expects hi ho) hf.endNode hn
  · have ht := hf.taken t
    have hg := hf.gc
    have hp := hi.pos t
    generalize c.pc t = q at h hn ho ht hp
    cases next_writes h with
    | new =>
      cases hn
      simp [Pc.finds,Pc.own,Pc.expects,Conf.write,Conf.take,HazardPointerList.new]
    | @pop m d hm =>
      simp only [Write.owns] at hn
      split at hn <;> cases hn
      next he =>
        have hv := hf.free n (hm ▸ hi.shared.freeChain.head_mem (hm ▸ he))
        have hv : (Pc.popClear n : Pc L).finds n (c.mem.node n) := by
          simpa [Pc.finds,Pc.own,Pc.expects] using hv
        simpa [he] using hv.same (node_write (by simp [Write.stores]))
    | @unlink g nx d r =>
      cases hn
      have hv : (c.mem.node n).pointer = 0 ∧ (c.mem.node n).gcPointer = 0 :=
        ⟨(hg n hp.1.mem).1,ht n rfl⟩
      simp only [Pc.finds,Pc.own,if_true,Pc.expects,Conf.write]
      exact ⟨(assign_pointer _ _ _ _).trans hv.1,(assign_gcPointer _ _ _ _).trans hv.2⟩
    | push | relDrop | delDrop => cases hn
    | _ => exact absurd hn ho

theorem Fields.held_self (hf : Fields c) (hi : Inv c place) (h : (c.pc t).next c = some (w,p))
    (hn : n ∈ (c.write t w).held t) : p.finds n ((c.write t w).mem.node n) := by
  by_cases ho : (c.pc t).own = some n
  · exact hf.finds_own hi h (next_keeps h ho (hi.shared.nodup t) hn)
  · rcases mem_held_write hn with hc | hc
    · have hv := hf.held t n hc
      rw [Pc.finds,if_neg ho] at hv
      have hs : w.stores c ≠ some n := fun hs => ho (hi.stored_own h hc hs)
      by_cases hp : p.own = some n
      · exact hf.finds_own hi h (next_own h hp)
      · rw [Pc.finds,if_neg hp,(node_write hs).gcPointer,(node_write hs).next]
        exact hv
    · refine hf.finds_own hi h ?_
      cases w with
      | new | pop | unlink => exact hc
      | _ => cases hc

theorem Fields.gc_write (hf : Fields c) (hi : Inv c place) (h : (c.pc t).next c = some (w,p))
    (hnf : p ≠ .notFound) (hn : n ∈ (c.write t w).gc) :
    ((c.write t w).mem.node n).pointer = 0 ∧
      ((∀ u, (Function.update c.pc t p u).taken ≠ some n) →
        ((c.write t w).mem.node n).gcPointer ≠ 0) := by
  rcases mem_gc_write hn with hg | rfl
  · obtain ⟨h1,h2⟩ := hf.gc n hg
    by_cases ht : w.touches c = some n
    · obtain ⟨nx,obj,hq | hq⟩ := hi.gc_touched h hg ht
      · rw [hq] at h
        cases h
        refine ⟨(setGcPointer_pointer _ _ _ _).trans h1,fun hu => ?_⟩
        exact absurd (by rw [Function.update_self]; rfl) (hu t)
      · rw [hq] at h
        cases h
        refine ⟨h1,fun hu => ?_⟩
        exact absurd (by rw [Function.update_self]; rfl) (hu t)
    · rw [pointer_write ht,gcPointer_write ht]
      refine ⟨h1,fun hu => h2 fun v hv => ?_⟩
      by_cases hvt : v = t
      · subst hvt
        rcases taken_next h hv hnf with hp | ⟨r,d,rfl⟩
        · exact hu v (by rwa [Function.update_self])
        · exact hi.shared.gcChain.nodup.not_mem_erase hn
      · exact hu v (by rwa [Function.update_of_ne hvt])
  · obtain ⟨f,hq⟩ := next_push h
    have hv := hf.expects hi (t:=t) (n:=n) (by rw [hq]; rfl)
    rw [hq] at hv
    exact ⟨hv.1,fun _ => hv.2.mp rfl⟩

theorem Fields.taken_write (hf : Fields c) (hi : Inv c place) (h : (c.pc t).next c = some (w,p))
    (hn : (Function.update c.pc t p u).taken = some n) :
    ((c.write t w).mem.node n).gcPointer = 0 := by
  have hkeep : ∀ v, (c.pc v).taken = some n → ((c.write t w).mem.node n).gcPointer = 0 := by
    intro v hv
    obtain ⟨hg,hc⟩ := hi.taken_gc hv
    by_cases ht : w.touches c = some n
    · obtain ⟨nx,obj,hq | hq⟩ := hi.gc_touched h hg ht
      · have hvt : v = t := hi.critical_unique hc (by rw [hq]; rfl)
        rw [hvt,hq] at hv
        cases hv
      · rw [hq] at h
        cases h
        exact hf.taken v n hv
    · rw [gcPointer_write ht]
      exact hf.taken v n hv
  by_cases hut : u = t
  · subst hut
    rw [Function.update_self] at hn
    rcases next_taken h hn with hn | rfl
    · exact hkeep u hn
    · exact congrArg _ (setGcPointer_self c.mem n 0)
  · rw [Function.update_of_ne hut] at hn
    exact hkeep u hn

theorem mem_free_write (hn : n ∈ (c.write t w).free) : n ∈ c.free ∨ w = .push .freeList n := by
  cases w with
  | push head m =>
    cases head with
    | gcList => exact .inl hn
    | freeList =>
      rcases List.mem_cons.mp hn with rfl | hn
      · exact .inr rfl
      · exact .inl hn
  | pop m v =>
    simp only [Conf.write] at hn
    split at hn
    · exact .inl hn
    · exact .inl (List.mem_of_mem_tail ((List.dropWhile_suffix _).subset hn))
  | _ => exact .inl hn

theorem Fields.free_write (hf : Fields c) (hi : Inv c place) (h : (c.pc t).next c = some (w,p))
    (hn : n ∈ (c.write t w).free) :
    ((c.write t w).mem.node n).pointer = 0 ∧ ((c.write t w).mem.node n).gcPointer = 0 := by
  rcases mem_free_write hn with hfree | rfl
  · have hs := hi.not_stored_free h hfree
    have hv := hf.free n hfree
    exact ⟨(node_write hs).pointer.trans hv.1,(node_write hs).gcPointer.trans hv.2⟩
  · obtain ⟨f,hq⟩ := next_push h
    have hv := hf.expects hi (t:=t) (n:=n) (by rw [hq]; rfl)
    rw [hq] at hv
    simp only [Pc.expects,reduceCtorEq,false_iff,not_not] at hv
    exact hv

theorem Fields.last_write (hf : Fields c) (hi : Inv c place) (h : (c.pc t).next c = some (w,p))
    (hr : ∀ u, w.fills = none ∨ (c.pc u).last ≠ w.fills)
    (hn : (Function.update c.pc t p u).last = some n) :
    ((c.write t w).mem.node n).pointer = 0 ∧ n < (c.write t w).mem.fresh := by
  by_cases hut : u = t
  · subst hut
    rw [Function.update_self] at hn
    obtain ⟨head,hq⟩ := next_last h hn
    have ho : (c.pc u).own = some n := by rw [hq]; rfl
    have hv := hf.expects hi ho
    have hb := (hi.shared.born n).mp (hi.shared.born_held (hi.own u n ho))
    rw [hq] at h hv
    cases next_writes h with
    | quiet h => cases (quiet_last h).symm.trans hn
    | push hl =>
      have hs := (node_write (c:=c) (t:=u) (n:=n) (w:=.push head n) (by simp [Write.stores])).pointer
      exact ⟨hs.trans hv.1,hb.2.2.trans_le fresh_write⟩
  · rw [Function.update_of_ne hut] at hn
    obtain ⟨h1,h2⟩ := hf.last u n hn
    refine ⟨?_,h2.trans_le fresh_write⟩
    by_cases ht : w.touches c = some n
    · cases w with
      | pointer m v =>
        cases ht
        have hv : v = 0 := by
          by_contra hv
          rcases hr u with hr | hr
          · simp [Write.fills,hv] at hr
          · exact hr (by simp [Write.fills,hv,hn])
        exact (congrArg _ (setPointer_self c.mem n v)).trans hv
      | gcPointer m v => exact (setGcPointer_pointer _ _ _ _).trans h1
      | new =>
        cases ht
        exact absurd h2 (Nat.lt_irrefl _)
      | validate m | delete m obj => exact h1
      | _ => cases ht
    · exact (pointer_write ht).trans h1

theorem Fields.endNode_write (hf : Fields c) (hi : Inv c place)
    (h : (c.pc t).next c = some (w,p)) :
    ((c.write t w).mem.node (c.write t w).mem.endNode).pointer = 0 := by
  have hs : w.stores c ≠ some c.mem.endNode := by
    intro hs
    rcases hi.stores_place h hs with ho | he | hg
    · exact hi.shared.ne_endNode (hi.shared.born_held (hi.own t _ ho)) rfl
    · exact absurd hi.shared.endNode.2 (he ▸ Nat.lt_irrefl _)
    · exact hi.shared.gcChain.stop_not_mem hg
  rw [SharedList.endNode_write,(node_write hs).pointer]
  exact hf.endNode

theorem Fields.step (hf : Fields c) (hi : Inv c place) (h : (c.pc t).next c = some (w,p))
    (hw : w.popOk c) (hr : ∀ u, w.fills = none ∨ (c.pc u).last ≠ w.fills) :
    Fields ((c.write t w).setPc t p) where
  held u n hn := by
    simp only [Conf.setPc,pc_write]
    by_cases hut : u = t
    · subst hut
      rw [Function.update_self]
      exact hf.held_self hi h hn
    · rw [Function.update_of_ne hut]
      have hn : n ∈ c.held u := held_write_of_ne (w:=w) hut ▸ hn
      refine (hf.held u n hn).same (node_write fun hs => ?_)
      exact hut (hi.shared.held_unique hn (hi.own t n (hi.stored_own h hn hs)))
  gc n hn := by
    simp only [Conf.setPc,pc_write]
    refine hf.gc_write hi h ?_ hn
    rintro rfl
    exact hi.pos_self h hw
  taken u n hn := by
    simp only [Conf.setPc,pc_write] at hn
    exact hf.taken_write hi h hn
  free n hn := hf.free_write hi h hn
  last u n hn := by
    simp only [Conf.setPc,pc_write] at hn
    exact hf.last_write hi h hr hn
  endNode := hf.endNode_write hi h
  alive u := by
    simp only [Conf.setPc,pc_write]
    by_cases hut : u = t
    · subst hut
      rw [Function.update_self]
      exact hf.next_alive hi h
    · rw [Function.update_of_ne hut]
      exact hf.alive u

end Step

section Fire

variable {c : Conf T L} {place : ℕ → Place T} {t : T} {p : Pc L} {n : ℕ}

theorem fields_start : Fields (start : Conf T L) := by
  constructor <;> simp [start,Pc.taken,Pc.last,HazardPointerList.init]

variable [DecidableEq T]

/-- A thread calls a function. -/
theorem Fields.enter {d : Conf T L} (hf : Fields c) (ht : c.pc t = .idle) (hm : d.mem = c.mem)
    (hpc : d.pc = Function.update c.pc t p) (hh : d.held = c.held) (hg : d.gc = c.gc)
    (hfr : d.free = c.free) (hp : ∀ v, (Pc.idle : Pc L).expects v → p.expects v)
    (htaken : p.taken = none) (hlast : p.last = none) (ha : p ≠ .failed) : Fields d where
  held u n hn := by
    rw [hm,hpc]
    have hv := hf.held u n (hh ▸ hn)
    by_cases hut : u = t
    · subst hut
      rw [ht] at hv
      rw [Function.update_self]
      unfold Pc.finds
      split
      · exact hp _ hv
      · exact hv
    · rwa [Function.update_of_ne hut]
  gc n hn := by
    rw [hm,hpc]
    refine (hf.gc n (hg ▸ hn)).imp_right fun h hu => h fun v hv => ?_
    have hvt : v ≠ t := by
      rintro rfl
      rw [ht] at hv
      cases hv
    exact hu v (by rwa [Function.update_of_ne hvt])
  taken u n hn := by
    rw [hm]
    rw [hpc] at hn
    by_cases hut : u = t
    · subst hut
      rw [Function.update_self,htaken] at hn
      cases hn
    · rw [Function.update_of_ne hut] at hn
      exact hf.taken u n hn
  free n hn := hm ▸ hf.free n (hfr ▸ hn)
  last u n hn := by
    rw [hm]
    rw [hpc] at hn
    by_cases hut : u = t
    · subst hut
      rw [Function.update_self,hlast] at hn
      cases hn
    · rw [Function.update_of_ne hut] at hn
      exact hf.last u n hn
  endNode := hm ▸ hf.endNode
  alive u := by
    rw [hpc]
    by_cases hut : u = t
    · subst hut
      rwa [Function.update_self]
    · rw [Function.update_of_ne hut]
      exact hf.alive u

theorem Fields.call [DecidableEq L] {c' : Conf T L} (hf : Fields c) (h : c.call t n p = some c')
    (hp : ∀ v, (Pc.idle : Pc L).expects v → p.expects v) (htaken : p.taken = none)
    (hlast : p.last = none) (ha : p ≠ .failed) : Fields c' := by
  simp only [Conf.call] at h
  split at h <;> cases h
  next hn => exact hf.enter hn.1 rfl rfl rfl rfl rfl hp htaken hlast ha

variable [DecidableEq L]

theorem Fields.fire {c' : Conf T L} {a : Label T L} (hf : Fields c) (hi : Inv c place)
    (h : fire c a = some c') (hw : PopCurrent c a) (hr : NoRefill c a) : Fields c' := by
  cases a with
  | step t =>
    simp only [SharedList.fire,Option.map_eq_some_iff] at h
    obtain ⟨⟨w,p⟩,hn,rfl⟩ := h
    simp only [PopCurrent,NoRefill,Conf.writeOf,hn] at hw hr
    exact hf.step hi hn hw hr
  | store l obj =>
    cases h
    exact ⟨hf.held,hf.gc,hf.taken,hf.free,hf.last,hf.endNode,hf.alive⟩
  | acquire t n l | validate t n l | clear t n | release t n drop =>
    exact hf.call h (fun _ hv => hv) rfl rfl (by simp)
  | delete t n drop =>
    have hd : Fields { c with cargo := Function.update c.cargo n (c.mem.node n).pointer } :=
      ⟨hf.held,hf.gc,hf.taken,hf.free,hf.last,hf.endNode,hf.alive⟩
    exact hd.call h (fun _ hv => hv) rfl rfl (by simp)
  | acquireNode t | collect t =>
    simp only [SharedList.fire] at h
    split at h <;> cases h
    next ht => exact hf.enter ht rfl rfl rfl rfl rfl (fun _ hv => hv) rfl rfl (by simp)
  | prime t k =>
    simp only [SharedList.fire] at h
    split at h <;> cases h
    next ht =>
      refine hf.enter ht rfl rfl rfl rfl rfl (fun _ hv => ?_) ?_ ?_ primeFrom_alive <;>
        cases k
      case refine_1.zero | refine_1.succ => exact hv
      all_goals rfl

/-- `Undisturbed`, and no node is refilled while `Delete` of it has not returned. -/
def Unrefilled (c : Conf T L) (a : Label T L) : Prop := Undisturbed c a ∧ NoRefill c a

theorem reachable_fields (hr : (system T L).ReachableVia Unrefilled c) :
    ∃ place, Inv c place ∧ Fields c := by
  refine hr.invariant (I:=fun c => ∃ place, Inv c place ∧ Fields c) (fun s hs => ?_)
    fun s a s' _ hi hu hf => ?_
  · obtain rfl : s = start := hs
    exact ⟨_,inv_start,fields_start⟩
  · obtain ⟨place,hi,hfs⟩ := hi
    obtain ⟨place',hi'⟩ := fire_inv hi hf hu.1
    exact ⟨place',hi',hfs.fire hi hf hu.1.2 hu.2⟩

end Fire

/-- The node that a thread is about to get from the list or to give back. -/
def Pc.moves : Pc L → Option ℕ
  | .acqNext _ _ | .acqGc _ _ | .acqTest _ _ | .acqLoad _ _ | .acqStore _ _ => none
  | .valLoad _ _ | .valTest _ _ _ | .clrGc _ | .clrStore _ => none
  | p => p.own

structure NodesSound (c : Conf T L) : Prop where
  /-- no assertion has failed -/
  checks : ∀ t, c.pc t ≠ .failed
  client : ∀ t, ∀ n ∈ c.held t, (c.pc t).moves ≠ some n →
    (c.mem.node n).gcPointer = 0 ∧ (c.mem.node n).next = 0
  queued : ∃ gc, Chain c.mem.nextOf c.mem.endNode c.mem.gcList gc ∧ ∀ n ∈ gc,
    (c.mem.node n).pointer = 0 ∧
      ((∀ t, (c.pc t).taken ≠ some n) → (c.mem.node n).gcPointer ≠ 0)
  free : ∃ free, Chain c.mem.nextOf c.mem.endNode c.mem.freeList free ∧ ∀ n ∈ free,
    (c.mem.node n).pointer = 0 ∧ (c.mem.node n).gcPointer = 0

theorem finds_client {p : Pc L} {n : ℕ} {v : HazardPointerNode} (h : p.finds n v)
    (hn : p.moves ≠ some n) : v.gcPointer = 0 ∧ v.next = 0 := by
  by_cases ho : p.own = some n
  · rw [Pc.finds,if_pos ho] at h
    cases p <;> first
      | exact h
      | exact absurd ho hn
  · rwa [Pc.finds,if_neg ho] at h

section Sound

variable [DecidableEq T] [DecidableEq L] {c : Conf T L}

theorem nodes_sound (hr : (system T L).ReachableVia Unrefilled c) : NodesSound c := by
  obtain ⟨place,hi,hf⟩ := reachable_fields hr
  constructor
  case checks => exact hf.alive
  case client => exact fun t n hn hm => finds_client (hf.held t n hn) hm
  case queued => exact ⟨c.gc,hi.shared.gcChain,hf.gc⟩
  case free => exact ⟨c.free,hi.shared.freeChain,hf.free⟩

instance [Fintype T] (c : Conf T L) (a : Label T L) : Decidable (NoRefill c a) :=
  inferInstanceAs (Decidable (∀ _, _ ∨ _))

instance [Fintype T] (c : Conf T L) (a : Label T L) : Decidable (Unrefilled c a) :=
  inferInstanceAs (Decidable (_ ∧ _))

end Sound

def keptSchedule : List (Label Party Unit) :=
  List.flatten [queueSchedule,.delete 1 2 true::steps 1 13,.collect 0::steps 0 14,
    .clear 1 3::steps 1 2]

/-- Thread 0 has set the `gc_pointer` of node 2 to NULL, and thread 1 holds node 3. -/
def keptConf : Conf Party Unit :=
  ((system Party Unit).execVia Unrefilled start keptSchedule).getD start

example : ((keptConf.pc 0).taken,keptConf.held 1) = (some 2,[3]) := by decide

theorem nodes_sound_keptConf : NodesSound keptConf :=
  nodes_sound (.execViaD keptSchedule (.init rfl))

/-- Thread 1 has pushed node 2 in `Delete`; `Collect` puts it on the free list, and thread 0 gets it
and sets its pointer. -/
def refillSchedule : List (Label Party Unit) :=
  List.flatten [.acquireNode 1::steps 1 7,[.store () 7],.acquire 1 2 ()::steps 1 5,[.store () 0],
    .delete 1 2 true::steps 1 12,.collect 0::steps 0 26,.acquireNode 0::steps 0 4,
    [.store () 8],.acquire 0 2 ()::steps 0 5,steps 1 1]

def refillConf : Conf Party Unit :=
  ((system Party Unit).execVia Undisturbed start refillSchedule).getD start

/-- The last assertion of `Delete` fails. -/
theorem not_nodes_sound :
    ∃ c : Conf Party Unit, (system Party Unit).ReachableVia Undisturbed c ∧ ¬NodesSound c := by
  refine ⟨refillConf,.execViaD refillSchedule (.init rfl),fun h => ?_⟩
  exact absurd (h.checks 1) (by decide)

end SharedList
end Benedias
