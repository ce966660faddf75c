import Benedias.NodeFields
import Benedias.ReclamationSafety

/-! `Collect` forgets nothing: an object that is queued when `Collect` is called, and that no node
holds from then until the scan is over, has been deleted when that call returns, by whichever
`Collect`. -/
namespace Benedias
namespace SharedList

open Interleaving LinkedChain BinarySearch HazardPointerList

variable {T L : Type}

/-- In `Collect`, until its read of the head of the gc list. -/
def Pc.scanning : Pc L → Bool
  | .colTest | .colLock | .scanHead | .scanTest _ | .scanPush _ | .scanLink _ | .sort
  | .gcHead => true
  | _ => false

/-- The node whose object `Collect` is about to delete. -/
def Pc.doomed : Pc L → Option ℕ
  | .gcStore g _ _ | .gcDelete g _ _ => some g
  | _ => none

/-- The thread is in a `Collect` that has still to decide on the node. -/
def Pc.awaits (c : Conf T L) (n : ℕ) (p : Pc L) : Prop :=
  p.scanning ∨ p.doomed = some n ∨ n ∈ (p.left c).getD []

/-- Between two traversals `all_haz_ptrs` is empty. -/
def Pc.cleared : Pc L → Bool
  | .scanHead | .colDone | .colUnlock _ => true
  | _ => false

structure Emptied (c : Conf T L) : Prop where
  unlocked : c.lock = none → c.mem.allHazPtrs = []
  locked : ∀ t, (c.pc t).cleared → c.mem.allHazPtrs = []

section Next

variable {c d : Conf T L} {place : ℕ → Place T} {p q : Pc L} {w : Write} {n : ℕ} {l : List ℕ}

theorem critical_of_cleared (hp : p.cleared) : p.critical := by
  cases p with
  | scanHead | colDone | colUnlock => rfl
  | _ => cases hp

theorem cleared_check {b : Bool} (hp : (check b p).cleared) : p.cleared := by
  cases b with
  | false => cases hp
  | true => exact hp

theorem cleared_scanFrom (m : HazardPointerList) : ¬(scanFrom m n : Pc L).cleared := by
  unfold scanFrom
  split <;> simp [Pc.cleared]

theorem cleared_gcFrom (m : HazardPointerList) : ¬(gcFrom m n : Pc L).cleared := by
  unfold gcFrom
  split
  · simp [Pc.cleared]
  · split <;> simp [Pc.cleared]

theorem cleared_primeFrom (left : ℕ) : ¬(primeFrom left : Pc L).cleared := by
  cases left <;> simp [primeFrom,Pc.cleared]

theorem cleared_pushAfter (m : HazardPointerList) (f : PushFor) :
    ¬(f.after m n : Pc L).cleared := by
  cases f with
  | release | delete => simp [PushFor.after,Pc.cleared]
  | prime left => exact cleared_primeFrom left
  | collect next => exact cleared_gcFrom m

theorem quiet_cleared (h : p.next c = some (.none,q)) (hq : q.cleared) : p.cleared := by
  cases p
  case colDone => rfl
  case gcPointer g nx obj =>
    cases h
    have hq := cleared_check hq
    split at hq
    · exact absurd hq (cleared_gcFrom _)
    · cases hq
  case scanHead => rfl
  case scanLink => cases h; exact absurd hq (cleared_scanFrom _)
  case gcHead => cases h; exact absurd hq (cleared_gcFrom _)
  all_goals first
    | (cases h; done)
    | (cases h; cases hq)
    | (cases h; cases cleared_check hq)
    | (cases h; split at hq <;> cases hq)
    | (rcases tested_next h with rfl | rfl <;> cases hq)
    | (simp only [Pc.next] at h; split at h <;> cases h <;> cases hq)

/-- `all_haz_ptrs` is empty from the lock to the scan, and from its clearing to the unlock. -/
theorem next_cleared (h : p.next c = some (w,q)) (hq : q.cleared) :
    w = .lock ∨ w = .clear ∨ w = .none ∧ p.cleared := by
  cases next_writes h with
  | lock => exact .inl rfl
  | clear => exact .inr (.inl rfl)
  | push hl => exact absurd hq (cleared_pushAfter _ _)
  | @add m f hl => cases f <;> cases hq
  | pop hf => split at hq <;> cases hq
  | quiet h => exact .inr (.inr ⟨rfl,quiet_cleared h hq⟩)
  | _ => cases hq

theorem next_unlock (h : p.next c = some (.unlock,q)) : p.cleared := by
  cases next_writes h with
  | unlock => rfl

theorem scanning_check {b : Bool} (hp : (check b p).scanning) : p.scanning := by
  cases b with
  | false => cases hp
  | true => exact hp

theorem scanning_gcFrom (m : HazardPointerList) : ¬(gcFrom m n : Pc L).scanning := by
  unfold gcFrom
  split
  · simp [Pc.scanning]
  · split <;> simp [Pc.scanning]

theorem scanning_pushAfter (m : HazardPointerList) (f : PushFor) :
    ¬(f.after m n : Pc L).scanning := by
  cases f with
  | release | delete => simp [PushFor.after,Pc.scanning]
  | prime left => cases left <;> simp [PushFor.after,primeFrom,Pc.scanning]
  | collect next => exact scanning_gcFrom m

/-- A thread comes to the scan only by calling `Collect`. -/
theorem next_scanning (h : p.next c = some (w,q)) (hq : q.scanning) : p.scanning := by
  cases p
  case gcPointer g nx obj =>
    cases h
    have hq := scanning_check hq
    split at hq
    · exact absurd hq (scanning_gcFrom _)
    · cases hq
  case gcHead => rfl
  case pushCas n head f =>
    simp only [Pc.next] at h
    split at h <;> cases h
    · exact absurd hq (scanning_pushAfter _ _)
    · cases hq
  case addCas n f =>
    simp only [Pc.next] at h
    split at h <;> cases h
    · cases f <;> cases hq
    · cases hq
  case popCas n d =>
    simp only [Pc.next] at h
    split at h <;> cases h
    · split at hq <;> cases hq
    · cases hq
  case relTest | delTest | remCas =>
    simp only [Pc.next] at h
    split at h <;> cases h <;> cases hq
  all_goals first
    | rfl
    | (cases h; done)
    | (cases h; cases hq)
    | (cases h; cases scanning_check hq)
    | (cases h; split at hq <;> cases hq)

theorem doomed_check {b : Bool} (hp : (check b p).doomed = some n) : p.doomed = some n := by
  cases b with
  | false => cases hp
  | true => exact hp

theorem doomed_gcFrom {m : HazardPointerList} {g : ℕ} : (gcFrom m g : Pc L).doomed = none := by
  unfold gcFrom
  split
  · rfl
  · split <;> rfl

theorem doomed_scanFrom {m : HazardPointerList} {g : ℕ} : (scanFrom m g : Pc L).doomed = none := by
  unfold scanFrom
  split <;> rfl

theorem doomed_pushAfter {m : HazardPointerList} {g : ℕ} {f : PushFor} :
    (f.after m g : Pc L).doomed = none := by
  cases f with
  | release | delete => rfl
  | prime left => cases left <;> rfl
  | collect next => exact doomed_gcFrom

theorem next_doomed (h : p.next c = some (w,q)) (hq : q.doomed = some n) :
    p.doomed = some n ∨ ∃ nx obj, p = .gcPointer n nx obj := by
  cases p
  case gcPointer g nx obj =>
    cases h
    have hq := doomed_check hq
    split at hq
    · cases doomed_gcFrom.symm.trans hq
    · cases hq
      exact .inr ⟨nx,obj,rfl⟩
  case gcStore g nx obj => cases h; exact .inl hq
  case scanHead | scanLink => cases h; cases doomed_scanFrom.symm.trans hq
  case gcHead => cases h; cases doomed_gcFrom.symm.trans hq
  case pushCas m head f =>
    simp only [Pc.next] at h
    split at h <;> cases h
    · cases doomed_pushAfter.symm.trans hq
    · cases hq
  case addCas m f =>
    simp only [Pc.next] at h
    split at h <;> cases h
    · cases f <;> cases hq
    · cases hq
  case popCas m d =>
    simp only [Pc.next] at h
    split at h <;> cases h
    · split at hq <;> cases hq
    · cases hq
  case relTest | delTest | remCas | colLock =>
    simp only [Pc.next] at h
    split at h <;> cases h <;> cases hq
  all_goals first
    | (cases h; done)
    | (cases h; cases hq)
    | (cases h; cases doomed_check hq)
    | (cases h; split at hq <;> cases hq)

theorem awaits_same (hd : d.gc = c.gc) : p.awaits d n ↔ p.awaits c n := by
  simp only [Pc.awaits,left_same hd]

theorem Pc.awaits.left (ha : p.awaits c n) (hp : p.scanning = false) (hd : p.doomed ≠ some n) :
    n ∈ (p.left c).getD [] := by
  rcases ha with ha | ha | ha
  · cases hp.symm.trans ha
  · exact absurd ha hd
  · exact ha

theorem check_alive {b : Bool} (h : (check b p : Pc L) ≠ .failed) : check b p = p := by
  cases b with
  | false => exact absurd rfl h
  | true => rfl

end Next

section Step

variable [DecidableEq T] {c : Conf T L} {place : ℕ → Place T} {t u : T} {q : Pc L} {w : Write}
  {n : ℕ} {l : List ℕ}

theorem Emptied.step (he : Emptied c) (hi : Inv c place) (h : (c.pc t).next c = some (w,q)) :
    Emptied ((c.write t w).setPc t q) := by
  have hpc : ((c.write t w).setPc t q).pc = Function.update c.pc t q := by
    simp only [Conf.setPc,pc_write]
  constructor
  case unlocked =>
    intro hl
    rcases lock_write (c:=c) (t:=t) (w:=w) with hk | rfl | rfl
    · have hn : c.lock = none := hk.symm.trans hl
      have hw : ¬w.locked := fun hw => by
        have hc := hi.critical t (next_locked h hw)
        cases hc.symm.trans hn
      exact (allHazPtrs_write hw).trans (he.unlocked hn)
    · cases hl
    · exact he.locked t (next_unlock h)
  case locked =>
    rw [hpc]
    intro u hu
    by_cases hut : u = t
    · subst hut
      rw [Function.update_self] at hu
      rcases next_cleared h hu with rfl | rfl | ⟨rfl,hc⟩
      · exact he.unlocked (next_lock h)
      · rfl
      · exact he.locked u hc
    · rw [Function.update_of_ne hut] at hu
      have hw := hi.not_locked h hut (critical_of_cleared hu)
      exact (allHazPtrs_write hw).trans (he.locked u hu)

omit [DecidableEq T] in
/-- The node behind the one that the traversal comes from is left, and so is all behind it. -/
theorem awaits_gcFrom {nx : ℕ} (hs : Shared c place) (hq : (gcFrom c.mem nx : Pc L) ≠ .failed)
    {d : Conf T L} (hd : d.gc.dropWhile (· ≠ nx) = c.gc.dropWhile (· ≠ nx))
    (hn : n ∈ c.gc.dropWhile (· ≠ nx)) : (gcFrom c.mem nx : Pc L).awaits d n := by
  have hend : nx ≠ c.mem.endNode := by
    rintro rfl
    have he := (hs.gcChain.dropWhile (.inl rfl)).eq_nil
    rw [he] at hn
    cases hn
  unfold gcFrom at hq ⊢
  rw [if_neg hend] at hq ⊢
  split
  case isTrue h0 => exact absurd (if_pos h0) hq
  case isFalse =>
    refine .inr (.inr ?_)
    show n ∈ d.gc.dropWhile (· ≠ nx)
    rwa [hd]

/-- The traversal comes to every node that is left, and passes it by only if it finds its object in
`all_haz_ptrs`. -/
theorem awaits_next {p : Pc L} (hs : Shared c place) (hp : Pos c p)
    (hown : ∀ n, p.own = some n → n ∈ c.held t) (h : p.next c = some (w,q))
    (hq : q ≠ .failed ∧ q ≠ .notFound) (hn : n ∈ c.gc)
    (hobj : ∀ nx obj, p = .gcPointer n nx obj → ¬binarySearch c.mem.allHazPtrs obj)
    (hdel : ∀ obj, w ≠ .delete n obj) (ha : p.awaits c n) : q.awaits (c.write t w) n := by
  cases p
  case colTest =>
    cases h
    split
    case isTrue he =>
      have hc : Chain c.mem.nextOf c.mem.endNode c.mem.endNode c.gc := he ▸ hs.gcChain
      rw [hc.eq_nil] at hn
      cases hn
    case isFalse => exact .inl rfl
  case colLock =>
    simp only [Pc.next] at h
    split at h <;> cases h
    exact .inl rfl
  case scanHead | scanLink =>
    cases h
    unfold scanFrom
    split <;> exact .inl rfl
  case scanTest => cases h; split <;> exact .inl rfl
  case scanPush | sort => cases h; exact .inl rfl
  case gcHead =>
    cases h
    exact awaits_gcFrom hs hq.1 rfl (hs.gcChain.dropWhile_head.symm ▸ hn)
  case gcNext g =>
    cases h
    exact .inr (.inr (ha.left rfl (by simp [Pc.doomed])))
  case gcObj g nx =>
    cases h
    rw [check_alive hq.1]
    exact .inr (.inr (ha.left rfl (by simp [Pc.doomed])))
  case gcPointer g nx obj =>
    cases h
    have he := check_alive hq.1
    rw [he] at hq ⊢
    have hl : n ∈ c.gc.dropWhile (· ≠ g) := ha.left rfl (by simp [Pc.doomed])
    have hrest : n ≠ g → n ∈ c.gc.dropWhile (· ≠ nx) := by
      intro hne
      obtain ⟨l,hcons,-⟩ := (hs.gcChain.dropWhile (.inr hp.mem)).eq_cons
        (ne_of_mem_of_not_mem hp.mem hs.gcChain.stop_not_mem)
      rw [← hp.next,← hs.gcChain.tail_dropWhile hp.mem]
      rw [hcons] at hl ⊢
      exact List.mem_of_ne_of_mem hne hl
    split
    case isTrue hb =>
      rw [if_pos hb] at hq
      refine awaits_gcFrom hs hq.1 rfl (hrest ?_)
      rintro rfl
      exact hobj nx obj rfl hb
    case isFalse =>
      by_cases hng : n = g
      · exact .inr (.inl (congrArg some hng.symm))
      · exact .inr (.inr (hrest hng))
  case gcStore g nx obj =>
    cases h
    exact ha
  case gcDelete g nx obj =>
    cases h
    refine .inr (.inr (ha.left rfl fun hd => ?_))
    exact hdel obj (congrArg (Write.delete · obj) (Option.some.inj hd))
  case remTest g nx r | remEnd g nx r =>
    cases h
    split <;> exact .inr (.inr (ha.left rfl (by simp [Pc.doomed])))
  case remNext g nx r | remExpected g nx r | remDesired g nx r e | remClear g nx =>
    cases h
    exact .inr (.inr (ha.left rfl (by simp [Pc.doomed])))
  case remExit g nx r =>
    cases h
    split at hq
    case isTrue => exact absurd rfl hq.2
    case isFalse he =>
      rw [if_neg he]
      exact .inr (.inr (ha.left rfl (by simp [Pc.doomed])))
  case remCas g nx r e v =>
    have hl : n ∈ c.gc.dropWhile (· ≠ nx) := ha.left rfl (by simp [Pc.doomed])
    simp only [Pc.next] at h
    split at h <;> cases h
    case isTrue =>
      refine .inr (.inr ?_)
      show n ∈ (c.gc.erase g).dropWhile (· ≠ nx)
      rw [← hp.1.next] at hl ⊢
      rwa [hs.gcChain.dropWhile_erase hp.1.mem]
    case isFalse => exact .inr (.inr hl)
  case gcEnd g nx =>
    cases h
    rw [check_alive hq.1]
    exact .inr (.inr (ha.left rfl (by simp [Pc.doomed])))
  case pushCheck m head f =>
    cases h
    rw [check_alive hq.1]
    exact ha
  case pushLoad m head f | pushStore m top head f | pushFailed m top head f =>
    cases h
    exact ha
  case pushCas m head f =>
    simp only [Pc.next] at h
    split at h <;> cases h
    case isFalse => exact ha
    case isTrue =>
      cases f with
      | release | delete | prime left => cases ha.left rfl (by simp [Pc.doomed])
      | collect nx =>
        have hl : n ∈ c.gc.dropWhile (· ≠ nx) := ha.left rfl (by simp [Pc.doomed])
        have hm : m ≠ nx := by
          rintro rfl
          rcases hp with he | hg
          · exact hs.ne_endNode (hs.born_held (hown m rfl)) he
          · exact hs.held_gc (hown m rfl) hg
        refine awaits_gcFrom hs hq.1 ?_ hl
        cases head with
        | gcList => exact dropWhile_cons_ne hm
        | freeList => rfl
  all_goals
    rcases ha with ha | ha | ha
    · cases ha
    · cases ha
    · exact absurd ha (List.not_mem_nil)

/-- The nodes that a thread awaits after a step it has awaited before. -/
theorem next_awaits {p : Pc L} (hs : Shared c place) (hp : Pos c p)
    (hown : ∀ n, p.own = some n → n ∈ c.held t) (h : p.next c = some (w,q))
    (ha : q.awaits (c.write t w) n) : p.awaits c n := by
  rcases ha with ha | ha | ha
  · exact .inl (next_scanning h ha)
  · rcases next_doomed h ha with hd | ⟨nx,obj,rfl⟩
    · exact .inr (.inl hd)
    · refine .inr (.inr ?_)
      obtain ⟨l,hcons,-⟩ := (hs.gcChain.dropWhile (.inr hp.mem)).eq_cons
        (ne_of_mem_of_not_mem hp.mem hs.gcChain.stop_not_mem)
      show n ∈ c.gc.dropWhile (· ≠ n)
      rw [hcons]
      exact List.mem_cons_self
  · cases hl : q.left (c.write t w) with
    | none => simp [hl] at ha
    | some l =>
      rw [hl] at ha
      rcases left_next hs hp hown h hl with ⟨rfl,-⟩ | ⟨l',hl',hsub⟩
      · exact .inl rfl
      · exact .inr (.inr (hl' ▸ hsub n ha))

/-- What another thread does is of no account to the traversal. -/
theorem left_other (hi : Inv c place) (h : (c.pc u).next c = some (w,q)) (hw : w.popOk c)
    (hut : t ≠ u) : (c.pc t).left (c.write u w) = (c.pc t).left c := by
  by_cases hc : (c.pc t).critical
  · rcases gc_write (c:=c) (t:=u) (hi.not_locked h hut hc) with ⟨he,-⟩ | ⟨m,rfl,he⟩
    · exact left_same he
    · have hm : m ∈ c.held u := (hi.ok h hw).1
      exact left_cons hi.shared (hi.pos t) he (hi.shared.held_gc hm)
        (hi.shared.ne_endNode (hi.shared.born_held hm))
  · have hn (d : Conf T L) : (c.pc t).left d = none :=
      Option.eq_none_iff_forall_ne_some.mpr fun l hl => hc (left_critical hl)
    rw [hn,hn]

theorem awaits_other (hi : Inv c place) (h : (c.pc u).next c = some (w,q)) (hw : w.popOk c)
    (hut : t ≠ u) : (c.pc t).awaits (c.write u w) n ↔ (c.pc t).awaits c n := by
  simp only [Pc.awaits,left_other hi h hw hut]

end Step

/-- No node of the list holds the object as long as the thread is in the first part of `Collect`. -/
def Unheld (t : T) (obj : ℕ) (c : Conf T L) (a : Label T L) : Prop :=
  (Careful c a ∧ NoRefill c a) ∧
    ((c.pc t).scanning → ∀ m ∈ c.fixed, (c.mem.node m).pointer ≠ obj)

/-- An object that the thread awaits is queued and not in `all_haz_ptrs`. -/
def Pending (t : T) (n obj : ℕ) (c : Conf T L) : Prop :=
  (c.pc t).awaits c n → c.cargo n = obj →
    n ∈ c.gc ∧ ((c.pc t).critical → obj ∉ c.mem.allHazPtrs)

instance (c : Conf T L) (n : ℕ) (p : Pc L) : Decidable (p.awaits c n) :=
  inferInstanceAs (Decidable (_ ∨ _ ∨ _))

/-- Whether the thread has the object behind it. -/
def dealt (t : T) (n obj : ℕ) (c : Conf T L) : ℕ :=
  if (c.pc t).awaits c n ∧ c.cargo n = obj then 0 else 1

/-- The step is the deletion of the object that the node was queued with. -/
def Write.deletes (n obj : ℕ) : Write → ℕ
  | .delete m o => if m = n ∧ o = obj then 1 else 0
  | _ => 0

section Pending

variable [DecidableEq T] {c : Conf T L} {place : ℕ → Place T} {t u : T} {q : Pc L} {w : Write}
  {n obj : ℕ}

theorem cargo_of_write (hw : ∀ o, w ≠ .delete n o) : (c.write t w).cargo n = c.cargo n := by
  cases w with
  | delete m o =>
    refine Function.update_of_ne ?_ _ _
    rintro rfl
    exact hw o rfl
  | push head m => cases head <;> rfl
  | pop m d =>
    simp only [Conf.write]
    split <;> rfl
  | _ => rfl

omit [DecidableEq T] in
/-- The node that `remove` is called for has lost its object. -/
theorem Reclaims.cargo_taken (hr : Reclaims c) (hi : Inv c place) (hf : Fields c) {r : Ref} {d : ℕ}
    (h : (c.pc t).next c = some (.unlink r n d,q)) : c.cargo n = 0 := by
  obtain ⟨nx,hp,-⟩ := next_unlink h
  have ht : (c.pc t).taken = some n := by rw [hp]; rfl
  rw [← hr.queued n (hi.taken_gc ht).1 fun u nx' o hu => ?_]
  · exact hf.taken t n ht
  · have hut : u = t := hi.critical_unique (by rw [hu]; rfl) (hi.taken_gc ht).2
    rw [hut,hp] at hu
    cases hu

/-- The scan puts the object into `all_haz_ptrs` only if it finds a node that holds it. -/
theorem haz_self (he : Emptied c) (hi : Inv c place)
    (hu : (c.pc t).scanning → ∀ m ∈ c.fixed, (c.mem.node m).pointer ≠ obj)
    (hp : (c.pc t).critical → obj ∉ c.mem.allHazPtrs) (ha : (c.pc t).awaits c n)
    (h : (c.pc t).next c = some (w,q)) (hq : q.critical) :
    obj ∉ (c.write t w).mem.allHazPtrs := by
  rcases next_critical h hq with rfl | ⟨hc,-⟩
  · show obj ∉ c.mem.allHazPtrs
    rw [he.unlocked (next_lock h)]
    exact List.not_mem_nil
  · have ho := hp hc
    have hpos := hi.pos t
    generalize c.pc t = p at h ha hu hpos
    cases next_writes h with
    | @scanPush m =>
      have hne : (c.mem.node m).pointer ≠ obj := hu rfl m hpos
      show obj ∉ c.mem.allHazPtrs++[(c.mem.node m).pointer]
      rw [List.mem_append,List.mem_singleton,not_or]
      exact ⟨ho,hne.symm⟩
    | sort => exact fun hm => ho ((List.mem_insertionSort _).mp hm)
    | clear => rcases ha with ha | ha | ha <;> cases ha
    | unlink => exact assign_allHazPtrs (s:=c.mem) .. ▸ ho
    | push hl => rwa [allHazPtrs_write (by simp [Write.locked])]
    | pop hl => rwa [allHazPtrs_write (by simp [Write.locked])]
    | _ => exact ho

theorem Pending.step (hp : Pending t n obj c) (h0 : obj ≠ 0) (he : Emptied c) (hi : Inv c place)
    (hr : Reclaims c) (hf : Fields c)
    (hheld : (c.pc t).scanning → ∀ m ∈ c.fixed, (c.mem.node m).pointer ≠ obj)
    (h : (c.pc u).next c = some (w,q)) (hw : w.popOk c) :
    Pending t n obj ((c.write u w).setPc u q) := by
  intro ha hc
  have hpc : ((c.write u w).setPc u q).pc = Function.update c.pc u q := by
    simp only [Conf.setPc,pc_write]
  rw [hpc] at ha ⊢
  have hcn : c.cargo n = obj := (cargo_write_ne (hc.trans_ne h0)).symm.trans hc
  have hgc : n ∈ c.gc → n ∈ (c.write u w).gc := by
    refine mem_gc_of_write ?_
    rintro r d rfl
    exact h0 (hcn.symm.trans (hr.cargo_taken hi hf h))
  by_cases htu : t = u
  · subst htu
    rw [Function.update_self] at ha ⊢
    have ha : (c.pc t).awaits c n := next_awaits hi.shared (hi.pos t) (hi.own t) h ha
    obtain ⟨hn,ho⟩ := hp ha hcn
    exact ⟨hgc hn,haz_self he hi hheld ho ha h⟩
  · rw [Function.update_of_ne htu] at ha ⊢
    obtain ⟨hn,ho⟩ := hp ((awaits_other hi h hw htu).mp ha) hcn
    refine ⟨hgc hn,fun hcrit => ?_⟩
    show obj ∉ (c.write u w).mem.allHazPtrs
    rw [allHazPtrs_write (hi.not_locked h htu hcrit)]
    exact ho hcrit

theorem Pending.dealt_step (hp : Pending t n obj c) (hi : Inv c place) (hr : Reclaims c)
    (h : (c.pc u).next c = some (w,q)) (hw : w.popOk c) (hq : q ≠ .failed ∧ q ≠ .notFound) :
    dealt t n obj ((c.write u w).setPc u q) ≤ dealt t n obj c + w.deletes n obj := by
  unfold dealt
  split
  case isTrue => exact Nat.zero_le _
  case isFalse hn' =>
    split
    case isFalse => exact Nat.le_add_right _ _
    case isTrue hc =>
      obtain ⟨ha,hc⟩ := hc
      obtain ⟨hn,ho⟩ := hp ha hc
      suffices hd : w = .delete n obj by simp [hd,Write.deletes]
      by_contra hne
      have hdel : ∀ o, w ≠ .delete n o := by
        rintro o rfl
        obtain ⟨nx,hpc⟩ := next_delete h
        have hk := hr.knows u
        rw [hpc] at hk
        exact hne (congrArg _ (hk.1.cargo.trans hc))
      refine hn' ⟨?_,(cargo_of_write hdel).trans hc⟩
      simp only [Conf.setPc,pc_write]
      by_cases htu : t = u
      · subst htu
        rw [Function.update_self]
        refine awaits_next hi.shared (hi.pos t) (hi.own t) h hq hn (fun nx o hpc => ?_) hdel ha
        have hk := hr.knows t
        have hs : (c.pc t).sorted c := .inr (by rw [hpc]; rfl)
        rw [hpc] at hk
        rw [binarySearch_iff (hr.sorted t hs),hk.1,hc]
        exact ho (by rw [hpc]; rfl)
      · rw [Function.update_of_ne htu]
        exact (awaits_other hi h hw htu).mpr ha

omit [DecidableEq T] in
theorem Inv.gc_of_awaits (hi : Inv c place) (ha : (c.pc t).awaits c n)
    (hs : ¬(c.pc t).scanning) : n ∈ c.gc := by
  have hp := hi.pos t
  rcases ha with ha | ha | ha
  · exact absurd ha hs
  · generalize c.pc t = p at ha hp
    cases p with
    | gcStore | gcDelete =>
      cases ha
      exact hp.mem
    | _ => cases ha
  · cases hl : (c.pc t).left c with
    | none => simp [hl] at ha
    | some l => exact left_mem hl (by simpa [hl] using ha)

/-- A thread calls a function; `Delete` sets what its node is queued with. -/
theorem Pending.enter {d : Conf T L} (hp : Pending t n obj c) (hi : Inv c place)
    (hheld : (c.pc t).scanning → ∀ m ∈ c.fixed, (c.mem.node m).pointer ≠ obj)
    (hidle : c.pc u = .idle) (hm : d.mem = c.mem) (hgc : d.gc = c.gc)
    (hpc : d.pc = Function.update c.pc u q) (hnew : t = u → ¬q.awaits d n)
    (hcargo : d.cargo n = c.cargo n ∨ n ∈ c.held u ∧ d.cargo n = (c.mem.node n).pointer) :
    Pending t n obj d ∧ dealt t n obj d ≤ dealt t n obj c := by
  by_cases htu : t = u
  · subst htu
    have hq : ¬(d.pc t).awaits d n := by
      rw [hpc,Function.update_self]
      exact hnew rfl
    have hc : ¬(c.pc t).awaits c n := by
      rw [hidle]
      simp [Pc.awaits,Pc.scanning,Pc.doomed,Pc.left]
    exact ⟨fun ha => absurd ha hq,by simp [dealt,hq,hc]⟩
  · have hpct : d.pc t = c.pc t := by rw [hpc,Function.update_of_ne htu]
    have haw : (c.pc t).awaits d n ↔ (c.pc t).awaits c n := awaits_same hgc
    simp only [Pending,dealt,hpct,haw,hm,hgc]
    rcases hcargo with hc | ⟨hn,hc⟩
    · rw [hc]
      exact ⟨hp,le_rfl⟩
    · -- the node is held, so it is not queued, and the object that it holds is another one
      have hne : (c.pc t).awaits c n → d.cargo n ≠ obj ∧ c.cargo n ≠ obj := by
        intro ha
        have hng : n ∉ c.gc := hi.shared.held_gc hn
        refine ⟨?_,fun he => hng (hp ha he).1⟩
        rw [hc]
        refine hheld ?_ n (hi.fixed_of_held hn (by rw [hidle]; simp [Pc.adding]))
        by_contra hs
        exact hng (hi.gc_of_awaits ha hs)
      refine ⟨fun ha he => absurd he (hne ha).1,?_⟩
      rw [if_neg fun h => (hne h.1).1 h.2,if_neg fun h => (hne h.1).2 h.2]

end Pending

section Runs

variable [DecidableEq T] [DecidableEq L] {c c' : Conf T L} {place : ℕ → Place T} {t : T} {n obj : ℕ}
  {a : Label T L}

omit [DecidableEq L] in
theorem Emptied.enter {d : Conf T L} {p : Pc L} (he : Emptied c) (hl : d.lock = c.lock)
    (hm : d.mem = c.mem) (hpc : d.pc = Function.update c.pc t p) (hp : ¬p.cleared) :
    Emptied d := by
  constructor
  case unlocked =>
    rw [hl,hm]
    exact he.unlocked
  case locked =>
    rw [hpc,hm]
    exact (Function.forall_update_iff c.pc fun _ p => p.cleared → c.mem.allHazPtrs = []).mpr
      ⟨fun h => absurd h hp,fun u _ => he.locked u⟩

theorem Emptied.fire (he : Emptied c) (hi : Inv c place) (h : SharedList.fire c a = some c') :
    Emptied c' := by
  cases a with
  | step t =>
    simp only [SharedList.fire,Option.map_eq_some_iff] at h
    obtain ⟨⟨w,q⟩,hn,rfl⟩ := h
    exact he.step hi hn
  | store l obj =>
    cases h
    exact ⟨he.unlocked,he.locked⟩
  | acquire t n l | validate t n l | clear t n | release t n drop | delete t n drop =>
    simp only [SharedList.fire,Conf.call] at h
    split at h <;> cases h
    exact he.enter rfl rfl rfl (by simp [Pc.cleared])
  | acquireNode t | collect t =>
    simp only [SharedList.fire] at h
    split at h <;> cases h
    exact he.enter rfl rfl rfl (by simp [Pc.cleared])
  | prime t k =>
    simp only [SharedList.fire] at h
    split at h <;> cases h
    exact he.enter rfl rfl rfl (cleared_primeFrom k)

theorem reachable_emptied (hr : (system T L).ReachableVia Undisturbed c) : Emptied c := by
  refine hr.invariant (fun s hs => ?_) fun s a s' hs he _ hf => ?_
  · obtain rfl : s = start := hs
    exact ⟨fun _ => rfl,fun _ _ => rfl⟩
  · obtain ⟨place,hi⟩ := reachable_inv hs
    exact he.fire hi hf

theorem Pending.fire (hp : Pending t n obj c) (h0 : obj ≠ 0) (hu : Unheld t obj c a)
    (hr : (system T L).ReachableVia (fun c a => Careful c a ∧ NoRefill c a) c)
    (h : SharedList.fire c a = some c') (ha : a ≠ .collect t) :
    Pending t n obj c' ∧ dealt t n obj c' ≤ dealt t n obj c + (c.writeOf a).deletes n obj := by
  obtain ⟨hq,hheld⟩ := hu
  have hund {d : Conf T L} (hd : (system T L).ReachableVia
      (fun c a => Careful c a ∧ NoRefill c a) d) : (system T L).ReachableVia Unrefilled d :=
    hd.mono fun _ _ h => ⟨h.1.2.1,h.2⟩
  obtain ⟨place,hi,hf⟩ := reachable_fields (hund hr)
  have hrec := (reachable_reclaims (hr.mono fun _ _ h => h.1)).1
  cases a with
  | step u =>
    obtain ⟨place',hi',hf'⟩ := reachable_fields (hund (.step hr hq h))
    simp only [SharedList.fire,Option.map_eq_some_iff] at h
    obtain ⟨⟨w,q⟩,hn,rfl⟩ := h
    have hw : w.popOk c := by
      have hpop := hq.1.2.1.2
      simpa only [PopCurrent,Conf.writeOf,hn] using hpop
    have hpc : ((c.write u w).setPc u q).pc u = q := Function.update_self _ _ _
    have halive : q ≠ .failed ∧ q ≠ .notFound := by
      refine ⟨hpc ▸ hf'.alive u,?_⟩
      rintro rfl
      have hp := hi'.pos u
      rw [hpc] at hp
      exact hp
    have he := reachable_emptied ((hund hr).mono fun _ _ h => h.1)
    have hdeal := hp.dealt_step hi hrec hn hw halive
    simp only [Conf.writeOf,hn]
    exact ⟨hp.step h0 he hi hrec hf hheld hn hw,hdeal⟩
  | store l o =>
    cases h
    have haw : (c.pc t).awaits { c with loc := Function.update c.loc l o } n ↔
        (c.pc t).awaits c n := awaits_same rfl
    refine ⟨fun ha => hp (haw.mp ha),?_⟩
    simp only [dealt,haw]
    exact Nat.le_add_right _ _
  | acquire u m l | validate u m l | clear u m | release u m drop =>
    simp only [SharedList.fire,Conf.call] at h
    split at h <;> cases h
    next hidle =>
      exact hp.enter hi hheld hidle.1 rfl rfl rfl
        (fun _ => by simp [Pc.awaits,Pc.scanning,Pc.doomed,Pc.left]) (.inl rfl)
  | delete u m drop =>
    simp only [SharedList.fire,Conf.call] at h
    split at h <;> cases h
    next hidle =>
      refine hp.enter hi hheld hidle.1 rfl rfl rfl
        (fun _ => by simp [Pc.awaits,Pc.scanning,Pc.doomed,Pc.left]) ?_
      by_cases hnm : n = m
      · subst hnm
        exact .inr ⟨hidle.2,Function.update_self _ _ _⟩
      · exact .inl (Function.update_of_ne hnm _ _)
  | acquireNode u =>
    simp only [SharedList.fire] at h
    split at h <;> cases h
    next hidle =>
      exact hp.enter hi hheld hidle rfl rfl rfl
        (fun _ => by simp [Pc.awaits,Pc.scanning,Pc.doomed,Pc.left]) (.inl rfl)
  | collect u =>
    simp only [SharedList.fire] at h
    split at h <;> cases h
    next hidle =>
      refine hp.enter hi hheld hidle rfl rfl rfl (fun htu => ?_) (.inl rfl)
      exact absurd (congrArg Label.collect htu.symm) ha
  | prime u k =>
    simp only [SharedList.fire] at h
    split at h <;> cases h
    next hidle =>
      refine hp.enter hi hheld hidle rfl rfl rfl (fun _ => ?_) (.inl rfl)
      cases k <;> simp [primeFrom,Pc.awaits,Pc.scanning,Pc.doomed,Pc.left]

/-- What is queued with a node when `Collect` is called has been deleted when that call returns,
unless some node of the list holds it before the scan is over. -/
theorem collect_complete [∀ c a, Decidable (Unheld (T:=T) (L:=L) t obj c a)] {as : List (Label T L)}
    (hr : (system T L).ReachableVia (fun c a => Careful c a ∧ NoRefill c a) c)
    (hcall : c.pc t = .colTest) (hn : n ∈ c.gc) (hobj : c.cargo n = obj) (h0 : obj ≠ 0)
    (h : (system T L).execVia (Unheld t obj) c as = some c') (hcol : .collect t ∉ as)
    (hret : c'.pc t = .idle) :
    1 ≤ (system T L).tally (fun c a => (c.writeOf a).deletes n obj) c as := by
  have hp : Pending t n obj c := fun _ _ => ⟨hn,fun hc => by rw [hcall] at hc; cases hc⟩
  have hb := hr.budget (P:=Unheld t obj) (f:=dealt t n obj) (o:=fun _ _ => 0)
    (i:=fun c a => (c.writeOf a).deletes n obj) (fun _ _ h => h.1) hp
    (fun s a ha s' hs hp hu hf => hp.fire h0 hu hs hf fun he => hcol (he ▸ ha)) h
  have hstart : dealt t n obj c = 0 := if_pos ⟨.inl (by rw [hcall]; rfl),hobj⟩
  have hend : dealt t n obj c' = 1 := by
    refine if_neg fun hc => ?_
    have ha := hc.1
    rw [hret] at ha
    rcases ha with ha | ha | ha <;> cases ha
  have hle := hb.2
  omega

instance [Fintype T] [Fintype L] (c : Conf T L) (a : Label T L) : Decidable (Unheld t obj c a) :=
  inferInstanceAs (Decidable ((_ ∧ _) ∧ (_ → ∀ _ ∈ _, _)))

end Runs

/-- Object 5 is queued with node 2, and thread 0 calls `Collect`. -/
def calledSchedule : List (Label Party Unit) :=
  List.flatten [.acquireNode 2::steps 2 7,.acquireNode 1::steps 1 7,
    [.store () 5],.acquire 2 2 ()::steps 2 5,.validate 2 2 ()::steps 2 2,
    [.store () 0],.delete 2 2 true::steps 2 13,[.store () 7],[.collect 0]]

def calledConf : Conf Party Unit :=
  ((system Party Unit).execVia (fun c a => Careful c a ∧ NoRefill c a) start
    calledSchedule).getD start

/-- Thread 1 acquires object 7 while thread 0 scans, and thread 2 gets a node while it deletes. -/
def collectSchedule : List (Label Party Unit) :=
  List.flatten [steps 0 5,.acquire 1 3 ()::steps 1 5,.validate 1 3 ()::steps 1 2,steps 0 13,
    .acquireNode 2::steps 2 4,steps 0 10]

def collectedConf : Conf Party Unit :=
  ((system Party Unit).execVia (Unheld 0 5) calledConf collectSchedule).getD calledConf

theorem collectedConf_exec :
    (system Party Unit).execVia (Unheld 0 5) calledConf collectSchedule = some collectedConf := by
  have hs : ((system Party Unit).execVia (Unheld 0 5) calledConf collectSchedule).isSome := by
    decide +kernel
  obtain ⟨c,hc⟩ := Option.isSome_iff_exists.mp hs
  rw [collectedConf,hc,Option.getD_some]

theorem collect_complete_collectedConf :
    (collectedConf.gc = [] ∧ collectedConf.free = [2] ∧ Guards collectedConf 3 7) ∧
      1 ≤ (system Party Unit).tally (fun c a => (c.writeOf a).deletes 2 5) calledConf
        collectSchedule :=
  ⟨by decide +kernel,collect_complete (t:=0) (.execViaD calledSchedule (.init rfl))
    (by decide +kernel) (by decide +kernel) (by decide +kernel) (by decide) collectedConf_exec
    (by simp [collectSchedule,steps]) (by decide +kernel)⟩

end SharedList
end Benedias
