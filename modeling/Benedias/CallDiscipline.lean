import Benedias.NodeFields
import Benedias.ReclamationSafety

/-! Which calls have to be kept apart for the shared lists to be sound: `AcquireNode` from
`AcquireNode`, and `Delete` from `Collect`. All others may overlap. -/
namespace Benedias
namespace SharedList

open Interleaving LinkedChain HazardPointerList

variable {T L : Type}

/-- The calls that do not go with each other. -/
inductive Call
  | acquireNode | delete | collect
  deriving DecidableEq

/-- The call that a thread is in. -/
def Pc.inside : Pc L → Option Call
  | .popLoad | .popNext _ | .popCas _ _ | .popClear _ | .alloc .acquireNode => some .acquireNode
  | .addLoad _ .acquireNode | .addStore _ _ .acquireNode | .addCas _ .acquireNode
  | .addFailed _ _ .acquireNode => some .acquireNode
  | .delGc _ _ | .delTest _ _ | .delLoad _ | .delExchange _ _ | .delStore _ _ | .delNext _
  | .delPointer _ | .delGcPointer _ | .delLast _ => some .delete
  | .pushCheck _ _ .delete | .pushLoad _ _ .delete | .pushStore _ _ _ .delete
  | .pushCas _ _ .delete | .pushFailed _ _ _ .delete => some .delete
  | .colTest | .colLock => some .collect
  | p => if p.critical then some .collect else none

/-- One `AcquireNode` at a time, and no `Delete` beside a `Collect`. -/
def Apart (c : Conf T L) : Label T L → Prop
  | .acquireNode _ => ∀ u, (c.pc u).inside ≠ some .acquireNode
  | .delete _ _ _ => ∀ u, (c.pc u).inside ≠ some .collect
  | .collect _ => ∀ u, (c.pc u).inside ≠ some .delete
  | _ => True

/-- Only `Delete` pushes onto the gc list. -/
def Pc.aimed : Pc L → Bool
  | .pushCheck _ head f | .pushLoad _ head f | .pushStore _ _ head f | .pushCas _ head f
  | .pushFailed _ _ head f => head = .gcList ↔ f = .delete
  | _ => true

/-- The head that `pop` has read is still on the free list, with the link that it has read. -/
def Pc.top (c : Conf T L) : Pc L → Prop
  | .popNext n => n = c.mem.endNode ∨ n ∈ c.free
  | .popCas n d => (n = c.mem.endNode ∨ n ∈ c.free) ∧ c.mem.nextOf n = d
  | _ => True

structure Separated (c : Conf T L) : Prop where
  acquire : ∀ t u, (c.pc t).inside = some .acquireNode → (c.pc u).inside = some .acquireNode → t = u
  delete : ∀ t u, (c.pc t).inside = some .delete → (c.pc u).inside ≠ some .collect
  aimed : ∀ t, (c.pc t).aimed
  top : ∀ t, (c.pc t).top c
  last : ∀ t n, (c.pc t).last = some n → n ∈ c.gc

section Next

variable {c : Conf T L} {p q : Pc L} {w : Write} {n : ℕ}

theorem inside_of_critical (hp : p.critical) : p.inside = some .collect := by
  cases p with
  | pushCheck n head f | pushLoad n head f | pushStore n v head f | pushCas n head f
  | pushFailed n v head f => cases f <;> first | rfl | cases hp
  | _ => first | rfl | cases hp

theorem inside_check (b : Bool) : (check b p).inside = none ∨ (check b p).inside = p.inside := by
  cases b
  · exact .inl rfl
  · exact .inr rfl

theorem inside_primeFrom (left : ℕ) : (primeFrom left : Pc L).inside = none := by
  cases left <;> rfl

theorem inside_scanFrom (m : HazardPointerList) : (scanFrom m n : Pc L).inside = some .collect := by
  unfold scanFrom
  split <;> rfl

theorem inside_gcFrom (m : HazardPointerList) :
    (gcFrom m n : Pc L).inside = none ∨ (gcFrom m n : Pc L).inside = some .collect := by
  unfold gcFrom
  split
  · exact .inr rfl
  · split
    · exact .inl rfl
    · exact .inr rfl

theorem inside_addAfter (f : AddFor) : (f.after n : Pc L).inside = none := by cases f <;> rfl

theorem inside_pushAfter (m : HazardPointerList) (head : Head) (f : PushFor) :
    (f.after m n : Pc L).inside = none ∨
      (f.after m n : Pc L).inside = (Pc.pushCas n head f : Pc L).inside := by
  cases f with
  | release => exact .inl rfl
  | delete => exact .inr rfl
  | prime left => exact .inl (inside_primeFrom left)
  | collect next => exact inside_gcFrom m

/-- A step leaves the call or stays in it. -/
theorem next_inside (h : p.next c = some (w,q)) : q.inside = none ∨ q.inside = p.inside := by
  cases p
  case popCas n d =>
    simp only [Pc.next] at h
    split at h <;> cases h
    case isTrue hf => split <;> exact .inr rfl
    case isFalse hf => exact .inr rfl
  case addCas n f =>
    simp only [Pc.next] at h
    split at h <;> cases h
    case isTrue hf => exact .inl (inside_addAfter f)
    case isFalse hf => cases f <;> exact .inr rfl
  case pushCas n head f =>
    simp only [Pc.next] at h
    split at h <;> cases h
    case isTrue hf => exact inside_pushAfter c.mem head f
    case isFalse hf => cases f <;> exact .inr rfl
  case alloc f | addLoad n f | addStore n v f | addFailed n v f | pushLoad n head f
      | pushStore n v head f | pushFailed n v head f => cases h; cases f <;> exact .inr rfl
  case pushCheck n head f =>
    cases h
    have hf : (Pc.pushLoad n head f : Pc L).inside = (Pc.pushCheck n head f : Pc L).inside := by
      cases f <;> rfl
    exact hf ▸ inside_check _
  case relTest | delTest | remCas | colLock =>
    simp only [Pc.next] at h
    split at h <;> cases h <;> first | exact .inl rfl | exact .inr rfl
  case acqTest | colTest | scanTest | remTest | remEnd | remExit =>
    cases h
    split <;> first | exact .inl rfl | exact .inr rfl
  case scanHead | scanLink =>
    cases h
    exact .inr (inside_scanFrom c.mem)
  case gcHead =>
    cases h
    exact inside_gcFrom c.mem
  case gcPointer g nx obj =>
    cases h
    rcases inside_check _ with he | he
    · exact .inl he
    · rw [he]
      split
      · exact inside_gcFrom c.mem
      · exact .inr rfl
  case delLast n =>
    cases h
    exact .inl ((inside_check _).elim id id)
  all_goals first
    | (cases h; done)
    | (cases h; exact inside_check _)
    | (cases h; exact .inl rfl)
    | (cases h; exact .inr rfl)

theorem aimed_check {b : Bool} (hp : p.aimed) : (check b p).aimed := by
  cases b
  · rfl
  · exact hp

theorem aimed_primeFrom (left : ℕ) : (primeFrom left : Pc L).aimed := by cases left <;> rfl

theorem aimed_gcFrom (m : HazardPointerList) : (gcFrom m n : Pc L).aimed := by
  unfold gcFrom
  split
  · rfl
  · split <;> rfl

theorem aimed_pushAfter (m : HazardPointerList) (f : PushFor) : (f.after m n : Pc L).aimed := by
  cases f with
  | release | delete => rfl
  | prime left => exact aimed_primeFrom left
  | collect next => exact aimed_gcFrom m

theorem next_aimed (h : p.next c = some (w,q)) (hp : p.aimed) : q.aimed := by
  cases p
  case pushCas n head f =>
    simp only [Pc.next] at h
    split at h <;> cases h
    case isTrue hf => exact aimed_pushAfter c.mem f
    case isFalse hf => exact hp
  case pushCheck n head f => cases h; exact aimed_check hp
  case pushLoad | pushStore | pushFailed => cases h; exact hp
  case addCas n f =>
    simp only [Pc.next] at h
    split at h <;> cases h
    case isTrue hf => cases f <;> rfl
    case isFalse hf => rfl
  case popCas | relTest | delTest | remCas | colLock =>
    simp only [Pc.next] at h
    split at h <;> cases h <;> first | rfl | (split <;> rfl)
  case acqTest | colTest | scanTest | remTest | remEnd | remExit => cases h; split <;> rfl
  case scanHead | scanLink => cases h; unfold scanFrom; split <;> rfl
  case gcHead => cases h; exact aimed_gcFrom c.mem
  case gcPointer g nx obj =>
    cases h
    refine aimed_check ?_
    split
    · exact aimed_gcFrom c.mem
    · rfl
  all_goals first
    | (cases h; done)
    | (cases h; exact aimed_check rfl)
    | (cases h; rfl)

theorem inside_of_pop {d : ℕ} (h : p.next c = some (.pop n d,q)) :
    p = .popCas n d ∧ p.inside = some .acquireNode := by
  cases next_writes h with
  | pop hf => exact ⟨rfl,rfl⟩

theorem inside_of_pushesGc (h : p.next c = some (w,q)) (hp : p.aimed) (hw : w.pushesGc) :
    p.inside = some .delete := by
  cases next_writes h with
  | @push m head f hl =>
    cases head with
    | freeList => cases hw
    | gcList =>
      have hf : f = .delete := (of_decide_eq_true hp).mp rfl
      rw [hf]; rfl
  | _ => cases hw

theorem inside_of_last (hn : p.last = some n) : p.inside = some .delete := by
  cases p with
  | delLast m => rfl
  | _ => cases hn

theorem critical_of_rereads (hp : p.rereads) : p.critical := by
  cases p with
  | remExit | remExpected => rfl
  | _ => cases hp

theorem critical_of_unread {l : List ℕ} (hp : p.unread c = some l) : p.critical := by
  cases p with
  | scanTest | scanPush | scanLink | sort | gcHead => rfl
  | _ => cases hp

theorem next_fills (h : p.next c = some (w,q)) (hw : w.fills = some n) : p.own = some n := by
  cases next_writes h with
  | @acqStore m v | @delStore m v =>
    simp only [Write.fills] at hw
    split at hw <;> cases hw
    rfl
  | clrStore | relStore => cases hw
  | _ => cases hw

theorem Pc.top.same {d : Conf T L} (hp : p.top c) (hm : d.mem = c.mem) (hf : d.free = c.free) :
    p.top d := by
  cases p with
  | popNext | popCas => simpa only [Pc.top,hm,hf] using hp
  | _ => trivial

theorem top_of_inside (hp : p.inside ≠ some .acquireNode) : p.top c := by
  cases p with
  | popNext | popCas => exact absurd rfl hp
  | _ => trivial

/-- The link that `pop` makes the head is that of a node on the free list. -/
theorem popOk_of_top {place : ℕ → Place T} (hs : Shared c place) (h : p.next c = some (w,q)) (hp : p.top c) :
    w.popOk c := by
  cases next_writes h with
  | @pop m d hf =>
    obtain ⟨-,rfl⟩ := hp
    refine decide_eq_true ?_
    by_cases he : m = c.mem.endNode
    · exact .inl (he ▸ hs.endNext)
    · have hc : Chain c.mem.nextOf c.mem.endNode m c.free := hf ▸ hs.freeChain
      obtain ⟨l,hl,hc⟩ := hc.eq_cons he
      rw [hl]
      by_cases hd : c.mem.nextOf m = c.mem.endNode
      · exact .inl hd
      · exact .inr (hc.head_mem hd)
  | _ => rfl

end Next

section Step

variable [DecidableEq T] {c : Conf T L} {place : ℕ → Place T} {t u : T} {p q : Pc L} {w : Write}
  {n : ℕ}

theorem next_top (hs : Shared c place) (h : p.next c = some (w,q)) (ht : p.top c) :
    q.top (c.write t w) := by
  by_cases hq : q.inside = some .acquireNode
  case neg => exact top_of_inside hq
  have hp : p.inside = some .acquireNode := by
    rcases next_inside h with hn | he
    · cases hn.symm.trans hq
    · exact he.symm.trans hq
  cases p with
  | popLoad =>
    cases h
    by_cases he : c.mem.freeList = c.mem.endNode
    · exact .inl he
    · exact .inr (hs.freeChain.head_mem he)
  | popNext n =>
    cases h
    exact ⟨ht,rfl⟩
  | popCas n d =>
    simp only [Pc.next] at h
    split at h <;> cases h
    · split <;> trivial
    · trivial
  | addCas n f =>
    simp only [Pc.next] at h
    split at h <;> cases h
    · cases f <;> trivial
    · trivial
  | popClear | alloc | addLoad | addStore | addFailed => cases h; trivial
  | pushCheck n head f | pushLoad n head f | pushStore n v head f | pushCas n head f
  | pushFailed n v head f => cases f <;> cases hp
  | _ => cases hp

theorem mem_free_of_write (hw : ∀ m d, w ≠ .pop m d) (hn : n ∈ c.free) : n ∈ (c.write t w).free := by
  cases w with
  | pop m d => exact absurd rfl (hw m d)
  | push head m =>
    cases head with
    | gcList => exact hn
    | freeList => exact List.mem_cons_of_mem m hn
  | _ => exact hn

/-- As long as no other thread pops, what `pop` has read stays true. -/
theorem top_other (hi : Inv c place) (h : (c.pc u).next c = some (w,q)) (hw : ∀ m d, w ≠ .pop m d)
    (hok : w.popOk c) (hp : p.top c) : p.top (c.write u w) := by
  have hlink {m : ℕ} (hm : m = c.mem.endNode ∨ m ∈ c.free) :
      (m = (c.write u w).mem.endNode ∨ m ∈ (c.write u w).free) ∧
        (c.write u w).mem.nextOf m = c.mem.nextOf m := by
    rw [endNode_write]
    rcases hm with rfl | hm
    · have he := (hi.shared.write (hi.ok h hok)).endNext
      rw [endNode_write] at he
      exact ⟨.inl rfl,he.trans hi.shared.endNext.symm⟩
    · exact ⟨.inr (mem_free_of_write hw hm),(node_write (hi.not_stored_free h hm)).next⟩
  cases p with
  | popNext m => exact (hlink hp).1
  | popCas m d => exact ⟨(hlink hp.1).1,(hlink hp.1).2.trans hp.2⟩
  | _ => trivial

end Step

/-- In every run a push is aimed as its call wants it. -/
theorem reachable_aimed [DecidableEq T] [DecidableEq L] {P : Conf T L → Label T L → Prop}
    {c : Conf T L} (hr : (system T L).ReachableVia P c) (t : T) : (c.pc t).aimed := by
  refine hr.invariant (I:=fun c => ∀ t, (c.pc t).aimed) (fun s hs => ?_) ?_ t
  · obtain rfl : s = start := hs
    exact fun _ => rfl
  intro s a s' _ hi _ hf
  have hpc : ∀ t {p : Pc L}, p.aimed → ∀ u, (Function.update s.pc t p u).aimed := fun t p hp =>
    (Function.forall_update_iff s.pc fun _ p => p.aimed).mpr ⟨hp,fun u _ => hi u⟩
  cases a with
  | step t =>
    simp only [system,fire,Option.map_eq_some_iff] at hf
    obtain ⟨⟨w,p⟩,hn,rfl⟩ := hf
    simpa only [Conf.setPc,pc_write] using hpc t (next_aimed hn (hi t))
  | store l obj =>
    cases hf
    exact hi
  | acquire t n l | validate t n l | clear t n | release t n drop | delete t n drop =>
    simp only [system,fire,Conf.call] at hf
    split at hf <;> cases hf
    exact hpc t rfl
  | acquireNode t | collect t =>
    simp only [system,fire] at hf
    split at hf <;> cases hf
    exact hpc t rfl
  | prime t k =>
    simp only [system,fire] at hf
    split at hf <;> cases hf
    exact hpc t (aimed_primeFrom k)

section Discipline

variable [DecidableEq T] {c : Conf T L} {place : ℕ → Place T} {t u : T} {q : Pc L} {w : Write}
  {n : ℕ}

omit [DecidableEq T] in
/-- Under the discipline no step is one of those that the lists do not stand. -/
theorem Separated.unrefilled (hs : Separated c) (hi : Inv c place)
    (h : (c.pc t).next c = some (w,q)) :
    (w.pushesGc → ∀ u, ¬(c.pc u).critical) ∧ w.popOk c ∧
      ∀ u, w.fills = none ∨ (c.pc u).last ≠ w.fills := by
  refine ⟨fun hw u hc => ?_,popOk_of_top hi.shared h (hs.top t),fun u => ?_⟩
  · exact hs.delete t u (inside_of_pushesGc h (hs.aimed t) hw) (inside_of_critical hc)
  · cases hf : w.fills with
    | none => exact .inl rfl
    | some n =>
      refine .inr fun hl => ?_
      exact hi.shared.held_gc (hi.own t n (next_fills h hf)) (hs.last u n hl)

/-- A node is on the gc list when `Delete` comes to its last assertion, and stays there. -/
theorem Separated.last_write (hs : Separated c)
    (h : (c.pc t).next c = some (w,q)) (hn : (Function.update c.pc t q u).last = some n) :
    n ∈ (c.write t w).gc := by
  by_cases hut : u = t
  · subst hut
    rw [Function.update_self] at hn
    obtain ⟨head,hp⟩ := next_last h hn
    have ha := hs.aimed u
    rw [hp] at h ha
    obtain rfl : head = .gcList := (of_decide_eq_true ha).mpr rfl
    cases next_writes h with
    | quiet h => cases (quiet_last h).symm.trans hn
    | push hl => exact List.mem_cons_self
  · rw [Function.update_of_ne hut] at hn
    refine mem_gc_of_write (fun r d he => ?_) (hs.last u n hn)
    subst he
    exact hs.delete u t (inside_of_last hn) (inside_of_critical (next_locked h rfl))

theorem Separated.step (hs : Separated c) (hi : Inv c place) (h : (c.pc t).next c = some (w,q)) :
    Separated ((c.write t w).setPc t q) := by
  have hpc : ((c.write t w).setPc t q).pc = Function.update c.pc t q := by
    simp only [Conf.setPc,pc_write]
  have hin (u : T) (k : Call) (hk : (Function.update c.pc t q u).inside = some k) :
      (c.pc u).inside = some k := by
    by_cases hut : u = t
    · subst hut
      rw [Function.update_self] at hk
      rcases next_inside h with hn | he
      · cases hn.symm.trans hk
      · exact he.symm.trans hk
    · rwa [Function.update_of_ne hut] at hk
  constructor
  case acquire =>
    rw [hpc]
    exact fun u v hu hv => hs.acquire u v (hin u _ hu) (hin v _ hv)
  case delete =>
    rw [hpc]
    exact fun u v hu hv => hs.delete u v (hin u _ hu) (hin v _ hv)
  case aimed =>
    rw [hpc]
    exact (Function.forall_update_iff c.pc fun _ p => p.aimed).mpr
      ⟨next_aimed h (hs.aimed t),fun u _ => hs.aimed u⟩
  case last =>
    rw [hpc]
    exact fun u n hn => hs.last_write h hn
  case top =>
    rw [hpc]
    refine (Function.forall_update_iff c.pc fun _ p => p.top _).mpr
      ⟨(next_top hi.shared h (hs.top t)).same rfl rfl,fun u hut => Pc.top.same ?_ rfl rfl⟩
    by_cases hu : (c.pc u).inside = some .acquireNode
    · refine top_other hi h ?_ (hs.unrefilled hi h).2.1 (hs.top u)
      rintro m d rfl
      exact hut (hs.acquire u t hu (inside_of_pop h).2)
    · exact top_of_inside hu

/-- A thread outside all calls may start one, unless another is in a call that does not go with it. -/
theorem Separated.enter {d : Conf T L} {p : Pc L} (hs : Separated c) (hm : d.mem = c.mem)
    (hf : d.free = c.free) (hg : d.gc = c.gc) (hpc : d.pc = Function.update c.pc t p)
    (hp : p.aimed ∧ p.top c ∧ p.last = none)
    (hacq : p.inside = some .acquireNode → ∀ u, (c.pc u).inside ≠ some .acquireNode)
    (hdel : p.inside = some .delete → ∀ u, (c.pc u).inside ≠ some .collect)
    (hcol : p.inside = some .collect → ∀ u, (c.pc u).inside ≠ some .delete) : Separated d := by
  obtain ⟨ha,ht,hl⟩ := hp
  constructor
  case acquire =>
    rw [hpc]
    intro u v hu hv
    by_contra huv
    by_cases hut : u = t
    · subst hut
      rw [Function.update_self] at hu
      rw [Function.update_of_ne (Ne.symm huv)] at hv
      exact hacq hu v hv
    · rw [Function.update_of_ne hut] at hu
      by_cases hvt : v = t
      · subst hvt
        rw [Function.update_self] at hv
        exact hacq hv u hu
      · rw [Function.update_of_ne hvt] at hv
        exact huv (hs.acquire u v hu hv)
  case delete =>
    rw [hpc]
    intro u v hu hv
    by_cases hut : u = t
    · subst hut
      rw [Function.update_self] at hu
      by_cases hvu : v = u
      · subst hvu
        rw [Function.update_self,hu] at hv
        cases hv
      · rw [Function.update_of_ne hvu] at hv
        exact hdel hu v hv
    · rw [Function.update_of_ne hut] at hu
      by_cases hvt : v = t
      · subst hvt
        rw [Function.update_self] at hv
        exact hcol hv u hu
      · rw [Function.update_of_ne hvt] at hv
        exact hs.delete u v hu hv
  case aimed =>
    rw [hpc]
    exact (Function.forall_update_iff c.pc fun _ p => p.aimed).mpr ⟨ha,fun u _ => hs.aimed u⟩
  case top =>
    rw [hpc]
    exact (Function.forall_update_iff c.pc fun _ p => p.top d).mpr
      ⟨ht.same hm hf,fun u _ => (hs.top u).same hm hf⟩
  case last =>
    rw [hpc,hg]
    exact (Function.forall_update_iff c.pc fun _ p => ∀ n, p.last = some n → n ∈ c.gc).mpr
      ⟨fun n hn => absurd (hl.symm.trans hn) (by simp),fun u _ => hs.last u⟩

omit [DecidableEq T] in
theorem separated_start : Separated (start : Conf T L) where
  acquire t u h := by cases h
  delete t u h := by cases h
  aimed _ := rfl
  top _ := trivial
  last t n h := by cases h

variable [DecidableEq L] {c' : Conf T L} {a : Label T L}

/-- The discipline rules out every step that the lists do not stand. -/
theorem Separated.meets (hs : Separated c) (hi : Inv c place) (h : fire c a = some c') :
    Unrefilled c a ∧ NoLateQueue c a := by
  cases a with
  | step t =>
    simp only [SharedList.fire,Option.map_eq_some_iff] at h
    obtain ⟨⟨w,q⟩,hn,rfl⟩ := h
    obtain ⟨hgc,hpop,hfill⟩ := hs.unrefilled hi hn
    simp only [Unrefilled,Undisturbed,HeadSteady,PopCurrent,NoRefill,NoLateQueue,Conf.writeOf,hn]
    refine ⟨⟨⟨fun hw u hu => hgc hw u (critical_of_rereads hu),hpop⟩,hfill⟩,fun n hq u l hl => ?_⟩
    refine absurd (critical_of_unread (Option.mem_def.mp hl)) (hgc ?_ u)
    cases w with
    | push head m =>
      cases head with
      | gcList => rfl
      | freeList => cases hq
    | _ => cases hq
  | _ =>
    exact ⟨⟨⟨fun hw => absurd hw (by simp [Conf.writeOf,Write.pushesGc]),rfl⟩,fun _ => .inl rfl⟩,
      fun n hn => absurd hn (by simp [Conf.writeOf,Write.queues])⟩

theorem Separated.fire (hs : Separated c) (hi : Inv c place) (h : SharedList.fire c a = some c')
    (ha : Apart c a) : Separated c' := by
  cases a with
  | step t =>
    simp only [SharedList.fire,Option.map_eq_some_iff] at h
    obtain ⟨⟨w,q⟩,hn,rfl⟩ := h
    exact hs.step hi hn
  | store l obj =>
    cases h
    exact ⟨hs.acquire,hs.delete,hs.aimed,fun t => (hs.top t).same rfl rfl,hs.last⟩
  | acquireNode t =>
    simp only [SharedList.fire] at h
    split at h <;> cases h
    exact hs.enter rfl rfl rfl rfl ⟨rfl,trivial,rfl⟩ (fun _ => ha) (by simp [Pc.inside])
      (by simp [Pc.inside])
  | collect t =>
    simp only [SharedList.fire] at h
    split at h <;> cases h
    exact hs.enter rfl rfl rfl rfl ⟨rfl,trivial,rfl⟩ (by simp [Pc.inside]) (by simp [Pc.inside])
      fun _ => ha
  | prime t k =>
    simp only [SharedList.fire] at h
    split at h <;> cases h
    have hk := inside_primeFrom (L:=L) k
    exact hs.enter rfl rfl rfl rfl
      ⟨aimed_primeFrom k,top_of_inside (by simp [hk]),by cases k <;> rfl⟩ (by simp [hk])
      (by simp [hk]) (by simp [hk])
  | delete t n drop =>
    simp only [SharedList.fire,Conf.call] at h
    split at h <;> cases h
    exact hs.enter rfl rfl rfl rfl ⟨rfl,trivial,rfl⟩ (by simp [Pc.inside]) (fun _ => ha)
      (by simp [Pc.inside])
  | acquire t n l | validate t n l | clear t n | release t n drop =>
    simp only [SharedList.fire,Conf.call] at h
    split at h <;> cases h
    exact hs.enter rfl rfl rfl rfl ⟨rfl,trivial,rfl⟩ (by simp [Pc.inside,Pc.critical])
      (by simp [Pc.inside,Pc.critical]) (by simp [Pc.inside,Pc.critical])

theorem reachable_apart (hr : (system T L).ReachableVia Apart c) :
    (∃ place, Inv c place) ∧ Fields c := by
  have hm := hr.meets (Q:=Unrefilled) (I:=fun c => Separated c ∧ ∃ place, Inv c place)
    (fun s hs => ?_) fun s a s' _ ⟨hs,place,hi⟩ ha hf => ?_
  · obtain ⟨place,hi,hf⟩ := reachable_fields hm.1
    exact ⟨⟨place,hi⟩,hf⟩
  · obtain rfl : s = start := hs
    exact ⟨separated_start,_,inv_start⟩
  · have hu := (hs.meets hi hf (a:=a)).1
    exact ⟨hu,hs.fire hi hf ha,fire_inv hi hf hu.1⟩

theorem reachable_apart_reclaims
    (hr : (system T L).ReachableVia (fun c a => Protocol c a ∧ Apart c a) c) : Reclaims c := by
  have hm := hr.meets (Q:=Careful) (I:=fun c => Separated c ∧ ∃ place, Inv c place)
    (fun s hs => ?_) fun s a s' _ ⟨hs,place,hi⟩ ha hf => ?_
  · exact (reachable_reclaims hm.1).1
  · obtain rfl : s = start := hs
    exact ⟨separated_start,_,inv_start⟩
  · obtain ⟨hu,hlate⟩ := hs.meets hi hf (a:=a)
    exact ⟨⟨ha.1,hu.1,hlate⟩,hs.fire hi hf ha.2,fire_inv hi hf hu.1⟩

/-- The state of lists that nothing has gone wrong with. -/
structure Orderly (c : Conf T L) : Prop where
  checks : ∀ t, c.pc t ≠ .failed ∧ c.pc t ≠ .notFound
  fixedChain : Chain c.mem.fixedLinkOf c.mem.endNode c.mem.nodes c.fixed
  gcChain : Chain c.mem.nextOf c.mem.endNode c.mem.gcList c.gc
  freeChain : Chain c.mem.nextOf c.mem.endNode c.mem.freeList c.free
  /-- a node has at most one holder, or is on at most one of the lists, or neither: `Release` and
  `Delete` drop one without an object -/
  holder : ∀ t u n, n ∈ c.held t → n ∈ c.held u → t = u
  held : ∀ t, ∀ n ∈ c.held t, n ∉ c.gc ∧ n ∉ c.free
  lists : ∀ n ∈ c.gc, n ∉ c.free

/-- Keeping `AcquireNode` apart from `AcquireNode` and `Delete` from `Collect` is enough: the lists
stay in order, no assertion fails and, if the clients keep to the protocol, no guarded object is
deleted, however all the other calls overlap. -/
theorem apart_sound (hr : (system T L).ReachableVia Apart c) :
    Orderly c ∧ ((system T L).ReachableVia (fun c a => Protocol c a ∧ Apart c a) c →
      ∀ t n obj q, (c.pc t).next c = some (.delete n obj,q) → ∀ m, ¬Guards c m obj) := by
  obtain ⟨⟨place,hi⟩,hf⟩ := reachable_apart hr
  have hs := hi.shared
  refine ⟨?_,fun hr t n obj q h => ?_⟩
  · constructor
    case checks =>
      refine fun t => ⟨hf.alive t,fun ht => ?_⟩
      have hp := hi.pos t
      rw [ht] at hp
      exact hp
    case fixedChain => exact hs.fixedChain
    case gcChain => exact hs.gcChain
    case freeChain => exact hs.freeChain
    case holder => exact fun _ _ _ ht hu => hs.held_unique ht hu
    case held => exact fun _ _ hn => ⟨hs.held_gc hn,hs.held_free hn⟩
    case lists => exact fun _ hn => hs.gc_free hn
  · obtain ⟨nx,hp⟩ := next_delete h
    have hk := (reachable_apart_reclaims hr).knows t
    rw [hp] at hk
    exact hk.1.unguarded

instance [Fintype T] (c : Conf T L) : (a : Label T L) → Decidable (Apart c a)
  | .acquireNode _ => inferInstanceAs (Decidable (∀ u, (c.pc u).inside ≠ some .acquireNode))
  | .delete _ _ _ => inferInstanceAs (Decidable (∀ u, (c.pc u).inside ≠ some .collect))
  | .collect _ => inferInstanceAs (Decidable (∀ u, (c.pc u).inside ≠ some .delete))
  | .prime _ _ | .acquire _ _ _ | .validate _ _ _ | .clear _ _ | .release _ _ _ | .step _
  | .store _ _ => .isTrue trivial

end Discipline

/-- Thread 2 gets a node while thread 0, in `Collect`, is about to delete object 5, and thread 1
releases the node that guards object 7. -/
def overlapSchedule : List (Label Party Unit) :=
  List.flatten [safeSchedule,.acquireNode 2::steps 2 4,.release 1 4 true::steps 1 3]

def overlapConf : Conf Party Unit :=
  ((system Party Unit).execVia (fun c a => Protocol c a ∧ Apart c a) start overlapSchedule).getD
    start

theorem apart_sound_overlapConf :
    (overlapConf.pc 0 = .gcDelete 2 1 5 ∧ overlapConf.pc 1 = .relNext 4 ∧
      overlapConf.pc 2 = .addLoad 5 .acquireNode) ∧
      Orderly overlapConf ∧ ∀ m, ¬Guards overlapConf m 5 := by
  have hr : (system Party Unit).ReachableVia (fun c a => Protocol c a ∧ Apart c a) overlapConf :=
    .execViaD overlapSchedule (.init rfl)
  have hpc : overlapConf.pc 0 = .gcDelete 2 1 5 := by decide +kernel
  have h := apart_sound (hr.mono fun _ _ ha => ha.2)
  refine ⟨⟨hpc,by decide +kernel⟩,h.1,h.2 hr 0 2 5 (.remTest 2 1 (.head .gcList)) ?_⟩
  rw [hpc]
  rfl

end SharedList
end Benedias
