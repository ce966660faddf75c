import Benedias.SharedListPlaces

/-! What each thread relies on at its program points, what its next step does to this, and what it
leaves alone of what the others rely on. -/
namespace Benedias
namespace SharedList

open LinkedChain HazardPointerList

variable {T L : Type}

/-- The node that a thread has taken out of the lists and works on. -/
def Pc.own : Pc L → Option ℕ
  | .popClear n | .addLoad n _ | .addStore n _ _ | .addCas n _ | .addFailed n _ _ => some n
  | .pushCheck n _ _ | .pushLoad n _ _ | .pushStore n _ _ _ | .pushCas n _ _ => some n
  | .pushFailed n _ _ _ => some n
  | .acqNext n _ | .acqGc n _ | .acqTest n _ | .acqLoad n _ | .acqStore n _ => some n
  | .valLoad n _ | .valTest n _ _ | .clrGc n | .clrStore n => some n
  | .relGc n _ | .relTest n _ | .relStore n | .relNext n | .relPointer n => some n
  | .delGc n _ | .delTest n _ | .delLoad n | .delExchange n _ | .delStore n _ => some n
  | .delNext n | .delPointer n | .delGcPointer n => some n
  | .remClear n _ | .gcEnd n _ => some n
  | _ => none

/-- The node that a thread is about to add to the fixed list. -/
def Pc.adding : Pc L → Option ℕ
  | .addLoad n _ | .addStore n _ _ | .addCas n _ | .addFailed n _ _ => some n
  | _ => none

/-- The collector pushes the node back onto the free list. -/
def PushFor.collects : PushFor → Bool
  | .collect _ => true
  | _ => false

/-- Inside `Collect`, with `collector_client_lock`. -/
def Pc.critical : Pc L → Bool
  | .scanHead | .scanTest _ | .scanPush _ | .scanLink _ | .sort => true
  | .gcHead | .gcNext _ | .gcObj _ _ | .gcPointer _ _ _ | .gcStore _ _ _ | .gcDelete _ _ _ => true
  | .remTest _ _ _ | .remEnd _ _ _ | .remNext _ _ _ | .remExit _ _ _ | .remExpected _ _ _ => true
  | .remDesired _ _ _ _ | .remCas _ _ _ _ _ | .remClear _ _ | .gcEnd _ _ => true
  | .pushCheck _ _ f | .pushLoad _ _ f | .pushStore _ _ _ f | .pushCas _ _ f => f.collects
  | .pushFailed _ _ _ f => f.collects
  | .colClear | .colDone | .colUnlock _ => true
  | _ => false

section Own

variable (m : HazardPointerList) (n : ℕ) (b : Bool) (p : Pc L) (f : PushFor) (g : AddFor)

theorem own_check : (check b p).own = if b then p.own else none := by cases b <;> rfl
theorem adding_check : (check b p).adding = if b then p.adding else none := by cases b <;> rfl
theorem critical_check : (check b p).critical = (b && p.critical) := by cases b <;> rfl

@[simp,grind =] theorem own_primeFrom : (primeFrom n : Pc L).own = none := by cases n <;> rfl
@[simp,grind =] theorem adding_primeFrom : (primeFrom n : Pc L).adding = none := by cases n <;> rfl
@[simp,grind =] theorem critical_primeFrom : (primeFrom n : Pc L).critical = false := by cases n <;> rfl

@[simp,grind =] theorem own_scanFrom : (scanFrom m n : Pc L).own = none := by
  unfold scanFrom; split <;> rfl
@[simp,grind =] theorem adding_scanFrom : (scanFrom m n : Pc L).adding = none := by
  unfold scanFrom; split <;> rfl

@[simp,grind =] theorem own_gcFrom : (gcFrom m n : Pc L).own = none := by
  unfold gcFrom; split; rfl; split <;> rfl
@[simp,grind =] theorem adding_gcFrom : (gcFrom m n : Pc L).adding = none := by
  unfold gcFrom; split; rfl; split <;> rfl

@[simp,grind =] theorem own_pushAfter : (f.after m n : Pc L).own = none := by
  cases f with
  | release | delete => rfl
  | prime left => exact own_primeFrom left
  | collect next => exact own_gcFrom m next

@[simp,grind =] theorem adding_pushAfter : (f.after m n : Pc L).adding = none := by
  cases f with
  | release | delete => rfl
  | prime left => exact adding_primeFrom left
  | collect next => exact adding_gcFrom m next

theorem critical_pushAfter (h : (f.after m n : Pc L).critical) : f.collects := by
  cases f with
  | release | delete => cases h
  | prime left => cases (critical_primeFrom left).symm.trans h
  | collect next => rfl

theorem own_of_addAfter {m : ℕ} (h : (g.after n : Pc L).own = some m) : some n = some m := by
  cases g with
  | acquireNode => cases h
  | prime left => exact h
@[simp,grind =] theorem adding_addAfter : (g.after n : Pc L).adding = none := by cases g <;> rfl
@[simp,grind =] theorem critical_addAfter : (g.after n : Pc L).critical = false := by cases g <;> rfl

end Own

/-- The node that a thread has after a write, when it had `own` before. -/
def Write.owns (c : Conf T L) (own : Option ℕ) : Write → Option ℕ
  | .new => some c.mem.fresh
  | .pop n _ => if n = c.mem.endNode then Option.none else some n
  | .unlink _ n _ => some n
  | .push _ _ | .drop _ => Option.none
  | _ => own

/-- A compare-exchange of `push` adds to the gc list. -/
def Write.pushesGc : Write → Bool
  | .push .gcList _ => true
  | _ => false

/-- Only the holder of the lock makes these writes. -/
def Write.locked : Write → Bool
  | .unlink _ _ _ | .unlock | .hazPtr _ | .sort | .clear | .delete _ _ => true
  | _ => false

/-- Who makes which write, and goes on where; all other steps are quiet. -/
inductive Writes (c : Conf T L) : Pc L → Write → Pc L → Prop
  | quiet {p p' : Pc L} (h : p.next c = some (.none,p')) : Writes c p .none p'
  | pop {n d : ℕ} (h : c.mem.freeList = n) : Writes c (.popCas n d) (.pop n d)
      (if n = c.mem.endNode then .alloc .acquireNode else .popClear n)
  | popClear {n : ℕ} : Writes c (.popClear n) (.next n 0) .idle
  | new {f : AddFor} : Writes c (.alloc f) .new (.addLoad c.mem.fresh f)
  | addStore {n v : ℕ} {f : AddFor} : Writes c (.addStore n v f) (.fixedLink n v) (.addCas n f)
  | addFailed {n v : ℕ} {f : AddFor} : Writes c (.addFailed n v f) (.fixedLink n v) (.addLoad n f)
  | add {n : ℕ} {f : AddFor} (h : c.mem.nodes = (c.mem.node n).fixedLink) :
      Writes c (.addCas n f) (.add n) (f.after n)
  | pushStore {n v : ℕ} {head : Head} {f : PushFor} :
      Writes c (.pushStore n v head f) (.next n v) (.pushCas n head f)
  | pushFailed {n v : ℕ} {head : Head} {f : PushFor} :
      Writes c (.pushFailed n v head f) (.next n v) (.pushLoad n head f)
  | push {n : ℕ} {head : Head} {f : PushFor} (h : c.mem.head head = (c.mem.node n).next) :
      Writes c (.pushCas n head f) (.push head n) (f.after c.mem n)
  | acqStore {n v : ℕ} : Writes c (.acqStore n v) (.pointer n v) .idle
  | validate {n : ℕ} {l : L} : Writes c (.valTest n l (c.loc l)) (.validate n) .idle
  | clrStore {n : ℕ} : Writes c (.clrStore n) (.pointer n 0) .idle
  | relDrop {n : ℕ} : Writes c (.relTest n true) (.drop n) .idle
  | relStore {n : ℕ} : Writes c (.relStore n) (.pointer n 0) (.relNext n)
  | delDrop {n : ℕ} : Writes c (.delTest n true) (.drop n) .idle
  | delExchange {n v : ℕ} :
      Writes c (.delExchange n v) (.gcPointer n v) (.delStore n (c.mem.node n).gcPointer)
  | delStore {n v : ℕ} : Writes c (.delStore n v) (.pointer n v) (.delNext n)
  | lock (h : c.lock = none) : Writes c .colLock .lock .scanHead
  | scanPush {n : ℕ} : Writes c (.scanPush n) (.hazPtr (c.mem.node n).pointer) (.scanLink n)
  | sort : Writes c .sort .sort .gcHead
  | gcStore {g nx obj : ℕ} : Writes c (.gcStore g nx obj) (.gcPointer g 0) (.gcDelete g nx obj)
  | gcDelete {g nx obj : ℕ} :
      Writes c (.gcDelete g nx obj) (.delete g obj) (.remTest g nx (.head .gcList))
  | unlink {g nx d : ℕ} {r : Ref} :
      Writes c (.remCas g nx r (c.mem.deref r) d) (.unlink r g d) (.remClear g nx)
  | remClear {g nx : ℕ} : Writes c (.remClear g nx) (.next g 0) (.gcEnd g nx)
  | clear : Writes c .colClear .clear .colDone
  | unlock {b : Bool} : Writes c (.colUnlock b) .unlock .idle

section Next

variable {c : Conf T L} {p p' : Pc L} {w : Write} {n : ℕ}

theorem next_writes (h : p.next c = some (w,p')) : Writes c p w p' := by
  cases p
  case popCas n d =>
    simp only [Pc.next] at h
    split at h <;> cases h
    case isTrue hf => exact .pop hf
    case isFalse hf => exact .quiet (if_neg hf)
  case addCas n f =>
    simp only [Pc.next] at h
    split at h <;> cases h
    case isTrue hf => exact .add hf
    case isFalse hf => exact .quiet (if_neg hf)
  case pushCas n head f =>
    simp only [Pc.next] at h
    split at h <;> cases h
    case isTrue hf => exact .push hf
    case isFalse hf => exact .quiet (if_neg hf)
  case remCas g nx r e d =>
    simp only [Pc.next] at h
    split at h <;> cases h
    case isTrue hd => exact hd ▸ .unlink
    case isFalse hf => exact .quiet (if_neg hf)
  case valTest n l obj =>
    cases h
    split
    case isTrue hl => exact hl ▸ .validate
    case isFalse hl => exact .quiet (by simp [Pc.next,hl])
  case relTest n drop =>
    simp only [Pc.next] at h
    split at h <;> cases h
    case isTrue h0 =>
      cases drop
      · exact .quiet (if_pos h0)
      · exact .relDrop
    case isFalse h0 => exact .quiet (if_neg h0)
  case delTest n drop =>
    simp only [Pc.next] at h
    split at h <;> cases h
    case isTrue h0 =>
      cases drop
      · exact .quiet (if_pos h0)
      · exact .delDrop
    case isFalse h0 => exact .quiet (if_neg h0)
  case colLock =>
    simp only [Pc.next] at h
    split at h <;> cases h
    next hl => exact .lock hl
  all_goals cases h
  all_goals first | exact .quiet rfl | constructor

/-- Where a thread goes when it finds nothing to give up. -/
theorem tested_next {q : Pc L} {z : Prop} [Decidable z] {drop : Bool}
    (h : (if z then some (if drop then .drop n else .none,.idle) else some (.none,q)) =
      some (Write.none,p')) : p' = .idle ∨ p' = q := by
  split at h
  · exact .inl (Prod.mk.inj (Option.some.inj h)).2.symm
  · exact .inr (Prod.mk.inj (Option.some.inj h)).2.symm

theorem quiet_own (h : p.next c = some (.none,p')) (hn : p'.own = some n) : p.own = some n := by
  cases p
  case relTest | delTest => rcases tested_next h with rfl | rfl <;> first | exact hn | cases hn
  case scanHead | scanLink | gcHead =>
    cases h
    simp at hn
  case gcPointer g nx obj =>
    cases h
    rw [own_check] at hn
    split at hn
    · split at hn
      · simp at hn
      · cases hn
    · cases hn
  all_goals first
    | (cases h; done)
    | (cases h; exact hn)
    | (cases h; cases hn)
    | (cases h; rw [own_check] at hn; split at hn <;> first | exact hn | cases hn)
    | (cases h; split at hn <;> first | exact hn | cases hn)
    | (simp only [Pc.next] at h; split at h <;> cases h <;> first | exact hn | cases hn)

theorem quiet_adding (h : p.next c = some (.none,p')) : p'.adding = p.adding := by
  cases p
  case relTest | delTest => rcases tested_next h with rfl | rfl <;> rfl
  case scanHead | scanLink | gcHead =>
    cases h
    simp
    rfl
  case gcPointer g nx obj =>
    cases h
    rw [adding_check]
    split
    · split
      · exact adding_gcFrom _ _
      · rfl
    · rfl
  all_goals first
    | (cases h; done)
    | (cases h; rfl)
    | (cases h; rw [adding_check]; split <;> rfl)
    | (cases h; split <;> rfl)
    | (simp only [Pc.next] at h; split at h <;> cases h <;> rfl)

theorem quiet_critical (h : p.next c = some (.none,p')) (hp : p'.critical) : p.critical := by
  cases p <;> first
    | rfl
    | (cases h; done)
    | (cases h; exact hp)
    | (cases h; cases hp)
    | (cases h; rw [critical_check] at hp; exact (Bool.and_eq_true_iff.mp hp).2)
    | (cases h; split at hp <;> cases hp)
    | (rcases tested_next h with rfl | rfl <;> cases hp)
    | (simp only [Pc.next] at h; split at h <;> cases h <;> exact hp)

theorem next_own (h : p.next c = some (w,p')) (hn : p'.own = some n) :
    w.owns c p.own = some n := by
  cases next_writes h with
  | quiet h => exact quiet_own h hn
  | pop hf =>
    simp only [Write.owns]
    split at hn
    · cases hn
    next he => rwa [if_neg he]
  | add hf => exact own_of_addAfter _ _ hn
  | push hf => simp at hn
  | new | addStore | addFailed | pushStore | pushFailed | unlink | remClear => exact hn
  | relStore | delExchange | delStore => exact hn
  | _ => cases hn

/-- A node to be added is a new one. -/
theorem next_adding (h : p.next c = some (w,p')) (hn : p'.adding = some n) :
    w = .new ∧ n = c.mem.fresh ∨ p.adding = some n ∧ w ≠ .new ∧ ∀ m, w ≠ .add m := by
  cases next_writes h with
  | quiet h => exact .inr ⟨(quiet_adding h).symm.trans hn,by simp,by simp⟩
  | new => exact .inl ⟨rfl,(Option.some.inj hn).symm⟩
  | addStore | addFailed => exact .inr ⟨hn,by simp,by simp⟩
  | add hf => simp at hn
  | push hf => simp at hn
  | pop hf => split at hn <;> cases hn
  | _ => cases hn

theorem adding_next (h : p.next c = some (w,p')) (hn : p.adding = some n) :
    p'.adding = some n ∨ w = .add n := by
  cases next_writes h with
  | quiet h => exact .inl ((quiet_adding h).trans hn)
  | addStore | addFailed => exact .inl hn
  | add hf => exact .inr (Option.some.inj hn ▸ rfl)
  | _ => cases hn

theorem next_critical (h : p.next c = some (w,p')) (hp : p'.critical) :
    w = .lock ∨ p.critical ∧ w ≠ .unlock := by
  cases next_writes h with
  | quiet h => exact .inr ⟨quiet_critical h hp,by simp⟩
  | lock hl => exact .inl rfl
  | push hf => exact .inr ⟨critical_pushAfter _ _ _ hp,by simp⟩
  | pushStore | pushFailed => exact .inr ⟨hp,by simp⟩
  | pop hf => split at hp <;> cases hp
  | add hf => simp at hp
  | unlock => cases hp
  | _ => first | exact .inr ⟨rfl,by simp⟩ | cases hp

theorem next_locked (h : p.next c = some (w,p')) (hw : w.locked) : p.critical := by
  cases next_writes h with
  | scanPush | sort | gcDelete | unlink | clear | unlock => rfl
  | _ => cases hw

theorem next_new (h : p.next c = some (.new,p')) : p'.adding = some c.mem.fresh := by
  cases next_writes h with
  | new => rfl

theorem next_unlink {r : Ref} {g d : ℕ} (h : p.next c = some (.unlink r g d,p')) :
    ∃ nx, p = .remCas g nx r (c.mem.deref r) d ∧ p' = .remClear g nx := by
  cases next_writes h with
  | unlink => exact ⟨_,rfl,rfl⟩

theorem next_pop {d : ℕ} (h : p.next c = some (.pop n d,p')) : c.mem.freeList = n := by
  cases next_writes h with
  | pop hf => exact hf

theorem next_lock (h : p.next c = some (.lock,p')) : c.lock = none := by
  cases next_writes h with
  | lock hl => exact hl

end Next

/-- The traversal of `Collect` can go on at `next`. -/
def OnGc (c : Conf T L) (next : ℕ) : Prop := next = c.mem.endNode ∨ next ∈ c.gc

/-- `Collect` is at `gcNode` and has read its link. -/
structure At (c : Conf T L) (gcNode next : ℕ) : Prop where
  mem : gcNode ∈ c.gc
  next : c.mem.nextOf gcNode = next

def PushFor.pos (c : Conf T L) : PushFor → Prop
  | .collect next => OnGc c next
  | _ => True

/-- What the holder of the lock knows of the fixed list and the gc list. -/
def Pos (c : Conf T L) : Pc L → Prop
  | .scanTest p | .scanPush p | .scanLink p => p ∈ c.fixed
  | .gcNext g => g ∈ c.gc
  | .gcObj g nx | .gcPointer g nx _ | .gcStore g nx _ | .gcDelete g nx _ => At c g nx
  | .remTest g nx r => At c g nx ∧ RefOk c.gc g r
  | .remEnd g nx r | .remNext g nx r => At c g nx ∧ RefOk c.gc g r ∧ c.mem.deref r ≠ g
  | .remExit g nx r | .remExpected g nx r => At c g nx ∧ RefOk c.gc g r ∧ c.mem.deref r = g
  | .remDesired g nx r e => At c g nx ∧ RefOk c.gc g r ∧ e = g
  | .remCas g nx r e d => At c g nx ∧ RefOk c.gc g r ∧ e = g ∧ d = nx
  | .remClear _ nx | .gcEnd _ nx => OnGc c nx
  | .pushCheck _ _ f | .pushLoad _ _ f | .pushStore _ _ _ f | .pushCas _ _ f => f.pos c
  | .pushFailed _ _ _ f => f.pos c
  | .notFound => False
  | _ => True

/-- `Collect` is about to read the head of the gc list again, which it has found to be the node. -/
def Pc.rereads : Pc L → Bool
  | .remExit _ _ (.head _) | .remExpected _ _ (.head _) => true
  | _ => false

theorem own_of_adding {p : Pc L} {n : ℕ} (h : p.adding = some n) : p.own = some n := by
  cases p <;> simp_all [Pc.adding,Pc.own]

section Pos

variable {c d : Conf T L} {place : ℕ → Place T} {p p' : Pc L} {w : Write} {g nx n : ℕ} {r : Ref}

theorem Shared.deref_mem (hs : Shared c place) (hg : g ∈ c.gc) (hr : RefOk c.gc g r) :
    c.mem.deref r ∈ c.gc := by
  cases r with
  | head head =>
    obtain rfl : head = .gcList := hr
    refine hs.gcChain.head_mem fun he => ?_
    have hnil := (he ▸ hs.gcChain).eq_nil
    simp [hnil] at hg
  | next m =>
    obtain ⟨a,b,hl,hb⟩ := hr
    have hc := (hl ▸ hs.gcChain).tail
    have hne : c.mem.nextOf m ≠ c.mem.endNode := by
      intro he
      have hnil := (he ▸ hc).eq_nil
      simp [hnil] at hb
    have hm := hc.head_mem hne
    rw [hl]
    exact List.mem_append_right a (List.mem_cons_of_mem m hm)

theorem Shared.deref_before (hs : Shared c place) (hg : g ∈ c.gc) (hr : RefOk c.gc g r)
    (hd : c.mem.deref r ≠ g) : Before c.gc (c.mem.deref r) g := by
  have hne := hs.ne_endNode (hs.born_gc (hs.deref_mem hg hr))
  cases r with
  | head head =>
    obtain rfl : head = .gcList := hr
    obtain ⟨l,hl,-⟩ := hs.gcChain.eq_cons hne
    refine ⟨[],l,hl,?_⟩
    rw [hl] at hg
    exact List.mem_of_ne_of_mem (Ne.symm hd) hg
  | next m =>
    obtain ⟨a,b,hl,hb⟩ := hr
    obtain ⟨l,rfl,-⟩ := (hl ▸ hs.gcChain).tail.eq_cons hne
    refine ⟨a++[m],l,?_,List.mem_of_ne_of_mem (Ne.symm hd) hb⟩
    show c.gc = a++[m]++c.mem.nextOf m::l
    simpa using hl

theorem At.onGc (ha : At c g nx) (hs : Shared c place) : OnGc c nx :=
  ha.next ▸ hs.gcChain.next_mem ha.mem

theorem OnGc.pos_gcFrom (hs : Shared c place) (ho : OnGc c nx) : Pos c (gcFrom c.mem nx) := by
  unfold gcFrom
  by_cases he : nx = c.mem.endNode
  · simp [he,Pos]
  · have hm : nx ∈ c.gc := ho.resolve_left he
    simpa [he,hs.ne_zero (hs.born_gc hm),Pos] using hm

theorem pos_scanFrom (ho : n = c.mem.endNode ∨ n ∈ c.fixed) : Pos c (scanFrom c.mem n) := by
  unfold scanFrom
  by_cases he : n = c.mem.endNode
  · simp [he,Pos]
  · simpa [he,Pos] using ho.resolve_left he

theorem pos_primeFrom {k : ℕ} : Pos c (primeFrom k : Pc L) := by cases k <;> trivial

theorem pos_addAfter {f : AddFor} : Pos c (f.after n : Pc L) := by cases f <;> trivial

theorem pos_pushAfter {f : PushFor} (hs : Shared c place) (hf : f.pos c) :
    Pos c (f.after c.mem n : Pc L) := by
  cases f with
  | release | delete => trivial
  | prime left => exact pos_primeFrom
  | collect next => exact OnGc.pos_gcFrom hs hf

theorem pos_check {b : Bool} (hp : b → Pos c p) : Pos c (check b p) := by
  cases b with
  | false => trivial
  | true => exact hp rfl

theorem rereads_pushAfter {f : PushFor} : ¬(f.after c.mem n : Pc L).rereads := by
  cases f with
  | release | delete => simp [PushFor.after,Pc.rereads]
  | prime left => cases left <;> simp [PushFor.after,primeFrom,Pc.rereads]
  | collect next =>
    simp only [PushFor.after,gcFrom]
    split
    · simp [Pc.rereads]
    · split <;> simp [Pc.rereads]

theorem next_rereads (h : p.next c = some (w,p')) (hr : p'.rereads) : ¬w.pushesGc := by
  cases next_writes h with
  | push hf => exact absurd hr rereads_pushAfter
  | _ => simp [Write.pushesGc]

theorem pos_next (hs : Shared c place) (hp : Pos c p) (h : p.next c = some (w,p'))
    (hw : ∀ r g d, w ≠ .unlink r g d) : Pos c p' := by
  cases p
  case scanHead =>
    cases h
    refine pos_scanFrom ?_
    by_cases he : c.mem.nodes = c.mem.endNode
    · exact .inl he
    · exact .inr (hs.fixedChain.head_mem he)
  case scanTest p =>
    cases h
    split <;> exact hp
  case scanPush p =>
    cases h
    exact hp
  case scanLink p =>
    cases h
    exact pos_scanFrom (hs.fixedChain.next_mem hp)
  case gcHead =>
    cases h
    refine OnGc.pos_gcFrom hs ?_
    by_cases he : c.mem.gcList = c.mem.endNode
    · exact .inl he
    · exact .inr (hs.gcChain.head_mem he)
  case gcNext g =>
    cases h
    exact ⟨hp,rfl⟩
  case gcObj g nx =>
    cases h
    exact pos_check fun _ => hp
  case gcPointer g nx obj =>
    cases h
    refine pos_check fun _ => ?_
    split
    · exact OnGc.pos_gcFrom hs (hp.onGc hs)
    · exact hp
  case gcStore g nx obj =>
    cases h
    exact hp
  case gcDelete g nx obj =>
    cases h
    exact ⟨hp,rfl⟩
  case remTest g nx r =>
    cases h
    split
    case isTrue hd => exact ⟨hp.1,hp.2,hd⟩
    case isFalse hd => exact ⟨hp.1,hp.2,not_not.mp hd⟩
  case remEnd g nx r =>
    cases h
    rw [if_pos (hs.ne_endNode (hs.born_gc (hs.deref_mem hp.1.mem hp.2.1)))]
    exact hp
  case remNext g nx r =>
    cases h
    exact ⟨hp.1,hs.deref_before hp.1.mem hp.2.1 hp.2.2⟩
  case remExit g nx r =>
    cases h
    rw [if_neg (hs.ne_endNode (hs.born_gc (hs.deref_mem hp.1.mem hp.2.1)))]
    exact hp
  case remExpected g nx r =>
    cases h
    exact hp
  case remDesired g nx r e =>
    cases h
    exact ⟨hp.1,hp.2.1,hp.2.2,hp.2.2 ▸ hp.1.next⟩
  case remCas g nx r e d =>
    simp only [Pc.next] at h
    split at h
    · cases h
      exact absurd rfl (hw r g d)
    · cases h
      exact ⟨hp.1,rfl⟩
  case pushCas n head f =>
    simp only [Pc.next] at h
    split at h <;> cases h
    · exact pos_pushAfter hs hp
    · exact hp
  case notFound => cases h
  all_goals first
    | (cases h; trivial)
    | (cases h; exact pos_check fun _ => trivial)
    | (cases h; exact pos_check fun _ => hp)
    | (simp only [Pc.next] at h; grind [Pos,PushFor.pos,pos_addAfter])

end Pos

/-- What threads without the lock do to the lists that its holder is working on. -/
structure Grows (c d : Conf T L) : Prop where
  gc : ∃ a, d.gc = a++c.gc
  fixed : ∀ n ∈ c.fixed, n ∈ d.fixed
  next : ∀ g ∈ c.gc, d.mem.nextOf g = c.mem.nextOf g
  endNode : d.mem.endNode = c.mem.endNode
  head : d.mem.gcList = c.mem.gcList ∨ d.mem.gcList ∉ c.gc

section Grows

variable {c d : Conf T L} {p : Pc L} {g nx : ℕ} {r : Ref}

theorem Grows.onGc (hd : Grows c d) (ho : OnGc c nx) : OnGc d nx := by
  obtain ⟨a,ha⟩ := hd.gc
  rw [OnGc,hd.endNode,ha]
  exact ho.imp_right (List.mem_append_right a)

theorem Grows.at (hd : Grows c d) (ha : At c g nx) : At d g nx := by
  obtain ⟨a,hgc⟩ := hd.gc
  exact ⟨hgc ▸ List.mem_append_right a ha.mem,(hd.next g ha.mem).trans ha.next⟩

theorem Grows.refOk (hd : Grows c d) (hr : RefOk c.gc g r) : RefOk d.gc g r := by
  obtain ⟨a,ha⟩ := hd.gc
  cases r with
  | head head => exact hr
  | next m =>
    obtain ⟨b,e,hl,he⟩ := hr
    exact ⟨a++b,e,by simp [ha,hl],he⟩

theorem RefOk.mem {l : List ℕ} {m : ℕ} (hr : RefOk l g (.next m)) : m ∈ l := by
  obtain ⟨a,b,rfl,-⟩ := hr
  simp

theorem Grows.deref_ne (hd : Grows c d) (hg : g ∈ c.gc) (hr : RefOk c.gc g r)
    (hne : c.mem.deref r ≠ g) : d.mem.deref r ≠ g := by
  cases r with
  | head head =>
    obtain rfl : head = .gcList := hr
    rcases hd.head with he | he
    · exact he.trans_ne hne
    · rintro rfl
      exact he hg
  | next m => exact (hd.next m hr.mem).trans_ne hne

theorem Grows.deref_eq (hd : Grows c d) (hr : RefOk c.gc g r)
    (hh : ∀ head, r = .head head → d.mem.gcList = c.mem.gcList) (he : c.mem.deref r = g) :
    d.mem.deref r = g := by
  cases r with
  | head head =>
    obtain rfl : head = .gcList := hr
    exact (hh _ rfl).trans he
  | next m => exact (hd.next m hr.mem).trans he

/-- A push onto the gc list is the one write that a traversal must not meet: where `remove` reads
the head again. -/
theorem Pos.grow (hp : Pos c p) (hd : Grows c d)
    (hh : p.rereads → d.mem.gcList = c.mem.gcList) : Pos d p := by
  cases p with
  | scanTest n | scanPush n | scanLink n => exact hd.fixed n hp
  | gcNext g =>
    obtain ⟨a,ha⟩ := hd.gc
    show g ∈ d.gc
    exact ha ▸ List.mem_append_right a hp
  | gcObj g nx | gcPointer g nx | gcStore g nx | gcDelete g nx => exact hd.at hp
  | remTest g nx r => exact ⟨hd.at hp.1,hd.refOk hp.2⟩
  | remEnd g nx r | remNext g nx r =>
    exact ⟨hd.at hp.1,hd.refOk hp.2.1,hd.deref_ne hp.1.mem hp.2.1 hp.2.2⟩
  | remExit g nx r | remExpected g nx r =>
    refine ⟨hd.at hp.1,hd.refOk hp.2.1,hd.deref_eq hp.2.1 ?_ hp.2.2⟩
    rintro head rfl
    exact hh rfl
  | remDesired g nx r e | remCas g nx r e => exact ⟨hd.at hp.1,hd.refOk hp.2.1,hp.2.2⟩
  | remClear g nx | gcEnd g nx => exact hd.onGc hp
  | pushCheck n head f | pushLoad n head f | pushStore n top head f | pushCas n head f
  | pushFailed n top head f =>
    cases f with
    | collect nx => exact hd.onGc hp
    | release | delete | prime left => trivial
  | notFound => cases hp
  | _ => trivial

theorem Pos.same (hp : Pos c p) (hm : d.mem = c.mem) (hg : d.gc = c.gc) (hf : d.fixed = c.fixed) :
    Pos d p := by
  refine hp.grow ⟨⟨[],hg⟩,fun n hn => hf ▸ hn,fun g _ => by rw [hm],by rw [hm],.inl ?_⟩ fun _ => ?_
  all_goals rw [hm]

theorem pos_of_not_critical (hp : Pos c p) (hc : ¬p.critical) : Pos d p := by
  cases p with
  | pushCheck n head f | pushLoad n head f | pushStore n top head f | pushCas n head f
  | pushFailed n top head f =>
    cases f with
    | collect nx => exact absurd rfl hc
    | release | delete | prime left => trivial
  | notFound => cases hp
  | _ => trivial

end Grows

/-- The link that `pop` has read, and makes the head, is still one of the free list behind the node
that it pops. -/
def Write.popOk (c : Conf T L) : Write → Bool
  | .pop _ desired => desired = c.mem.endNode ∨ desired ∈ c.free.tail
  | _ => true

section Write

variable {c : Conf T L} {place : ℕ → Place T} {t u : T} {p p' : Pc L} {w : Write} {n : ℕ}

theorem update_born {k : Place T} {m : ℕ} (hm : place m ≠ .unborn)
    (hn : Function.update place m k n ≠ .unborn) : place n ≠ .unborn := by
  by_cases h : n = m
  · exact h ▸ hm
  · rwa [Function.update_of_ne h] at hn

theorem next_ok (hown : ∀ n, p.own = some n → n ∈ c.held t)
    (hadd : ∀ n, p.adding = some n → n ∉ c.fixed) (hp : Pos c p) (h : p.next c = some (w,p'))
    (hpop : w.popOk c) : w.Ok c t := by
  cases next_writes h with
  | pop hf => exact ⟨hf,of_decide_eq_true hpop⟩
  | add hf => exact ⟨hown _ rfl,hadd _ rfl,hf⟩
  | addStore | addFailed => exact ⟨hown _ rfl,hadd _ rfl⟩
  | push hf => exact ⟨hown _ rfl,hf⟩
  | popClear | pushStore | pushFailed | remClear | relDrop | delDrop => exact hown _ rfl
  | unlink => exact ⟨hp.1.mem,hp.1.next.trans hp.2.2.2.symm,hp.2.1,hp.2.2.1⟩
  | _ => trivial

theorem Shared.born_write (hs : Shared c place) (hw : w.Ok c t)
    (hn : w.place c t place n ≠ .unborn) : place n ≠ .unborn ∨ w = .new ∧ n = c.mem.fresh := by
  cases w with
  | new =>
    by_cases h : n = c.mem.fresh
    · exact .inr ⟨rfl,h⟩
    · exact .inl (by simpa [Write.place,h] using hn)
  | push head m => cases head <;> exact .inl (update_born (hs.born_held hw.1) hn)
  | unlink r m d => exact .inl (update_born (hs.born_gc hw.1) hn)
  | drop m => exact .inl (update_born (hs.born_held hw) hn)
  | pop m v =>
    left
    by_cases hf : n ∈ c.free
    · simp [(hs.freePlace n).mp hf]
    · simp only [Write.place] at hn
      split at hn
      · exact hn
      case isFalse he =>
        have hm : n ≠ m := by
          rintro rfl
          exact hf (hw.1 ▸ hs.freeChain.head_mem (hw.1 ▸ he))
        simpa [hm,hf] using hn
  | _ => exact .inl hn

variable [DecidableEq T]

theorem Shared.grows (hs : Shared c place) (hw : w.Ok c t) (hu : ∀ r g d, w ≠ .unlink r g d) :
    Grows c (c.write t w) := by
  cases w with
  | pointer m v =>
    have hn := congrFun (setPointer_nextOf c.mem m v)
    exact ⟨⟨[],rfl⟩,fun _ h => h,fun g _ => hn g,rfl,.inl rfl⟩
  | gcPointer m v =>
    have hn := congrFun (setGcPointer_nextOf c.mem m v)
    exact ⟨⟨[],rfl⟩,fun _ h => h,fun g _ => hn g,rfl,.inl rfl⟩
  | fixedLink m v =>
    have hn := congrFun (setFixedLink_nextOf c.mem m v)
    exact ⟨⟨[],rfl⟩,fun _ h => h,fun g _ => hn g,rfl,.inl rfl⟩
  | next m v =>
    refine ⟨⟨[],rfl⟩,fun _ h => h,fun g hg => ?_,rfl,.inl rfl⟩
    refine (congrFun (setNext_nextOf c.mem m v) g).trans (Function.update_of_ne ?_ _ _)
    rintro rfl
    exact hs.held_gc hw hg
  | new =>
    refine ⟨⟨[],rfl⟩,fun _ h => h,fun g hg => ?_,rfl,.inl rfl⟩
    refine (congrFun (new_nextOf c.mem) g).trans (Function.update_of_ne ?_ _ _)
    rintro rfl
    exact hs.born_gc hg hs.fresh_unborn
  | add m => exact ⟨⟨[],rfl⟩,fun _ h => List.mem_cons_of_mem m h,fun _ _ => rfl,rfl,.inl rfl⟩
  | push head m =>
    cases head with
    | gcList => exact ⟨⟨[m],rfl⟩,fun _ h => h,fun _ _ => rfl,rfl,.inr (hs.held_gc hw.1)⟩
    | freeList => exact ⟨⟨[],rfl⟩,fun _ h => h,fun _ _ => rfl,rfl,.inl rfl⟩
  | pop m v =>
    simp only [Conf.write]
    split <;> exact ⟨⟨[],rfl⟩,fun _ h => h,fun _ _ => rfl,rfl,.inl rfl⟩
  | unlink r g d => exact absurd rfl (hu r g d)
  | _ => exact ⟨⟨[],rfl⟩,fun _ h => h,fun _ _ => rfl,rfl,.inl rfl⟩

theorem gcList_write (hp : ¬w.pushesGc) (hu : ∀ r g d, w ≠ .unlink r g d) :
    (c.write t w).mem.gcList = c.mem.gcList := by
  cases w with
  | push head m =>
    cases head with
    | gcList => exact absurd rfl hp
    | freeList => rfl
  | pop m v =>
    simp only [Conf.write]
    split <;> rfl
  | unlink r g d => exact absurd rfl (hu r g d)
  | _ => rfl

theorem mem_fixed_write : n ∈ (c.write t w).fixed ↔ w = .add n ∨ n ∈ c.fixed := by
  cases w with
  | add m => simp [Conf.write,eq_comm]
  | push head m => cases head <;> simp [Conf.write,Conf.give]
  | pop m v =>
    simp only [Conf.write]
    split <;> simp [Conf.take]
  | _ => simp [Conf.write,Conf.give,Conf.take]

theorem lock_write : (c.write t w).lock = c.lock ∨ w = .lock ∨ w = .unlock := by
  cases w with
  | push head m => cases head <;> exact .inl rfl
  | pop m v =>
    simp only [Conf.write]
    split <;> exact .inl rfl
  | lock => exact .inr (.inl rfl)
  | unlock => exact .inr (.inr rfl)
  | _ => exact .inl rfl

@[simp] theorem pc_write : (c.write t w).pc = c.pc := by
  cases w with
  | push head m => cases head <;> rfl
  | pop m v =>
    simp only [Conf.write]
    split <;> rfl
  | _ => rfl

theorem held_write_of_ne (hu : u ≠ t) : (c.write t w).held u = c.held u := by
  cases w with
  | push head m => cases head <;> exact Function.update_of_ne hu _ _
  | pop m v =>
    simp only [Conf.write]
    split
    · rfl
    · exact Function.update_of_ne hu _ _
  | new | unlink _ _ _ | drop _ => exact Function.update_of_ne hu _ _
  | _ => rfl

theorem owns_held {o : Option ℕ} (ho : ∀ n, o = some n → n ∈ c.held t)
    (hn : w.owns c o = some n) : n ∈ (c.write t w).held t := by
  cases w with
  | new | unlink _ _ _ =>
    cases hn
    simp [Conf.write,Conf.take]
  | pop m v =>
    simp only [Write.owns] at hn
    split at hn <;> cases hn
    simp [Conf.write,Conf.take, *]
  | push head m | drop m => cases hn
  | _ => exact ho n hn

end Write

end SharedList
end Benedias
