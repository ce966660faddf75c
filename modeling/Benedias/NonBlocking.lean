import Benedias.SharedListIntegrity

/-! The lists are non blocking: outside `Collect` a thread never waits for another one, and it
repeats a compare-exchange only because another thread's has succeeded. What a thread has still to
do, and whether the head it has read is out of date, pay for its steps. -/
namespace Benedias
namespace SharedList

open Interleaving HazardPointerList

variable {T L : Type}

/-- In `Collect`, which takes `collector_client_lock`. -/
def Pc.collecting : Pc L → Bool
  | .colTest | .colLock => true
  | p => p.critical

/-! The number of steps to the return, if no compare-exchange fails. -/

def AddFor.work : AddFor → ℕ
  | .acquireNode => 0
  | .prime left => 4+8*left

def PushFor.work : PushFor → ℕ
  | .release | .collect _ => 0
  | .delete => 1
  | .prime left => 8*left

def Pc.work : Pc L → ℕ
  | .popLoad => 7 | .popNext _ => 6 | .popCas _ _ => 5 | .popClear _ => 1
  | .alloc f | .addFailed _ _ f => 4+f.work
  | .addLoad _ f => 3+f.work | .addStore _ _ f => 2+f.work | .addCas _ f => 1+f.work
  | .pushCheck _ _ f | .pushFailed _ _ _ f => 4+f.work
  | .pushLoad _ _ f => 3+f.work | .pushStore _ _ _ f => 2+f.work | .pushCas _ _ f => 1+f.work
  | .acqNext _ _ => 5 | .acqGc _ _ => 4 | .acqTest _ _ => 3 | .acqLoad _ _ => 2 | .acqStore _ _ => 1
  | .valLoad _ _ => 2 | .valTest _ _ _ => 1 | .clrGc _ => 2 | .clrStore _ => 1
  | .relGc _ _ => 9 | .relTest _ _ => 8 | .relStore _ => 7 | .relNext _ => 6 | .relPointer _ => 5
  | .delGc _ _ => 13 | .delTest _ _ => 12 | .delLoad _ => 11 | .delExchange _ _ => 10
  | .delStore _ _ => 9 | .delNext _ => 8 | .delPointer _ => 7 | .delGcPointer _ => 6 | .delLast _ => 1
  | _ => 0

/-- The step is a compare-exchange that fails. -/
def Pc.retry (c : Conf T L) : Pc L → ℕ
  | .popCas node _ => if c.mem.freeList = node then 0 else 1
  | .addCas node _ => if c.mem.nodes = (c.mem.node node).fixedLink then 0 else 1
  | .pushCas node head _ => if c.mem.head head = (c.mem.node node).next then 0 else 1
  | _ => 0

/-- The thread has read a head that has changed since. -/
def Pc.stale (c : Conf T L) : Pc L → ℕ
  | .popNext node | .popCas node _ => if c.mem.freeList = node then 0 else 1
  | .addStore _ nodes _ => if c.mem.nodes = nodes then 0 else 1
  | .addCas node _ => if c.mem.nodes = (c.mem.node node).fixedLink then 0 else 1
  | .pushStore _ top head _ => if c.mem.head head = top then 0 else 1
  | .pushCas node head _ => if c.mem.head head = (c.mem.node node).next then 0 else 1
  | _ => 0

/-- A compare-exchange that succeeds. -/
def Write.updates : Write → ℕ
  | .add _ | .push _ _ | .pop _ _ | .unlink _ _ _ => 1
  | _ => 0

section Own

variable {c : Conf T L} {p q : Pc L} {w : Write}

theorem work_check (b : Bool) : (check b q).work ≤ q.work := by cases b <;> simp [check,Pc.work]

theorem collecting_check (b : Bool) (h : q.collecting = false) : (check b q).collecting = false := by
  cases b
  · rfl
  · exact h

theorem primeFrom_work (left : ℕ) : (primeFrom left : Pc L).work = 8*left ∧
    (primeFrom left : Pc L).collecting = false := by
  cases left with
  | zero => exact ⟨rfl,rfl⟩
  | succ left => exact ⟨by simp only [primeFrom,Pc.work,AddFor.work]; omega,rfl⟩

theorem addAfter_work (n : ℕ) (f : AddFor) : (f.after n : Pc L).work ≤ f.work ∧
    (f.after n : Pc L).collecting = false := by
  cases f with
  | acquireNode => exact ⟨le_rfl,rfl⟩
  | prime left => exact ⟨le_rfl,rfl⟩

theorem pushAfter_work (m : HazardPointerList) (n : ℕ) {f : PushFor} (hf : f.collects = false) :
    (f.after m n : Pc L).work ≤ f.work ∧ (f.after m n : Pc L).collecting = false := by
  cases f with
  | release => exact ⟨le_rfl,rfl⟩
  | delete => exact ⟨le_rfl,rfl⟩
  | prime left => exact ⟨(primeFrom_work left).1.le,(primeFrom_work left).2⟩
  | collect next => cases hf

/-- A step of a thread outside `Collect` brings it nearer to its return, or is a failed
compare-exchange, which sends it back to its load. -/
theorem next_work (h : p.next c = some (w,q)) (hp : p.collecting = false) :
    q.work + 1 ≤ p.work + 4*p.retry c ∧ q.collecting = false := by
  cases p
  case popCas n d =>
    simp only [Pc.next] at h
    split at h <;> cases h
    case isTrue hf => split <;> exact ⟨by simp only [Pc.work,AddFor.work]; omega,rfl⟩
    case isFalse hf => exact ⟨by simp [Pc.work,Pc.retry,hf],rfl⟩
  case addCas n f =>
    simp only [Pc.next] at h
    split at h <;> cases h
    case isTrue hf =>
      have hn := addAfter_work (L:=L) n f
      have hw : (Pc.addCas n f : Pc L).work = 1+f.work := rfl
      exact ⟨by omega,hn.2⟩
    case isFalse hf => exact ⟨by simp only [Pc.work,Pc.retry,hf,if_false]; omega,rfl⟩
  case pushCas n head f =>
    simp only [Pc.next] at h
    split at h <;> cases h
    case isTrue hf =>
      have hn := pushAfter_work (L:=L) c.mem n (f:=f) hp
      have hw : (Pc.pushCas n head f : Pc L).work = 1+f.work := rfl
      exact ⟨by omega,hn.2⟩
    case isFalse hf => exact ⟨by simp only [Pc.work,Pc.retry,hf,if_false]; omega,hp⟩
  case relTest | delTest =>
    simp only [Pc.next] at h
    split at h <;> cases h <;> exact ⟨by simp only [Pc.work]; omega,rfl⟩
  case acqTest n l =>
    cases h
    split <;> exact ⟨by simp only [Pc.work]; omega,rfl⟩
  case pushCheck n head f =>
    cases h
    refine ⟨(Nat.succ_le_succ (work_check _)).trans ?_,collecting_check _ hp⟩
    simp only [Pc.work,Pc.retry]; omega
  case acqNext | acqGc | clrGc | relGc | relNext | relPointer | delGc | delNext | delPointer
      | delGcPointer | delLast =>
    cases h
    exact ⟨(Nat.succ_le_succ (work_check _)).trans (by simp [Pc.work,PushFor.work]),
      collecting_check _ rfl⟩
  all_goals first
    | (cases h; done)
    | (cases hp; done)
    | (cases h; exact ⟨by simp only [Pc.work,Pc.retry]; omega,hp⟩)

theorem stale_check {c' : Conf T L} (b : Bool) : (check b q).stale c' ≤ q.stale c' := by
  cases b <;> simp [check,Pc.stale]

theorem primeFrom_stale {c' : Conf T L} (left : ℕ) : (primeFrom left : Pc L).stale c' = 0 := by
  cases left <;> rfl

theorem scanFrom_stale {c' : Conf T L} (m : HazardPointerList) (n : ℕ) :
    (scanFrom m n : Pc L).stale c' = 0 := by
  simp only [scanFrom]; split <;> rfl

theorem gcFrom_stale {c' : Conf T L} (m : HazardPointerList) (n : ℕ) :
    (gcFrom m n : Pc L).stale c' = 0 := by
  simp only [gcFrom]
  split
  · rfl
  · split <;> rfl

theorem addAfter_stale {c' : Conf T L} (n : ℕ) (f : AddFor) : (f.after n : Pc L).stale c' = 0 := by
  cases f <;> rfl

theorem pushAfter_stale {c' : Conf T L} (m : HazardPointerList) (n : ℕ) (f : PushFor) :
    (f.after m n : Pc L).stale c' = 0 := by
  cases f with
  | release | delete => rfl
  | prime left => exact primeFrom_stale left
  | collect next => exact gcFrom_stale m next

/-- The failed compare-exchange is paid for by the head that was out of date. -/
theorem next_stale [DecidableEq T] {t : T} (h : p.next c = some (w,q)) :
    q.stale (c.write t w) + p.retry c ≤ p.stale c := by
  cases p
  case popLoad => cases h; simp [Pc.stale,Pc.retry,Conf.write]
  case popNext n => cases h; exact Nat.le_refl _
  case popCas n d =>
    simp only [Pc.next] at h
    split at h <;> cases h
    case isTrue hf => split <;> simp [Pc.stale,Pc.retry,hf]
    case isFalse hf => simp [Pc.stale,Pc.retry,hf]
  case addLoad n f => cases h; simp [Pc.stale,Pc.retry,Conf.write]
  case addStore n v f => cases h; simp [Pc.stale,Pc.retry,Conf.write,setFixedLink,setNode]
  case addCas n f =>
    simp only [Pc.next] at h
    split at h <;> cases h
    case isTrue hf => rw [addAfter_stale]; simp [Pc.retry,hf]
    case isFalse hf => simp [Pc.stale,Pc.retry,hf]
  case pushLoad n head f => cases h; simp [Pc.stale,Pc.retry,Conf.write]
  case pushStore n v head f =>
    cases h
    have hn : ((c.write t (.next n v)).mem.node n).next = v := by
      simp [Conf.write,setNext,setNode]
    have hh : (c.write t (.next n v)).mem.head head = c.mem.head head := by cases head <;> rfl
    simp only [Pc.stale,Pc.retry,hn,hh]
    exact Nat.le_refl _
  case pushCas n head f =>
    simp only [Pc.next] at h
    split at h <;> cases h
    case isTrue hf => rw [pushAfter_stale]; simp [Pc.retry,hf]
    case isFalse hf => simp [Pc.stale,Pc.retry,hf]
  case relTest | delTest =>
    simp only [Pc.next] at h
    split at h <;> cases h <;> exact Nat.le_refl _
  case acqTest n l => cases h; split <;> exact Nat.le_refl _
  case scanHead => cases h; exact (scanFrom_stale _ _).le
  case scanLink n => cases h; exact (scanFrom_stale _ _).le
  case gcHead => cases h; exact (gcFrom_stale _ _).le
  case gcPointer g nx obj =>
    cases h
    refine (stale_check _).trans ?_
    split
    · exact (gcFrom_stale _ _).le
    · exact Nat.le_refl _
  case remCas =>
    simp only [Pc.next] at h
    split at h <;> cases h <;> exact Nat.le_refl _
  case colLock =>
    simp only [Pc.next] at h
    split at h <;> cases h
    exact Nat.le_refl _
  all_goals first
    | (cases h; done)
    | (cases h; exact Nat.le_refl _)
    | (cases h; exact stale_check _)
    | (cases h; split <;> exact Nat.le_refl _)

end Own

section Others

variable {c : Conf T L} {place : ℕ → Place T} {t u : T} {p q : Pc L} {w : Write} {n : ℕ}

/-- Only a compare-exchange that succeeds changes a head. -/
theorem write_head [DecidableEq T] (hw : w.updates = 0) :
    (c.write u w).mem.nodes = c.mem.nodes ∧ ∀ head, (c.write u w).mem.head head = c.mem.head head := by
  cases w with
  | add _ | push _ _ | pop _ _ | unlink _ _ _ => cases hw
  | _ => exact ⟨rfl,fun head => by cases head <;> rfl⟩

/-- Nobody else writes to the links of the nodes that a thread holds, unless by a compare-exchange
that succeeds. -/
theorem write_links [DecidableEq T] (hs : Shared c place) (hok : w.Ok c u) (hw : w.updates = 0)
    (hn : n ∈ c.held t) (hut : u ≠ t) :
    ((c.write u w).mem.node n).next = (c.mem.node n).next ∧
      ((c.write u w).mem.node n).fixedLink = (c.mem.node n).fixedLink := by
  have other {m : ℕ} (hm : m ∈ c.held u) : n ≠ m := by
    rintro rfl
    exact hut (hs.held_unique hm hn)
  have node {m : ℕ} (v : HazardPointerNode) (h : n = m → v.next = (c.mem.node m).next ∧
      v.fixedLink = (c.mem.node m).fixedLink) :
      (Function.update c.mem.node m v n).next = (c.mem.node n).next ∧
        (Function.update c.mem.node m v n).fixedLink = (c.mem.node n).fixedLink := by
    by_cases hnm : n = m
    · subst hnm
      rw [Function.update_self]
      exact h rfl
    · rw [Function.update_of_ne hnm]
      exact ⟨rfl,rfl⟩
  cases w with
  | pointer m v => exact node _ fun _ => ⟨rfl,rfl⟩
  | gcPointer m v => exact node _ fun _ => ⟨rfl,rfl⟩
  | fixedLink m v => exact node _ fun h => absurd h (other hok.1)
  | next m v => exact node _ fun h => absurd h (other hok)
  | new =>
    refine node _ fun h => ?_
    subst h
    exact absurd hs.fresh_unborn (hs.born_held hn)
  | none | lock | unlock | hazPtr _ | sort | clear | delete _ _ | drop _ | validate _ =>
    exact ⟨rfl,rfl⟩
  | add _ | push _ _ | pop _ _ | unlink _ _ _ => cases hw

theorem stale_le_one : p.stale c ≤ 1 := by
  cases p <;> simp only [Pc.stale] <;> first | omega | (split <;> omega)

/-- The head that a thread has read gets out of date only by another thread's compare-exchange. -/
theorem stale_other [DecidableEq T] (hi : Inv c place) (h : (c.pc u).next c = some (w,q))
    (hw : w.popOk c) (hut : u ≠ t) : (c.pc t).stale (c.write u w) ≤ (c.pc t).stale c + w.updates := by
  by_cases hup : w.updates = 0
  · obtain ⟨hnodes,hhead⟩ := write_head (c:=c) (u:=u) hup
    have hfree : (c.write u w).mem.freeList = c.mem.freeList := hhead .freeList
    have hlinks {n : ℕ} (hn : (c.pc t).own = some n) :=
      write_links hi.shared (hi.ok h hw) hup (hi.own t n hn) hut
    refine Nat.le_add_right_of_le (le_of_eq ?_)
    cases hp : c.pc t with
    | popNext n | popCas n d => simp only [Pc.stale,hfree]
    | addStore n v f => simp only [Pc.stale,hnodes]
    | addCas n f => simp only [Pc.stale,hnodes,(hlinks (by rw [hp]; rfl)).2]
    | pushStore n v head f => simp only [Pc.stale,hhead]
    | pushCas n head f => simp only [Pc.stale,hhead,(hlinks (by rw [hp]; rfl)).1]
    | _ => rfl
  · have h1 := stale_le_one (c:=c.write u w) (p:=c.pc t)
    omega

end Others

/-! Along a run. -/

section Run

variable [DecidableEq T] [DecidableEq L]

/-- The steps that thread `t` takes. -/
def stepsOf (t : T) (_ : Conf T L) : Label T L → ℕ
  | .step u => if u = t then 1 else 0
  | _ => 0

/-- What the calls of thread `t` bring in: the steps of a call that nothing gets in the way of. -/
def callWork (t : T) (_ : Conf T L) : Label T L → ℕ
  | .acquireNode u => if u = t then 7 else 0
  | .prime u nodeCount => if u = t then 8*nodeCount else 0
  | .acquire u _ _ => if u = t then 5 else 0
  | .validate u _ _ => if u = t then 2 else 0
  | .clear u _ => if u = t then 2 else 0
  | .release u _ _ => if u = t then 9 else 0
  | .delete u _ _ => if u = t then 13 else 0
  | _ => 0

/-- The compare-exchanges of other threads that succeed. -/
def updatesBesides (t : T) (c : Conf T L) : Label T L → ℕ
  | .step u => if u = t then 0 else (c.writeOf (.step u)).updates
  | _ => 0

/-- What a thread has left to do, and 4 more steps if the head it has read is out of date. -/
def potential (t : T) (c : Conf T L) : ℕ := (c.pc t).work + 4*(c.pc t).stale c

omit [DecidableEq T] [DecidableEq L] in
theorem stale_congr {c c' : Conf T L} (h : c'.mem = c.mem) (p : Pc L) : p.stale c' = p.stale c := by
  cases p <;> simp only [Pc.stale,h]

omit [DecidableEq L] in
/-- A call. -/
theorem entry_step {c c' : Conf T L} {t u : T} {p : Pc L} {k : ℕ} (hmem : c'.mem = c.mem)
    (hpc : c'.pc = Function.update c.pc u p) (hk : p.work = k)
    (hs : ∀ c : Conf T L, p.stale c = 0) (hc : p.collecting = false)
    (ht : (c.pc t).collecting = false) :
    (c'.pc t).collecting = false ∧
      potential t c' ≤ potential t c + (if u = t then k else 0) := by
  by_cases hut : u = t
  · subst hut
    simp only [hpc,Function.update_self,potential,hk,hs,if_true]
    exact ⟨hc,by omega⟩
  · have hp : c'.pc t = c.pc t := by rw [hpc,Function.update_of_ne (Ne.symm hut)]
    simp only [potential,hp,stale_congr hmem,hut,if_false]
    exact ⟨ht,Nat.le_refl _⟩

theorem call_step {c d c' : Conf T L} {t u : T} {n k : ℕ} {p : Pc L} (h : d.call u n p = some c')
    (hmem : d.mem = c.mem) (hpc : d.pc = c.pc) (hk : p.work = k)
    (hs : ∀ c : Conf T L, p.stale c = 0) (hc : p.collecting = false)
    (ht : (c.pc t).collecting = false) :
    (c'.pc t).collecting = false ∧ potential t c' ≤ potential t c + (if u = t then k else 0) := by
  simp only [Conf.call] at h
  split at h <;> cases h
  exact entry_step hmem (by rw [← hpc]; rfl) hk hs hc ht

theorem step_potential {c c' : Conf T L} {place : ℕ → Place T} {t : T} {a : Label T L}
    (hi : Inv c place) (ht : (c.pc t).collecting = false) (ha : a ≠ .collect t)
    (hw : PopCurrent c a) (h : fire c a = some c') :
    (c'.pc t).collecting = false ∧ potential t c' + stepsOf t c a ≤
      potential t c + (callWork t c a + 4*updatesBesides t c a) := by
  cases a with
  | step u =>
    simp only [fire,Option.map_eq_some_iff] at h
    obtain ⟨⟨w,q⟩,hn,rfl⟩ := h
    simp only [PopCurrent,Conf.writeOf,hn] at hw
    have hmem : ((c.write u w).setPc u q).mem = (c.write u w).mem := rfl
    have hpc : ((c.write u w).setPc u q).pc = Function.update c.pc u q := by
      simp only [Conf.setPc,pc_write]
    simp only [potential,stale_congr hmem,hpc,stepsOf,callWork,updatesBesides,Conf.writeOf,hn]
    by_cases hut : u = t
    · subst hut
      simp only [Function.update_self,if_true]
      obtain ⟨h1,h2⟩ := next_work hn ht
      have h3 := next_stale (t:=u) hn
      exact ⟨h2,by omega⟩
    · simp only [Function.update_of_ne (Ne.symm hut),hut,if_false]
      have h1 := stale_other hi hn hw hut
      exact ⟨ht,by omega⟩
  | store l obj =>
    cases h
    exact ⟨ht,Nat.le_refl _⟩
  | acquireNode u =>
    simp only [fire] at h
    split at h <;> cases h
    exact entry_step rfl rfl rfl (fun _ => rfl) rfl ht
  | prime u k =>
    simp only [fire] at h
    split at h <;> cases h
    exact entry_step rfl rfl (primeFrom_work k).1 (fun _ => primeFrom_stale k)
      (primeFrom_work k).2 ht
  | collect u =>
    simp only [fire] at h
    split at h <;> cases h
    have hut : u ≠ t := by rintro rfl; exact ha rfl
    have hp : ((c.setPc u .colTest).pc t) = c.pc t := Function.update_of_ne (Ne.symm hut) _ _
    simp only [potential,hp,stepsOf,callWork,updatesBesides]
    exact ⟨ht,Nat.le_refl _⟩
  | acquire u n l => exact call_step h rfl rfl rfl (fun _ => rfl) rfl ht
  | validate u n l => exact call_step h rfl rfl rfl (fun _ => rfl) rfl ht
  | clear u n => exact call_step h rfl rfl rfl (fun _ => rfl) rfl ht
  | release u n drop => exact call_step h rfl rfl rfl (fun _ => rfl) rfl ht
  | delete u n drop => exact call_step h rfl rfl rfl (fun _ => rfl) rfl ht

omit [DecidableEq T] [DecidableEq L] in
/-- Outside `Collect` a thread that is in a call can go on, unless an assertion has failed. -/
theorem next_isSome {c : Conf T L} {p : Pc L} (hp : p.collecting = false) :
    p = .idle ∨ p = .failed ∨ p = .notFound ∨ (p.next c).isSome := by
  cases p with
  | idle => exact .inl rfl
  | failed => exact .inr (.inl rfl)
  | notFound => exact .inr (.inr (.inl rfl))
  | colLock => cases hp
  | popCas _ _ | addCas _ _ | pushCas _ _ _ | relTest _ _ | delTest _ _ | remCas _ _ _ _ _ =>
    refine .inr (.inr (.inr ?_))
    simp only [Pc.next]
    split <;> rfl
  | _ => exact .inr (.inr (.inr rfl))

/-- A thread outside `Collect` is never blocked, and is delayed only by what others get done: it
takes at most the steps of its calls, and four more for each compare-exchange of another thread
that succeeds. -/
theorem non_blocking [Fintype T] {c c' : Conf T L} {as : List (Label T L)} {t : T}
    (hr : (system T L).ReachableVia Undisturbed c) (ht : c.pc t = .idle) (ha : .collect t ∉ as)
    (h : (system T L).execVia Undisturbed c as = some c') :
    (c'.pc t).work + (system T L).tally (stepsOf t) c as ≤
      (system T L).tally (callWork t) c as + 4*(system T L).tally (updatesBesides t) c as ∧
    (c'.pc t ≠ .idle → c'.pc t ≠ .failed → ((system T L).fire c' (.step t)).isSome) := by
  have hb := hr.budget (I:=fun c => (c.pc t).collecting = false) (f:=potential t)
    (i:=fun c a => callWork t c a + 4*updatesBesides t c a) (o:=stepsOf t) (fun _ _ h => h)
    (by rw [ht]; rfl)
    (fun s a ha' s' hs hi hp hf => by
      obtain ⟨place,hinv⟩ := reachable_inv hs
      exact step_potential hinv hi (fun he => ha (he ▸ ha')) hp.2 hf) h
  obtain ⟨hcol,hle⟩ := hb
  rw [System.tally_add,System.tally_mul] at hle
  refine ⟨?_,fun hidle hfail => ?_⟩
  · simp only [potential,ht] at hle
    have hw : (Pc.idle : Pc L).work = 0 := rfl
    have hs : (Pc.idle : Pc L).stale c = 0 := rfl
    omega
  · obtain ⟨place,hi⟩ := reachable_inv (hr.execVia h)
    have hfound : c'.pc t ≠ .notFound := fun hn => by
      have hp := hi.pos t
      rw [hn] at hp
      exact hp
    have hsome := (next_isSome (c:=c') hcol).resolve_left hidle |>.resolve_left hfail
      |>.resolve_left hfound
    simpa [system,fire] using hsome

end Run

/-- Thread 0 has read the head of the free list when thread 1 adds a node to it; the
compare-exchange fails, and the second one takes that node. -/
def contendedSchedule : List (Label Party Unit) :=
  List.flatten [.acquireNode 0::steps 0 2,.prime 1 1::steps 1 8,steps 0 5]

def contendedConf : Conf Party Unit :=
  ((system Party Unit).execVia Undisturbed start contendedSchedule).getD start

theorem contendedConf_exec :
    (system Party Unit).execVia Undisturbed start contendedSchedule = some contendedConf := by
  rfl

theorem non_blocking_contendedConf :
    contendedConf.held 0 = [2] ∧
    (system Party Unit).tally (stepsOf 0) start contendedSchedule = 7 ∧
    (system Party Unit).tally (updatesBesides 0) start contendedSchedule = 2 ∧
    (contendedConf.pc 0).work +
        (system Party Unit).tally (stepsOf 0) start contendedSchedule ≤
      (system Party Unit).tally (callWork 0) start contendedSchedule +
        4*(system Party Unit).tally (updatesBesides 0) start contendedSchedule ∧
    (contendedConf.pc 0 ≠ .idle → contendedConf.pc 0 ≠ .failed →
      ((system Party Unit).fire contendedConf (.step 0)).isSome) :=
  ⟨by decide,by decide,by decide,
    non_blocking (.init rfl) rfl (by simp [contendedSchedule,steps]) contendedConf_exec⟩

end SharedList
end Benedias
