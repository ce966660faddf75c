import Benedias.ReclamationSafety

/-! Where the objects are that `Delete` has been called for and that are not deleted yet: on the gc
list, or with a thread that is on its way to put them there. -/
namespace Benedias
namespace SharedList

open Interleaving LinkedChain HazardPointerList

variable {T L : Type}

def pushes (node : ℕ) : Head → Option ℕ
  | .gcList => some node
  | .freeList => none

/-- The node that the thread is in `Delete` with, before its push. -/
def Pc.queueing : Pc L → Option ℕ
  | .delGc n _ | .delTest n _ | .delLoad n | .delExchange n _ | .delStore n _ | .delNext n
  | .delPointer n | .delGcPointer n => some n
  | .pushCheck n head _ | .pushLoad n head _ | .pushStore n _ head _ | .pushCas n head _
  | .pushFailed n _ head _ => pushes n head
  | _ => none

/-- The node that `Collect` has deleted the object of, and is about to remove. -/
def Pc.emptied : Pc L → Option ℕ
  | .remTest g _ _ | .remEnd g _ _ | .remNext g _ _ | .remExit g _ _ | .remExpected g _ _
  | .remDesired g _ _ _ | .remCas g _ _ _ _ => some g
  | _ => none

structure Queued (c : Conf T L) : Prop where
  cargo : ∀ n, c.cargo n ≠ 0 →
    n ∈ c.gc ∨ ∃ t, (c.pc t).queueing = some n ∨ c.pc t = .failed ∧ n ∈ c.held t
  emptied : ∀ t n, (c.pc t).emptied = some n → c.cargo n = 0

theorem queued_start : Queued (start : Conf T L) :=
  ⟨fun _ h => absurd rfl h,fun _ _ h => by cases h⟩

section Next

variable {c : Conf T L} {p p' : Pc L} {w : Write} {n : ℕ}

theorem queueing_own (h : p.queueing = some n) : p.own = some n := by
  cases p with
  | pushCheck m head | pushLoad m head | pushStore m top head | pushCas m head
  | pushFailed m top head =>
    cases head with
    | gcList => exact h
    | freeList => cases h
  | _ => first | exact h | cases h

theorem emptied_check {b : Bool} (h : (check b p).emptied = some n) : p.emptied = some n := by
  cases b with
  | false => cases h
  | true => exact h

theorem emptied_primeFrom {k : ℕ} : (primeFrom k : Pc L).emptied = none := by cases k <;> rfl

theorem emptied_scanFrom {m : HazardPointerList} : (scanFrom m n : Pc L).emptied = none := by
  simp only [scanFrom]
  split <;> rfl

theorem emptied_gcFrom {m : HazardPointerList} : (gcFrom m n : Pc L).emptied = none := by
  simp only [gcFrom]
  split
  · rfl
  · split <;> rfl

theorem emptied_pushAfter {m : HazardPointerList} {f : PushFor} :
    (f.after m n : Pc L).emptied = none := by
  cases f with
  | release | delete => rfl
  | prime k => exact emptied_primeFrom
  | collect nx => exact emptied_gcFrom

/-- `remove` starts when the object has been deleted. -/
theorem next_emptied (h : p.next c = some (w,p')) (hn : p'.emptied = some n) :
    p.emptied = some n ∨ ∃ obj, w = .delete n obj := by
  cases next_writes h with
  | gcDelete =>
    cases hn
    exact .inr ⟨_,rfl⟩
  | quiet hq =>
    left
    cases p
    case relTest | delTest => rcases tested_next hq with rfl | rfl <;> cases hn
    case scanHead | scanLink =>
      cases hq
      rw [emptied_scanFrom] at hn
      cases hn
    case gcHead =>
      cases hq
      rw [emptied_gcFrom] at hn
      cases hn
    case gcPointer g nx obj =>
      cases hq
      have hn := emptied_check hn
      split at hn
      · rw [emptied_gcFrom] at hn
        cases hn
      · cases hn
    all_goals first
      | (cases hq; done)
      | (cases hq; exact hn)
      | (cases hq; cases hn)
      | (cases hq; cases emptied_check hn)
      | (cases hq; split at hn <;> first | exact hn | cases hn)
      | (simp only [Pc.next] at hq; split at hq <;> cases hq <;> exact hn)
  | pop =>
    split at hn <;> cases hn
  | add =>
    rename_i f _
    cases f <;> cases hn
  | push =>
    rw [emptied_pushAfter] at hn
    cases hn
  | _ => cases hn

/-- A thread keeps its node until the push succeeds, or `Delete` finds that the node has no
object. -/
theorem queueing_next (h : p.next c = some (w,p')) (hn : p.queueing = some n) :
    p'.queueing = some n ∨ p' = .failed ∧ w = .none ∨ w = .push .gcList n ∨
      (∃ drop, p = .delTest n drop) ∧ (c.mem.node n).pointer = 0 := by
  have hcheck : ∀ {b : Bool} {q : Pc L}, q.queueing = some n →
      (check b q).queueing = some n ∨ check b q = .failed := by
    intro b q hq
    cases b with
    | false => exact .inr rfl
    | true => exact .inl hq
  cases p with
  | delTest m drop =>
    cases hn
    simp only [Pc.next] at h
    split at h
    case isTrue h0 => exact .inr (.inr (.inr ⟨⟨drop,rfl⟩,h0⟩))
    case isFalse =>
      cases h
      exact .inl rfl
  | pushCas m head f =>
    simp only [Pc.next] at h
    split at h
    case isTrue =>
      cases h
      cases head with
      | gcList =>
        cases hn
        exact .inr (.inr (.inl rfl))
      | freeList => cases hn
    case isFalse =>
      cases h
      exact .inl hn
  | delGc | delNext | delPointer | delGcPointer | pushCheck =>
    cases h
    refine (hcheck ?_).imp_right fun hf => .inl ⟨hf,rfl⟩
    exact hn
  | delLoad | delExchange | delStore | pushLoad | pushStore | pushFailed =>
    cases h
    exact .inl hn
  | _ => cases hn

end Next

section Step

variable [DecidableEq T] {c : Conf T L} {place : ℕ → Place T} {t u : T} {p : Pc L} {w : Write}
  {n : ℕ}

omit [DecidableEq T] in
theorem Inv.emptied_gc (hi : Inv c place) (hn : (c.pc t).emptied = some n) : n ∈ c.gc := by
  have hp := hi.pos t
  cases h : c.pc t <;> rw [h] at hn hp <;> cases hn <;> exact hp.1.mem

theorem cargo_eq_zero_write (h : c.cargo n = 0) : (c.write t w).cargo n = 0 := by
  by_contra hn
  exact hn ((cargo_write_ne hn).trans h)

theorem Queued.step (hq : Queued c) (hr : Reclaims c) (hi : Inv c place) (h : (c.pc t).next c = some (w,p)) :
    Queued ((c.write t w).setPc t p) where
  cargo n hn := by
    have he : (c.write t w).cargo n = c.cargo n := cargo_write_ne hn
    have h0 : c.cargo n ≠ 0 := he ▸ hn
    have hpc : ((c.write t w).setPc t p).pc t = p := by simp [Conf.setPc]
    rcases hq.cargo n h0 with hg | ⟨u,hu⟩
    · refine .inl (mem_gc_of_write (fun r d hw => h0 ?_) hg)
      subst hw
      obtain ⟨nx,hp,-⟩ := next_unlink h
      exact hq.emptied t n (by rw [hp]; rfl)
    by_cases hut : u = t
    · subst hut
      rcases hu with hu | hu
      · rcases queueing_next h hu with hn' | ⟨hf,rfl⟩ | rfl | ⟨⟨drop,hd⟩,hz⟩
        · exact .inr ⟨u,.inl ((congrArg Pc.queueing hpc).trans hn')⟩
        · exact .inr ⟨u,.inr ⟨hpc.trans hf,hi.own u n (queueing_own hu)⟩⟩
        · exact .inl (List.mem_cons_self ..)
        · have hk := hr.knows u
          rw [hd] at hk
          exact absurd (hk.symm.trans hz) h0
      · rw [hu.1] at h
        cases h
    · refine .inr ⟨u,?_⟩
      simpa [Conf.setPc,hut,held_write_of_ne hut] using hu
  emptied u n hn := by
    by_cases hut : u = t
    · subst hut
      have hn : p.emptied = some n := by simpa [Conf.setPc] using hn
      rcases next_emptied h hn with he | ⟨obj,rfl⟩
      · exact cargo_eq_zero_write (hq.emptied u n he)
      · exact Function.update_self n 0 c.cargo
    · have hn : (c.pc u).emptied = some n := by simpa [Conf.setPc,hut] using hn
      exact cargo_eq_zero_write (hq.emptied u n hn)

/-- A call of an idle thread; `Delete` brings the object of its node with it. -/
theorem Queued.call (hq : Queued c) (ht : c.pc t = .idle) (hp : p.emptied = none)
    {cargo : ℕ → ℕ} (hc : ∀ m, cargo m = c.cargo m ∨ p.queueing = some m ∧ m ∉ c.gc)
    (hi : Inv c place) : Queued ({ c with cargo := cargo }.setPc t p) where
  cargo n hn := by
    rcases hc n with he | ⟨hn,-⟩
    · rcases hq.cargo n (he ▸ hn) with hg | ⟨u,hu⟩
      · exact .inl hg
      · have hut : u ≠ t := by
          rintro rfl
          simp [ht,Pc.queueing] at hu
        exact .inr ⟨u,by simpa [Conf.setPc,hut] using hu⟩
    · exact .inr ⟨t,.inl (by simpa [Conf.setPc] using hn)⟩
  emptied u n hn := by
    by_cases hut : u = t
    · subst hut
      simp [Conf.setPc,hp] at hn
    · have hn : (c.pc u).emptied = some n := by simpa [Conf.setPc,hut] using hn
      rcases hc n with he | ⟨-,hg⟩
      · exact he.trans (hq.emptied u n hn)
      · exact absurd (hi.emptied_gc hn) hg

variable [DecidableEq L]

theorem Queued.fire {c' : Conf T L} {a : Label T L} (hq : Queued c) (hr : Reclaims c)
    (hi : Inv c place) (h : fire c a = some c') : Queued c' := by
  have hsame : ∀ (p : Pc L) m, c.cargo m = c.cargo m ∨ p.queueing = some m ∧ m ∉ c.gc :=
    fun _ _ => .inl rfl
  cases a with
  | step t =>
    simp only [SharedList.fire,Option.map_eq_some_iff] at h
    obtain ⟨⟨w,p⟩,hn,rfl⟩ := h
    exact hq.step hr hi hn
  | store l obj =>
    cases h
    exact ⟨hq.cargo,hq.emptied⟩
  | acquire t n l | validate t n l | clear t n | release t n drop =>
    simp only [SharedList.fire,Conf.call] at h
    split at h <;> cases h
    next hn => exact hq.call hn.1 rfl (hsame _) hi
  | delete t n drop =>
    simp only [SharedList.fire,Conf.call] at h
    split at h <;> cases h
    next hn =>
      refine hq.call hn.1 rfl (fun m => ?_) hi
      by_cases hm : m = n
      · exact .inr ⟨congrArg some hm.symm,hm ▸ hi.shared.held_gc hn.2⟩
      · exact .inl (Function.update_of_ne hm _ _)
  | acquireNode t | collect t =>
    simp only [SharedList.fire] at h
    split at h <;> cases h
    next ht => exact hq.call ht rfl (hsame _) hi
  | prime t k =>
    simp only [SharedList.fire] at h
    split at h <;> cases h
    next ht => exact hq.call ht emptied_primeFrom (hsame _) hi

theorem reachable_queued (hr : (system T L).ReachableVia Careful c) : Queued c := by
  refine hr.invariant (I:=Queued) (fun s hs => ?_) fun s a s' hs hq _ hf => ?_
  · obtain rfl : s = start := hs
    exact queued_start
  · obtain ⟨hrec,place,hi⟩ := reachable_reclaims hs
    exact hq.fire hrec hi hf

/-- When no thread is in a call, only the gc list has objects that are to be deleted. -/
theorem cargo_of_idle (hr : (system T L).ReachableVia Careful c) (hidle : ∀ t, c.pc t = .idle)
    (hn : c.cargo n ≠ 0) : n ∈ c.gc := by
  rcases (reachable_queued hr).cargo n hn with hg | ⟨t,ht⟩
  · exact hg
  · simp [hidle,Pc.queueing] at ht

/-- A thread outside of all functions holds no node with an object that is to be deleted. -/
theorem cargo_of_held (hr : (system T L).ReachableVia Careful c) (ht : c.pc t = .idle)
    (hn : n ∈ c.held t) : c.cargo n = 0 := by
  obtain ⟨hrec,place,hi⟩ := reachable_reclaims hr
  by_contra h
  rcases (reachable_queued hr).cargo n h with hg | ⟨u,hu⟩
  · exact hi.shared.held_gc hn hg
  · have hheld : n ∈ c.held u := by
      rcases hu with hu | ⟨-,hu⟩
      · exact hi.own u n (queueing_own hu)
      · exact hu
    obtain rfl := hi.shared.held_unique hn hheld
    simp [ht,Pc.queueing] at hu

/-- Each object is queued with one node. -/
def Distinct (c : Conf T L) : Prop := ∀ n m, c.cargo n ≠ 0 → c.cargo n = c.cargo m → n = m

theorem Distinct.fire {c' : Conf T L} {a : Label T L} (hd : Distinct c) (hr : Reclaims c)
    (ha : Careful c a) (h : fire c a = some c') : Distinct c' := by
  cases a with
  | step t =>
    simp only [SharedList.fire,Option.map_eq_some_iff] at h
    obtain ⟨⟨w,p⟩,hn,rfl⟩ := h
    intro n m h0 he
    have hm : (c.write t w).cargo m ≠ 0 := he ▸ h0
    have hcn : (c.write t w).cargo n = c.cargo n := cargo_write_ne h0
    have hcm : (c.write t w).cargo m = c.cargo m := cargo_write_ne hm
    exact hd n m (hcn ▸ h0) (hcn.symm.trans (he.trans hcm))
  | store l obj =>
    cases h
    exact hd
  | acquire t n l | validate t n l | clear t n | release t n drop =>
    simp only [SharedList.fire,Conf.call] at h
    split at h <;> cases h
    exact hd
  | delete t n drop =>
    simp only [SharedList.fire,Conf.call] at h
    split at h <;> cases h
    have hnew : ∀ m, c.cargo m ≠ 0 → c.cargo m ≠ (c.mem.node n).pointer := fun m h0 he => by
      rcases ha.1 with hz | ⟨-,-,hret⟩
      · exact h0 (he.trans hz)
      · exact hret ⟨m,hr.born m h0,he⟩
    intro m k h0 he
    simp only [Conf.setPc,Function.update_apply] at h0 he
    by_cases hm : m = n <;> by_cases hk : k = n
    · exact hm.trans hk.symm
    · rw [if_pos hm,if_neg hk] at he
      rw [if_pos hm] at h0
      exact absurd he.symm (hnew k (he ▸ h0))
    · rw [if_neg hm,if_pos hk] at he
      rw [if_neg hm] at h0
      exact absurd he (hnew m h0)
    · rw [if_neg hm,if_neg hk] at he
      rw [if_neg hm] at h0
      exact hd m k h0 he
  | acquireNode t | prime t k | collect t =>
    simp only [SharedList.fire] at h
    split at h <;> cases h
    exact hd

theorem reachable_distinct (hr : (system T L).ReachableVia Careful c) : Distinct c := by
  refine hr.invariant (I:=Distinct) (fun s hs => ?_) fun s a s' hs hd ha hf => ?_
  · obtain rfl : s = start := hs
    exact fun n m h => absurd rfl h
  · exact hd.fire (reachable_reclaims hs).1 ha hf

end Step

end SharedList
end Benedias
