import Benedias.CollectExact

/-! What `HazardPointerList::Collect` returns: whether everything that `Delete` has queued is
deleted, unless the gc list is empty at the call. -/
namespace Benedias
namespace HazardPointerRuns

open Interleaving HazardPointerList

variable {H : Type}

/-- What `CollectorThread::Collect` does with a registered client that nobody else uses, and
whether it sets `pending`. -/
def collectClient (s : HazardPointerList) : Option (HazardPointerList × Bool) :=
  if s.haveDeletes then (s.collect noDtor).map fun r => (r.1,!r.2) else some (s,false)

/-- The result `done` of a call that leads from `s` to `s'` tells whether the gc list is empty,
whether all that was ever queued is deleted, and whether no node protected what was queued. -/
structure Truthful (s s' : HazardPointerList) (retired : List ℕ) (p : Pool) (done : Bool) :
    Prop where
  emptied : done ↔ s'.gcList = s'.endNode
  deleted : done ↔ s'.deleted.Perm retired
  unprotected : done ↔ ∀ n ∈ p.gc, ¬Protects s p.fixed (s.node n).gcPointer

theorem collect_result {dtor : ℕ → HazardPointerList → Option HazardPointerList}
    {s s' : HazardPointerList} {done : Bool} (h : s.collect dtor = some (s',done)) :
    done = (s.haveDeletes && decide (s'.gcList = s'.endNode)) := by
  unfold collect at h
  split at h
  case isTrue hgc =>
    cases h
    simp [haveDeletes,hgc]
  case isFalse hgc =>
    simp only [bind,Option.bind_eq_some_iff,pure,Option.some.injEq,Prod.mk.injEq] at h
    obtain ⟨ptrs,-,s₁,-,rfl,rfl⟩ := h
    simp [haveDeletes,hgc]

theorem gcList_eq_iff {s : HazardPointerList} {p : Pool} (hr : s.Represents p) :
    s.gcList = s.endNode ↔ p.gc = [] := by
  constructor
  · intro h
    exact LinkedChain.Chain.eq_nil (h ▸ hr.gc)
  · intro h
    have hc := hr.gc
    rwa [h] at hc

/-- With nothing queued any more, what was retired has been deleted, and only then. -/
theorem deleted_perm_iff {s : HazardPointerList} {gc retired : List ℕ}
    (ha : (account s gc).Perm retired) : s.deleted.Perm retired ↔ gc = [] := by
  constructor
  · intro h
    have hlen := (h.trans ha.symm).length_eq
    simp only [account,List.length_append,List.length_map] at hlen
    exact List.length_eq_zero_iff.mp (by omega)
  · rintro rfl
    simpa [account] using ha

theorem kept_eq_nil_iff {s : HazardPointerList} {p : Pool} :
    p.gc.filter (kept s p.fixed) = [] ↔ ∀ n ∈ p.gc, ¬Protects s p.fixed (s.node n).gcPointer := by
  rw [List.filter_eq_nil_iff]
  simp [kept]

variable [DecidableEq H]

/-- `Collect` reports truthfully if and only if the gc list is not empty at the call;
`CollectorThread`, which asks `HaveDeletes` first, retries exactly if something is left. -/
theorem collect_truthful {c : Conf H} (h : (system H).Reachable c) :
    ∃ p s' done, c.list.Represents p ∧ c.list.collect noDtor = some (s',done) ∧
      (Truthful c.list s' c.retired p done ↔ c.list.haveDeletes) ∧
      ∃ s'' pending, collectClient c.list = some (s'',pending) ∧ (pending ↔ s''.haveDeletes) := by
  obtain ⟨p,hi,ha⟩ := reachable_account h
  have hr := hi.represents
  obtain ⟨s',done,hs,hr',hcol⟩ := hr.collect hi.hazPtrs
  have hdone := collect_result hs
  have hperm := (collect_account hcol).trans ha
  have hgc := gcList_eq_iff hr'
  rw [(collect_pool hr).1] at hgc hperm
  refine ⟨p,s',done,hr,hs,?_,?_⟩
  · cases hd : c.list.haveDeletes with
    | false =>
      -- the early exit: the list is empty, and the result is false
      have hnil : p.gc = [] := (gcList_eq_iff hr).mp (by simpa [haveDeletes] using hd)
      refine iff_of_false (fun ht => ?_) (by simp)
      rw [ht.emptied.mpr (hgc.mpr (by simp [Pool.collect,hnil]))] at hdone
      simp [hd] at hdone
    | true =>
      refine iff_of_true ?_ rfl
      have hemptied : done ↔ s'.gcList = s'.endNode := by simp [hdone,hd]
      refine ⟨hemptied,hemptied.trans ?_,hemptied.trans ?_⟩
      · rw [hgc,deleted_perm_iff hperm]
      · rw [hgc]
        exact kept_eq_nil_iff
  · cases hd : c.list.haveDeletes with
    | false => exact ⟨c.list,false,by simp [collectClient,hd],by simp [hd]⟩
    | true =>
      refine ⟨s',!done,by simp [collectClient,hd,hs],?_⟩
      rw [hdone,hd]
      simp [haveDeletes]

theorem collect_truthful_queueConf :
    ∃ p s' done, queueConf.list.Represents p ∧ queueConf.list.collect noDtor = some (s',done) ∧
      (Truthful queueConf.list s' queueConf.retired p done ↔ queueConf.list.haveDeletes) ∧
      ∃ s'' pending, collectClient queueConf.list = some (s'',pending) ∧
        (pending ↔ s''.haveDeletes) :=
  collect_truthful queueConf_reachable

/-- On a new list `Collect` reports that something is left. -/
theorem not_collect_truthful :
    ∃ c : Conf Unit, (system Unit).Reachable c ∧ ∃ p s' done, c.list.Represents p ∧
      c.list.collect noDtor = some (s',done) ∧ done = false ∧ s'.gcList = s'.endNode ∧
      ¬Truthful c.list s' c.retired p done := by
  refine ⟨start,.init rfl,⟨[],[],[]⟩,start.list,false,init_represents,rfl,rfl,rfl,fun ht => ?_⟩
  exact Bool.false_ne_true (ht.emptied.mpr rfl)

end HazardPointerRuns
end Benedias
