import Benedias.HazardPointerRuns

/-! `Collect` over whole runs: what it deletes had been queued by `Delete`, is protected by no
node and is deleted once for each call of `Delete`, and it deletes all of that. -/
namespace Benedias
namespace HazardPointerRuns

open Interleaving HazardPointerList

variable {H : Type}

/-- Some node of the fixed list protects the object. -/
def Protects (s : HazardPointerList) (fixed : List ℕ) (x : ℕ) : Prop :=
  ∃ n ∈ fixed, (s.node n).pointer = x

instance (s : HazardPointerList) (fixed : List ℕ) (x : ℕ) : Decidable (Protects s fixed x) :=
  inferInstanceAs (Decidable (∃ n ∈ fixed, (s.node n).pointer = x))

/-- The gc node's object is protected. -/
def kept (s : HazardPointerList) (fixed : List ℕ) (n : ℕ) : Bool :=
  decide (Protects s fixed (s.node n).gcPointer)

theorem guarded_eq_kept {s : HazardPointerList} {p : Pool} (hr : s.Represents p) {n : ℕ}
    (hn : n ∈ p.gc) : s.guarded p.fixed n = kept s p.fixed n := by
  have h0 := (hr.gcNode n hn).2.2
  rw [Bool.eq_iff_iff,guarded,kept,decide_eq_true_iff,decide_eq_true_iff,mem_hazards]
  exact and_iff_right h0

theorem collect_pool {s : HazardPointerList} {p : Pool} (hr : s.Represents p) :
    p.collect (s.guarded p.fixed) = p.collect (kept s p.fixed) ∧
      p.gc.filter (!s.guarded p.fixed ·) = p.gc.filter (!kept s p.fixed ·) := by
  have h : ∀ n ∈ p.gc, (!s.guarded p.fixed n) = !kept s p.fixed n := fun n hn => by
    rw [guarded_eq_kept hr hn]
  simp only [Pool.collect,List.filter_congr h,List.filter_congr fun n => guarded_eq_kept hr (n:=n),
    and_self]

variable [DecidableEq H]

theorem fire_enabled {c c' : Conf H} {l : Label H} (h : fire c l = some c') : l.Enabled c := by
  cases l with
  | acquire h' | release h' | delete h' | destroy h' =>
    simp only [fire,bind,Option.bind_eq_some_iff] at h
    obtain ⟨n,hn,-⟩ := h
    exact ⟨n,hn⟩
  | _ => simp_all [fire,Label.Enabled,Option.bind_eq_some_iff]

theorem fire_effect {c c' : Conf H} {p : Pool} {l : Label H} (hi : Inv c p)
    (h : fire c l = some c') : Effect c p l c' := by
  obtain ⟨c'',h',he⟩ := fire_spec hi (fire_enabled h)
  obtain rfl := Option.some.inj (h'.symm.trans h)
  exact he

/-- What has been passed to `Delete` is deleted or queued, once for each call. -/
theorem reachable_account {c : Conf H} (h : (system H).Reachable c) :
    ∃ p, Inv c p ∧ (account c.list p.gc).Perm c.retired := by
  refine h.invariant (I:=fun c => ∃ p, Inv c p ∧ (account c.list p.gc).Perm c.retired) ?_ ?_
  · rintro c rfl
    exact ⟨⟨[],[],[]⟩,inv_start,by simp [account,start,init]⟩
  · rintro c l c' - ⟨p,hi,ha⟩ hf
    have he := fire_effect hi hf
    refine ⟨_,he.inv,?_⟩
    rw [he.retired]
    exact he.account.trans (ha.append_right _)

theorem deleted_subperm {s : HazardPointerList} {gc retired : List ℕ}
    (ha : (account s gc).Perm retired) : s.deleted.Subperm retired :=
  (List.sublist_append_left _ _).subperm.trans ha.subperm

/-- In every state that a serialized run reaches: each object has been deleted at most as often as
it was passed to `Delete` (its address may have been used again), so at most once if that was at
most once, and what is missing is queued; every operation that makes sense completes, and only
`Collect` deletes; and `Collect` deletes exactly the objects on the gc list that no node protects,
whose nodes move to the free list, and leaves the fixed list, all `pointer`s and the other nodes
of the gc list as they are. -/
theorem collection_exact {c : Conf H} (h : (system H).Reachable c) :
    (∀ x, c.list.deleted.count x ≤ c.retired.count x) ∧
    (c.retired.Nodup → c.list.deleted.Nodup) ∧
    (∀ l, l.Enabled c → ∃ c', fire c l = some c' ∧
      (l ≠ .collect → c'.list.deleted = c.list.deleted)) ∧
    ∃ p c', c.list.Represents p ∧
      (c.list.deleted++p.gc.map fun n => (c.list.node n).gcPointer).Perm c.retired ∧
      fire c .collect = some c' ∧
      let freed := p.gc.filter (!kept c.list p.fixed ·)
      c'.list.Represents ⟨p.fixed,p.gc.filter (kept c.list p.fixed),freed.reverse++p.free⟩ ∧
      c'.list.deleted = c.list.deleted++freed.map (fun n => (c.list.node n).gcPointer) ∧
      (∀ n ∈ freed, (c'.list.node n).pointer = 0 ∧ (c'.list.node n).gcPointer = 0) ∧
      (∀ n, (c'.list.node n).pointer = (c.list.node n).pointer) ∧
      ∀ n ∈ p.gc.filter (kept c.list p.fixed),
        (c'.list.node n).gcPointer = (c.list.node n).gcPointer := by
  obtain ⟨p,hi,ha⟩ := reachable_account h
  have hr := hi.represents
  have hsub := deleted_subperm ha
  refine ⟨hsub.count_le,fun hn => ?_,?_,?_⟩
  · obtain ⟨l,hl,hsub⟩ := hsub
    exact hl.nodup_iff.mp (hn.sublist hsub)
  · intro l hl
    obtain ⟨c',hf,he⟩ := fire_spec hi hl
    exact ⟨c',hf,he.deleted⟩
  · obtain ⟨s,done,hs,hr',hcol⟩ := hr.collect hi.hazPtrs
    rw [(collect_pool hr).1] at hr'
    rw [(collect_pool hr).2] at hcol
    refine ⟨p,{ c with list := s },hr,ha,by simp [fire,hs],hr',hcol.deleted,?_,hcol.pointer,?_⟩
    · intro n hn
      rw [hcol.pointer]
      exact ⟨(hr.gcNode n (List.mem_of_mem_filter hn)).2.1,hcol.cleared n hn⟩
    · intro n hn
      refine hcol.kept n fun hm => ?_
      have h1 := (List.mem_filter.mp hn).2
      have h2 := (List.mem_filter.mp hm).2
      simp [h1] at h2

/-- Two objects have been deleted through their nodes, one is still protected by a third node. -/
def queueSchedule : List (Label Party) :=
  [.prime 1,.construct 0,.construct 1,.construct 2,.acquire 0 100,.acquire 1 200,.acquire 2 100,
    .delete 0,.delete 1]

def queueConf : Conf Party :=
  ((system Party).exec start queueSchedule).getD start

example : (queueConf.retired,queueConf.list.gcList) = ([100,200],3) := by decide

theorem queueConf_reachable : (system Party).Reachable queueConf :=
  System.Reachable.execD queueSchedule (.init rfl)

theorem collection_exact_queueConf :
    (∀ x, queueConf.list.deleted.count x ≤ queueConf.retired.count x) ∧
    (queueConf.retired.Nodup → queueConf.list.deleted.Nodup) ∧
    (∀ l, l.Enabled queueConf → ∃ c', fire queueConf l = some c' ∧
      (l ≠ .collect → c'.list.deleted = queueConf.list.deleted)) ∧
    ∃ p c', queueConf.list.Represents p ∧
      (queueConf.list.deleted++p.gc.map fun n => (queueConf.list.node n).gcPointer).Perm
        queueConf.retired ∧
      fire queueConf .collect = some c' ∧
      let freed := p.gc.filter (!kept queueConf.list p.fixed ·)
      c'.list.Represents
        ⟨p.fixed,p.gc.filter (kept queueConf.list p.fixed),freed.reverse++p.free⟩ ∧
      c'.list.deleted =
        queueConf.list.deleted++freed.map (fun n => (queueConf.list.node n).gcPointer) ∧
      (∀ n ∈ freed, (c'.list.node n).pointer = 0 ∧ (c'.list.node n).gcPointer = 0) ∧
      (∀ n, (c'.list.node n).pointer = (queueConf.list.node n).pointer) ∧
      ∀ n ∈ p.gc.filter (kept queueConf.list p.fixed),
        (c'.list.node n).gcPointer = (queueConf.list.node n).gcPointer :=
  collection_exact queueConf_reachable

end HazardPointerRuns
end Benedias
