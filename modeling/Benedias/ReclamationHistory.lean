import Benedias.GuardedObjects
import Benedias.QueuedObjects

/-! What the clients see of the list is what they would see of safe memory reclamation in single
steps: a guard is a validated node, `Delete` retires, and the collector frees. -/
namespace Benedias
namespace SharedList

open Interleaving HazardPointerList

variable {T L : Type}

/-- What a step does for the clients. -/
def seen (c : Conf T L) : Label T L → Option (GuardedObjects.Event ℕ L ℕ)
  | .store l obj => some (.store l obj)
  | .delete _ node _ =>
    if (c.mem.node node).pointer = 0 then none else some (.retire node (c.mem.node node).pointer)
  | .step t =>
    match c.pc t with
    | .valTest node l obj => if c.loc l = obj then some (.guard node l) else none
    | .acqStore node _ | .clrStore node | .relStore node | .delStore node _ => some (.unguard node)
    | .gcDelete _ _ obj => some (.free obj)
    | _ => none
  | _ => none

def guardOf (c : Conf T L) (node : ℕ) : Option ℕ :=
  if c.valid node then some (c.mem.node node).pointer else none

def objects (c : Conf T L) : GuardedObjects.Conf ℕ L ℕ where
  loc := c.loc
  guard := guardOf c
  retired := {obj | obj ≠ 0 ∧ Retired c obj}

theorem guardOf_eq {c : Conf T L} {n obj : ℕ} : guardOf c n = some obj ↔ Guards c n obj := by
  simp [guardOf,Guards]

theorem mem_retired {c : Conf T L} (hr : Reclaims c) {obj : ℕ} :
    obj ∈ (objects c).retired ↔ obj ≠ 0 ∧ ∃ n, c.cargo n = obj := by
  refine and_congr_right fun h0 => ⟨fun ⟨n,_,hn⟩ => ⟨n,hn⟩,fun ⟨n,hn⟩ => ⟨n,?_,hn⟩⟩
  exact hr.born n (hn ▸ h0)

/-- The objects are the same if locations, guards and cargoes are. -/
theorem objects_congr {c d : Conf T L} (hc : Reclaims c) (hd : Reclaims d) (hloc : d.loc = c.loc)
    (hguard : guardOf d = guardOf c) (hcargo : d.cargo = c.cargo) : objects d = objects c := by
  have hr : (objects d).retired = (objects c).retired := by
    ext obj
    rw [mem_retired hc,mem_retired hd,hcargo]
  simp only [objects] at hr ⊢
  simp only [hloc,hguard,hr]

section Step

variable [DecidableEq T] {c : Conf T L} {place : ℕ → Place T} {t : T} {p : Pc L} {w : Write} {n : ℕ}

theorem guardOf_write (hi : Inv c place) (hr : Reclaims c) (hp : ∀ v, w ≠ .pointer n v)
    (hv : w ≠ .validate n) : guardOf (c.write t w) n = guardOf c n := by
  by_cases hw : w.touches c = some n
  · cases w with
    | pointer m v =>
      cases hw
      exact absurd rfl (hp v)
    | validate m =>
      cases hw
      exact absurd rfl hv
    | gcPointer m v =>
      have h : ((c.mem.setGcPointer m v).node n).pointer = (c.mem.node n).pointer :=
        setGcPointer_pointer _ _ _ _
      simp only [guardOf,Conf.write,h]
    | delete m obj => rfl
    | new =>
      cases hw
      have hf : c.valid c.mem.fresh = false := by
        by_contra h
        exact hi.shared.fixedBorn _ (hr.valid _ (by simpa using h)) hi.shared.fresh_unborn
      have hf' : (c.write t .new).valid c.mem.fresh = false := hf
      simp only [guardOf,hf,hf']
      rfl
    | _ => cases hw
  · rw [guardOf,guardOf,valid_write hw,pointer_write hw]

theorem guardOf_pointer (v : ℕ) :
    guardOf (c.write t (.pointer n v)) = Function.update (guardOf c) n none := by
  funext m
  by_cases hm : m = n
  · subst hm
    simp [guardOf,Conf.write]
  · have hw : (Write.pointer n v).touches c ≠ some m := by simpa [Write.touches] using Ne.symm hm
    rw [Function.update_of_ne hm,guardOf,guardOf,valid_write hw,pointer_write hw]

theorem guardOf_validate :
    guardOf (c.write t (.validate n)) =
      Function.update (guardOf c) n (some (c.mem.node n).pointer) := by
  funext m
  by_cases hm : m = n
  · subst hm
    simp [guardOf,Conf.write]
  · have hw : (Write.validate n).touches c ≠ some m := by simpa [Write.touches] using Ne.symm hm
    rw [Function.update_of_ne hm,guardOf,guardOf,valid_write hw,pointer_write hw]

/-- Only the steps with an event of their own change the objects. -/
theorem objects_write (hi : Inv c place) (hr : Reclaims c) (hr' : Reclaims ((c.write t w).setPc t p))
    (hp : ∀ n v, w ≠ .pointer n v) (hv : ∀ n, w ≠ .validate n) (hd : ∀ n obj, w ≠ .delete n obj) :
    objects ((c.write t w).setPc t p) = objects c := by
  refine objects_congr hr hr' loc_write ?_ ?_
  · funext n
    exact guardOf_write hi hr (hp n) (hv n)
  · funext n
    cases w with
    | delete n obj => exact absurd rfl (hd n obj)
    | push head m => cases head <;> rfl
    | pop m v =>
      simp only [Conf.setPc,Conf.write]
      split <;> rfl
    | _ => rfl

omit [DecidableEq T] in
theorem seen_quiet {q : Pc L} (hq : c.pc t = q) (h : q.next c = some (.none,p)) :
    seen c (.step t) = none := by
  cases q with
  | valTest n l obj =>
    simp only [Pc.next] at h
    split at h
    · cases h
    next hl => simp [seen,hq,hl]
  | acqStore | clrStore | relStore | delStore | gcDelete => cases h
  | _ => simp [seen,hq]

variable [DecidableEq L] {c' : Conf T L} {a : Label T L}

theorem exec_event {s s' : GuardedObjects.Conf ℕ L ℕ} {e : GuardedObjects.Event ℕ L ℕ}
    (h : GuardedObjects.fire s e = some s') :
    (GuardedObjects.system ℕ L ℕ 0).exec s (some e).toList = some s' := by
  simp [System.exec,GuardedObjects.system,h]

/-- The collector frees what it has been given, and nobody guards. -/
theorem objects_delete (hr : Reclaims c) (hd : Distinct c) {nx obj : ℕ}
    (hp : c.pc t = .gcDelete n nx obj)
    (hr' : Reclaims ((c.write t (.delete n obj)).setPc t p)) :
    GuardedObjects.fire (objects c) (.free obj) =
      some (objects ((c.write t (.delete n obj)).setPc t p)) := by
  have hk := hr.knows t
  rw [hp] at hk
  obtain ⟨hcargo,h0,hfree⟩ := hk.1
  have hret : obj ∈ (objects c).retired := (mem_retired hr).mpr ⟨h0,n,hcargo.symm⟩
  have hguard : ∀ m, (objects c).guard m ≠ some obj := fun m hm => hfree m (guardOf_eq.mp hm)
  have hset : (objects ((c.write t (.delete n obj)).setPc t p)).retired =
      (objects c).retired \ {obj} := by
    ext o
    rw [mem_retired hr',Set.mem_sdiff,mem_retired hr,Set.mem_singleton_iff]
    have hc : ∀ m, ((c.write t (.delete n obj)).setPc t p).cargo m =
      Function.update c.cargo n 0 m := fun _ => rfl
    constructor
    · rintro ⟨ho,m,hm⟩
      rw [hc] at hm
      have hmn : m ≠ n := by
        rintro rfl
        exact ho (hm.symm.trans (Function.update_self m 0 c.cargo))
      rw [Function.update_of_ne hmn] at hm
      refine ⟨⟨ho,m,hm⟩,?_⟩
      rintro rfl
      exact hmn (hd m n (hm ▸ ho) (hm.trans hcargo))
    · rintro ⟨⟨ho,m,hm⟩,hne⟩
      refine ⟨ho,m,?_⟩
      have hmn : m ≠ n := by
        rintro rfl
        exact hne (hm.symm.trans hcargo.symm)
      rw [hc,Function.update_of_ne hmn]
      exact hm
  rw [GuardedObjects.fire_free hret hguard,← hset]
  rfl

/-- The call of `Delete` retires the object that the node guards. -/
theorem objects_retire (hr : Reclaims c) {drop : Bool} (hn : c.cargo n = 0)
    (hp : Protocol c (.delete t n drop)) (h0 : (c.mem.node n).pointer ≠ 0)
    (hr' : Reclaims ({ c with cargo := Function.update c.cargo n (c.mem.node n).pointer }.setPc t p)) :
    GuardedObjects.fire (objects c) (.retire n (c.mem.node n).pointer) =
      some (objects ({ c with cargo := Function.update c.cargo n (c.mem.node n).pointer }.setPc t p)) := by
  obtain ⟨hv,hloc,hnew⟩ := hp.resolve_left h0
  have hguard : (objects c).guard n = some (c.mem.node n).pointer := guardOf_eq.mpr ⟨hv,rfl⟩
  have hset : (objects ({ c with
      cargo := Function.update c.cargo n (c.mem.node n).pointer }.setPc t p)).retired =
      insert (c.mem.node n).pointer (objects c).retired := by
    ext o
    rw [mem_retired hr',Set.mem_insert_iff,mem_retired hr]
    simp only [Conf.setPc,Function.update_apply]
    constructor
    · rintro ⟨ho,m,hm⟩
      by_cases hmn : m = n
      · exact .inl (by simpa [hmn] using hm.symm)
      · exact .inr ⟨ho,m,by simpa [hmn] using hm⟩
    · rintro (rfl | ⟨ho,m,hm⟩)
      · exact ⟨h0,n,if_pos rfl⟩
      · have hmn : m ≠ n := by
          rintro rfl
          exact ho (hm.symm.trans hn)
        exact ⟨ho,m,by simpa [hmn] using hm⟩
  rw [GuardedObjects.fire_retire hguard (fun h => hnew h.2) hloc,← hset]
  rfl

theorem objects_step (hr : (system T L).ReachableVia Careful c)
    (h : (c.pc t).next c = some (w,p)) (hr' : Reclaims ((c.write t w).setPc t p)) :
    (GuardedObjects.system ℕ L ℕ 0).exec (objects c) (seen c (.step t)).toList =
      some (objects ((c.write t w).setPc t p)) := by
  obtain ⟨hrec,place,hi⟩ := reachable_reclaims hr
  have hquiet : seen c (.step t) = none → (∀ n v, w ≠ .pointer n v) → (∀ n, w ≠ .validate n) →
      (∀ n obj, w ≠ .delete n obj) →
      (GuardedObjects.system ℕ L ℕ 0).exec (objects c) (seen c (.step t)).toList =
        some (objects ((c.write t w).setPc t p)) := fun hs hp hv hd => by
    rw [hs,objects_write hi hrec hr' hp hv hd]
    rfl
  have hunguard : ∀ n v, w = .pointer n v → seen c (.step t) = some (.unguard n) →
      (GuardedObjects.system ℕ L ℕ 0).exec (objects c) (seen c (.step t)).toList =
        some (objects ((c.write t w).setPc t p)) := by
    rintro n v rfl hs
    rw [hs]
    refine exec_event ?_
    have hg : guardOf ((c.write t (.pointer n v)).setPc t p) = Function.update (guardOf c) n none :=
      guardOf_pointer (t:=t) v
    simp only [GuardedObjects.fire,objects,hg]
    rfl
  have hwrites := next_writes h
  generalize hq : c.pc t = q at hwrites
  cases hwrites with
  | quiet hn => exact hquiet (seen_quiet hq hn) (by simp) (by simp) (by simp)
  | acqStore | clrStore | relStore | delStore => exact hunguard _ _ rfl (by simp [seen,hq])
  | @validate n l =>
    have hs : seen c (.step t) = some (.guard n l) := by simp [seen,hq]
    have hk := hrec.knows t
    rw [hq] at hk
    have hk : (c.mem.node n).pointer = c.loc l := hk
    rw [hs]
    refine exec_event ?_
    have hg : guardOf ((c.write t (.validate n)).setPc t .idle) =
      Function.update (guardOf c) n (some (c.mem.node n).pointer) := guardOf_validate (t:=t)
    simp only [GuardedObjects.fire,objects,hg,hk]
    rfl
  | @gcDelete n nx obj =>
    have hs : seen c (.step t) = some (.free obj) := by simp [seen,hq]
    rw [hs]
    exact exec_event (objects_delete hrec (reachable_distinct hr) hq hr')
  | _ => exact hquiet (by simp [seen,hq]) (by simp) (by simp) (by simp)

theorem fire_objects (hr : (system T L).ReachableVia Careful c) (ha : Careful c a)
    (h : (system T L).fire c a = some c') :
    (GuardedObjects.system ℕ L ℕ 0).exec (objects c) (seen c a).toList = some (objects c') := by
  obtain ⟨hrec,place,hi⟩ := reachable_reclaims hr
  have h : fire c a = some c' := h
  have hr' := fire_reclaims hrec hi h ha
  cases a with
  | step t =>
    simp only [fire,Option.map_eq_some_iff] at h
    obtain ⟨⟨w,p⟩,hn,rfl⟩ := h
    exact objects_step hr hn hr'
  | store l obj =>
    cases h
    refine exec_event (GuardedObjects.fire_store fun hret => ?_)
    exact ha.1.elim hret.1 fun hn => hn hret.2
  | acquire t n l | validate t n l | clear t n | release t n drop =>
    simp only [fire,Conf.call] at h
    split at h <;> cases h
    rfl
  | acquireNode t | prime t k | collect t =>
    simp only [fire] at h
    split at h <;> cases h
    rfl
  | delete t n drop =>
    simp only [fire,Conf.call] at h
    split at h <;> cases h
    next hn =>
      have hzero := cargo_of_held hr hn.1 hn.2
      by_cases h0 : (c.mem.node n).pointer = 0
      · have hsame : Function.update c.cargo n (c.mem.node n).pointer = c.cargo := by
          rw [h0,← hzero,Function.update_eq_self]
        simp only [seen,if_pos h0,hsame]
        rfl
      · simp only [seen,if_neg h0]
        exact exec_event (objects_retire hrec hzero ha.1 h0 hr')

section Run

variable [∀ (c : Conf T L) a, Decidable (Careful c a)] {as : List (Label T L)}

omit [DecidableEq T] [DecidableEq L] [∀ (c : Conf T L) a, Decidable (Careful c a)] in
theorem objects_start : objects (start : Conf T L) = GuardedObjects.start 0 := by
  have h : (objects (start : Conf T L)).retired = ∅ := by
    ext obj
    simp only [objects,Retired,start,Set.mem_ofPred_eq,Set.mem_empty_iff_false,iff_false]
    rintro ⟨h0,n,-,hn⟩
    exact h0 hn.symm
  simp only [objects] at h ⊢
  rw [h]
  rfl

theorem exec_objects {d : Conf T L} (hr : (system T L).ReachableVia Careful d)
    (h : (system T L).execVia Careful d as = some c) :
    (GuardedObjects.system ℕ L ℕ 0).exec (objects d) ((system T L).trace seen d as) =
      some (objects c) :=
  hr.trace (f:=objects) (fun _ _ _ hs ha hf => fire_objects hs ha hf) h

/-- What the clients see in a run is a history of safe memory reclamation. -/
theorem history_reclaims (h : (system T L).execVia Careful start as = some c) :
    (GuardedObjects.system ℕ L ℕ 0).exec (GuardedObjects.start 0)
      ((system T L).trace seen start as) = some (objects c) := by
  rw [← objects_start]
  exact exec_objects (.init rfl) h

/-- An object is deleted once for each call of `Delete` on it, unless it still waits for that; and
it is not deleted while a node keeps guarding it, whatever happens in the meantime. -/
theorem deleted_once {obj : ℕ} (h0 : obj ≠ 0)
    (h : (system T L).execVia Careful start as = some c) :
    ((system T L).trace seen start as).countP (·.retires obj) =
        ((system T L).trace seen start as).countP (·.frees obj) +
          (if Retired c obj then 1 else 0) ∧
      ∀ pre post d n, as = pre++post → (system T L).execVia Careful start pre = some d →
        Guards d n obj → (∀ e ∈ (system T L).trace seen d post, e.moves n = false) →
        Guards c n obj ∧ .free obj ∉ (system T L).trace seen d post := by
  refine ⟨?_,?_⟩
  · have hcount := GuardedObjects.exec_count obj (exec_objects (.init rfl) h)
    have hstart : obj ∉ (objects (start : Conf T L)).retired := by
      rw [objects_start]
      exact Set.notMem_empty obj
    have hend : obj ∈ (objects c).retired ↔ Retired c obj := and_iff_right h0
    rw [if_neg hstart,Nat.zero_add] at hcount
    by_cases hret : Retired c obj
    · rw [if_pos hret,hcount,if_pos (hend.mpr hret)]
    · rw [if_neg hret,hcount,if_neg (hend.not.mpr hret)]
  · rintro pre post d n rfl hpre hg hmoves
    rw [System.execVia_append,hpre] at h
    have hr : (system T L).ReachableVia Careful d := (System.ReachableVia.init rfl).execVia hpre
    obtain ⟨hg',hfree⟩ := GuardedObjects.exec_guarded (guardOf_eq.mpr hg) hmoves (exec_objects hr h)
    exact ⟨guardOf_eq.mp hg',hfree⟩

end Run

end Step

/-- Object 5 is queued and deleted while object 7 is guarded; then its memory is used again, and
queued again. -/
def reuseSchedule : List (Label Party Unit) :=
  List.flatten [steps 0 1,[.store () 5],.acquire 2 3 ()::steps 2 5,.validate 2 3 ()::steps 2 2,
    [.store () 0,.delete 2 3 true]]

def historySchedule : List (Label Party Unit) := safeSchedule++reuseSchedule

def historyConf : Conf Party Unit :=
  ((system Party Unit).execVia Careful start historySchedule).getD start

theorem historyConf_exec :
    (system Party Unit).execVia Careful start historySchedule = some historyConf :=
  System.execVia_getD (by decide +kernel)

theorem history_reclaims_historyConf :
    (system Party Unit).trace seen start historySchedule =
      [.store () 5,.unguard 2,.guard 2 (),.store () 0,.retire 2 5,.unguard 2,.store () 7,.unguard 4,
        .guard 4 (),.free 5,.store () 5,.unguard 3,.guard 3 (),.store () 0,.retire 3 5] ∧
    (GuardedObjects.system ℕ Unit ℕ 0).exec (GuardedObjects.start 0)
      ((system Party Unit).trace seen start historySchedule) = some (objects historyConf) :=
  ⟨by decide +kernel,history_reclaims historyConf_exec⟩

theorem deleted_once_historyConf :
    ((system Party Unit).trace seen start historySchedule).countP (·.retires 5) = 2 ∧
    ((system Party Unit).trace seen start historySchedule).countP (·.frees 5) = 1 ∧
    ((system Party Unit).trace seen start historySchedule).countP (·.retires 5) =
      ((system Party Unit).trace seen start historySchedule).countP (·.frees 5) +
        (if Retired historyConf 5 then 1 else 0) ∧
    Guards historyConf 4 7 ∧ .free 7 ∉ (system Party Unit).trace seen safeConf reuseSchedule :=
  ⟨by decide +kernel,by decide +kernel,(deleted_once (by decide) historyConf_exec).1,
    (deleted_once (by decide) historyConf_exec).2 safeSchedule reuseSchedule safeConf 4 rfl
      (System.execVia_getD (by decide +kernel)) (by decide +kernel) (by decide +kernel)⟩

end SharedList
end Benedias
