import Benedias.ReentrantInvariant

/-! A `Collect` whose destructors use the list is safe as long as none of them calls `Collect`.
One that does makes it abort, at the node that the outer `Collect` was working on. -/
namespace Benedias
namespace Reentrant

open Interleaving HazardPointerList LinkedChain
open HazardPointerRuns (Protects)

variable {H : Type}

/-- The steps of `Collect`, the others are calls. -/
def Label.own : Label H → Bool
  | .call _ => false
  | .round | .resume => true

def Label.isCollect : Label H → Bool
  | .call .collect => true
  | _ => false

/-- No destructor calls `Collect`. -/
def NotNested (c : Conf H) (a : Label H) : Prop := a.isCollect → c.deleting = []

/-- Some `Collect` has not returned. -/
def Conf.Running (c : Conf H) : Prop := c.gcNode ≠ none ∨ c.deleting ≠ []

/-- The steps between the call of the outermost `Collect` and its return. -/
def During (c : Conf H) (a : Label H) : Prop := NotNested c a ∧ c.Running

instance (c : Conf H) (a : Label H) : Decidable (NotNested c a) :=
  inferInstanceAs (Decidable (a.isCollect → c.deleting = []))

instance (c : Conf H) : Decidable c.Running :=
  inferInstanceAs (Decidable (c.gcNode ≠ none ∨ c.deleting ≠ []))

instance (c : Conf H) (a : Label H) : Decidable (During c a) :=
  inferInstanceAs (Decidable (NotNested c a ∧ c.Running))

/-- How many `Collect`s have not returned. -/
def Conf.depth (c : Conf H) : ℕ := c.deleting.length+c.gcNode.elim 0 fun _ => 1

/-- The steps that the innermost `Collect` has still to do, `l` being what it has left. -/
def Conf.work (c : Conf H) (l : List ℕ) : ℕ :=
  match c.gcNode, c.deleting with
  | some _, _ => 2*l.length+1
  | none, _::_ => 2*l.length+2
  | none, [] => 0

/-- `gc_node` or `next_gc_node` of a `Collect` that has not returned. -/
def Conf.Cursor (c : Conf H) (n : ℕ) : Prop :=
  c.gcNode = some n ∨ ∃ f ∈ c.deleting, f.nextGcNode = n

/-- No assertion has failed; the lists are the three of the pool, and no node is on one of them
twice, nor on the gc list and the free list; every traversal is on its way to `end_node`; nothing
has been deleted more often than it was queued. -/
structure Safe (c : Conf H) (p : Pool) : Prop where
  asserted : c.failed = false
  fixed : Chain c.base.list.fixedLinkOf c.base.list.endNode c.base.list.nodes p.fixed
  gc : Chain c.base.list.nextOf c.base.list.endNode c.base.list.gcList p.gc
  free : Chain c.base.list.nextOf c.base.list.endNode c.base.list.freeList p.free
  nodup : p.fixed.Nodup ∧ (p.gc++p.free).Nodup
  ends : ∀ n, c.Cursor n → ∃ l, Chain c.base.list.nextOf c.base.list.endNode n l
  once : c.base.list.deleted.Subperm c.base.retired

section Invariant

variable {c : Conf H} {p : Pool} {l : List ℕ}

theorem Nested.cursor {s : HazardPointerList} {gc : List ℕ} {fs : List Frame}
    (hn : Nested s gc fs) {f : Frame} (hf : f ∈ fs) :
    ∃ l, Chain s.nextOf s.endNode f.nextGcNode l := by
  induction fs generalizing gc with
  | nil => simp at hf
  | cons g fs ih =>
    obtain ⟨pre,l,-,hc,hl⟩ := hn
    rcases List.mem_cons.mp hf with rfl | hf
    · exact ⟨l,hc⟩
    · exact ih hl hf

/-- The objects of the nodes whose destructor does not run, and the deleted ones, are those that
have been queued. -/
theorem Inv.deleted (hi : Inv c p l) : c.base.list.deleted.Subperm c.base.retired := by
  obtain ⟨q,hq,hs⟩ : c.halves.Subperm p.gc :=
    (hi.place.nested.nodup hi.gcChain.nodup).subperm fun n hn => hi.place.mem hn
  have hone : c.halves.map (fun n => (c.idle.list.node n).gcPointer) =
      c.deleting.map fun _ => 1 := by
    have h : ∀ n ∈ c.halves, (c.idle.list.node n).gcPointer = 1 := fun n hn => by
      simp [Conf.idle,HazardPointerRuns.Conf.patch,patch_gcPointer,hn]
    rw [List.map_congr_left h]
    exact List.map_map
  have hmap : (c.halves.map fun n => (c.idle.list.node n).gcPointer).Subperm
      (p.gc.map fun n => (c.idle.list.node n).gcPointer) := ⟨q.map _,hq.map _,hs.map _⟩
  rw [hone] at hmap
  have hacc := ((List.subperm_append_left c.base.list.deleted).mpr hmap).trans hi.account.subperm
  exact (List.subperm_append_right _).mp hacc

theorem Inv.safe (hi : Inv c p l) (hf : c.failed = false) : Safe c p where
  asserted := hf
  fixed := hi.fixedChain
  gc := hi.gcChain
  free := hi.freeChain
  nodup := by
    refine ⟨hi.fixedChain.nodup,List.nodup_append.mpr ⟨hi.gcChain.nodup,hi.freeChain.nodup,?_⟩⟩
    rintro n hn m hm rfl
    exact hi.idle.represents.disjoint hn hm
  ends n hn := by
    rcases hn with hn | ⟨f,hf,rfl⟩
    · obtain ⟨pre,-,hc,-⟩ := hi.place.some hn
      exact ⟨l,hc⟩
    · exact hi.place.nested.cursor hf
  once := hi.deleted

end Invariant

section Runs

variable [DecidableEq H] {c c' : Conf H} {p p' : Pool} {l l' : List ℕ} {a : Label H}

/-- At most one `Collect` is on its way, and no assertion has failed. -/
structure Outermost (c : Conf H) : Prop where
  asserted : c.failed = false
  loop : c.gcNode ≠ none → c.deleting = []
  depth : c.deleting.length ≤ 1

/-- Only the node of an outer `Collect` makes one fail. -/
theorem Move.outermost (hm : Move c p l a c' p' l') (ho : Outermost c) (hn : NotNested c a) :
    Outermost c' := by
  cases hm with
  | call hg hc hdel hptrs => exact ⟨ho.asserted,ho.loop,ho.depth⟩
  | empty hg hgc => exact ⟨ho.asserted,ho.loop,ho.depth⟩
  | enter hg => exact ⟨ho.asserted,fun _ => hn rfl,ho.depth⟩
  | finish hg hl hd => exact ⟨ho.asserted,fun h => absurd rfl h,ho.depth⟩
  | stuck hg hh =>
    have hd := ho.loop (by simp [hg])
    simp [Conf.halves,hd] at hh
  | skip hg hl =>
    have hd := ho.loop (by simp [hg])
    exact ⟨ho.asserted,fun _ => hd,ho.depth⟩
  | delete hg hl h0 hx =>
    have hd := ho.loop (by simp [hg])
    exact ⟨ho.asserted,fun h => absurd rfl h,by simp [hd]⟩
  | @resume f fs q s hg hd hdel hptrs =>
    have hdepth := ho.depth
    rw [hd,List.length_cons] at hdepth
    have hfs : fs = [] := List.eq_nil_of_length_eq_zero (by omega)
    exact ⟨ho.asserted,fun _ => hfs,by simp [hfs]⟩

theorem reachable_outermost {c : Conf H} (h : (system H).ReachableVia NotNested c) :
    ∃ p l, Inv c p l ∧ Outermost c := by
  refine h.invariant (I:=fun c => ∃ p l, Inv c p l ∧ Outermost c) ?_ ?_
  · rintro c rfl
    exact ⟨_,_,inv_start,rfl,fun h => absurd rfl h,by simp [start]⟩
  · rintro c a c' - ⟨p,l,hi,ho⟩ hn hf
    obtain ⟨p',l',hm,hi'⟩ := fire_move hi hf
    exact ⟨p',l',hi',hm.outermost ho hn⟩

omit [DecidableEq H] in
theorem During.isCollect (hd : During c a) (hg : c.gcNode = none) : a.isCollect = false := by
  by_contra hc
  exact (hd.2.resolve_left fun h => h hg) (hd.1 (by simpa using hc))

/-- A step of `Collect` takes from its work, unless an assertion fails. -/
theorem Move.work (hm : Move c p l a c' p' l') (ha : a.own) :
    c'.failed = true ∨ c'.work l' < c.work l := by
  cases hm with
  | call hg hc hdel hptrs => cases ha
  | empty hg hgc => cases ha
  | enter hg => cases ha
  | finish hg hl hd =>
    right
    simp [Conf.work,Conf.setList,hg,hd]
  | stuck hg hh => exact .inl rfl
  | skip hg hl =>
    right
    simp [Conf.work,hg,hl]
  | delete hg hl h0 hx =>
    right
    simp [Conf.work,hg,hl]
    omega
  | resume hg hd hdel hptrs =>
    right
    simp [Conf.work,hg,hd]

theorem Move.work_le (hm : Move c p l a c' p' l') (ho : Outermost c) (hd : During c a) :
    a.own.toNat+c'.work l' ≤ c.work l := by
  have ho' := hm.outermost ho hd.1
  cases ha : a.own with
  | true =>
    have h := (hm.work ha).resolve_left (by simp [ho'.asserted])
    simp only [Bool.toNat_true]
    omega
  | false =>
    cases hm with
    | call hg hc hdel hptrs => simp [Conf.work]
    | empty hg hgc => cases hd.isCollect hg
    | enter hg => cases hd.isCollect hg
    | _ => cases ha

/-- A step of an outermost `Collect`, or of its destructor, deletes what `all_haz_ptrs` does not
hold, and that stays as it is. -/
theorem Move.during (hm : Move c p l a c' p' l') (ho : Outermost c) (hd : During c a) :
    (c'.Running → c'.base.list.allHazPtrs = c.base.list.allHazPtrs) ∧
      ∃ ds, c'.base.list.deleted = c.base.list.deleted++ds ∧
        ∀ x ∈ ds, x ≠ 0 ∧ x ∉ c.base.list.allHazPtrs := by
  cases hm with
  | call hg hc hdel hptrs => exact ⟨fun _ => hptrs,[],by simpa using hdel,by simp⟩
  | empty hg hgc => cases hd.isCollect hg
  | enter hg => cases hd.isCollect hg
  | finish hg hl hdel =>
    refine ⟨fun h => ?_,[],by simp [Conf.setList],by simp⟩
    exact absurd hdel (h.resolve_left fun h => h rfl)
  | stuck hg hh =>
    have hnil := ho.loop (by simp [hg])
    simp [Conf.halves,hnil] at hh
  | skip hg hl => exact ⟨fun _ => rfl,[],by simp,by simp⟩
  | @delete n m x l' hg hl h0 hx => exact ⟨fun _ => rfl,[x],rfl,by simp [h0,hx]⟩
  | resume hg hdel hs hptrs => exact ⟨fun _ => hptrs,[],by simpa [Conf.setList] using hs,by simp⟩

/-- What is on `all_haz_ptrs` at the start of a stretch of an outermost `Collect` is not deleted
in it, and every step of its own brings `Collect` nearer to its end. -/
theorem exec_during {hs : List ℕ} {as : List (Label H)} (hi : Inv c p l) (ho : Outermost c)
    (hp : c.Running → ∀ x ∈ hs, x ∈ c.base.list.allHazPtrs)
    (h : (system H).execVia During c as = some c') :
    ∃ p' l', Inv c' p' l' ∧ Outermost c' ∧ as.countP Label.own+c'.work l' ≤ c.work l ∧
      ∃ ds, c'.base.list.deleted = c.base.list.deleted++ds ∧ ∀ x ∈ ds, x ≠ 0 ∧ x ∉ hs := by
  induction as generalizing c p l with
  | nil =>
    obtain rfl := Option.some.inj h
    exact ⟨p,l,hi,ho,by simp,[],by simp,by simp⟩
  | cons a as ih =>
    simp only [System.execVia] at h
    split at h
    case isFalse => cases h
    case isTrue hd =>
      obtain ⟨c₁,hf,h⟩ := Option.bind_eq_some_iff.mp h
      obtain ⟨p₁,l₁,hm,hi₁⟩ := fire_move hi hf
      obtain ⟨hptrs,ds₁,hds₁,hx₁⟩ := hm.during ho hd
      have hwork := hm.work_le ho hd
      obtain ⟨p',l',hi',ho',hcount,ds,hds,hx⟩ := ih hi₁ (hm.outermost ho hd.1)
        (fun hr x hx => hptrs hr ▸ hp hd.2 x hx) h
      refine ⟨p',l',hi',ho',?_,ds₁++ds,by rw [hds,hds₁,List.append_assoc],?_⟩
      · cases ha : a.own <;> simp only [ha,Bool.toNat_true,Bool.toNat_false] at hwork <;>
          simp [ha] <;> omega
      · intro x hm
        rcases List.mem_append.mp hm with hm | hm
        · exact ⟨(hx₁ x hm).1,fun hh => (hx₁ x hm).2 (hp hd.2 x hh)⟩
        · exact hx x hm

/-- `Collect` is never stuck: unless it has failed, it has a next step. -/
theorem own_enabled (hf : c.failed = false) (hr : c.Running) :
    ∃ a c', a.own ∧ (system H).fire c a = some c' := by
  cases hg : c.gcNode with
  | some n => exact ⟨.round,c.round n,rfl,by simp [system,fire,hf,hg]⟩
  | none =>
    cases hd : c.deleting with
    | nil => simp [Conf.Running,hg,hd] at hr
    | cons f fs => exact ⟨.resume,c.resume f fs,rfl,by simp [system,fire,hf,hg,hd]⟩

/-- An outermost `Collect` begins. -/
theorem Move.begins (hm : Move c p l (.call .collect) c' p' l') (hd : c.deleting = []) :
    c'.base.list.deleted = c.base.list.deleted ∧ c'.work l' ≤ 2*p.gc.length+1 ∧
      (c'.Running → ∀ x ∈ c.base.list.hazards p.fixed, x ∈ c'.base.list.allHazPtrs) := by
  cases hm with
  | call hg hc hdel hptrs => exact absurd rfl hc
  | empty hg hgc =>
    refine ⟨rfl,by simp [Conf.work,hg,hd],fun hr => ?_⟩
    simp [Conf.Running,hg,hd] at hr
  | enter hg =>
    refine ⟨rfl,by simp [Conf.work],fun _ x hx => ?_⟩
    simp [Conf.setList,hx]

/-- A `Collect` begins inside another one. -/
theorem Move.nests (hm : Move c p l (.call .collect) c' p' l') (hi : Inv c p l)
    (hd : c.deleting ≠ []) : c'.failed = c.failed ∧ 2 ≤ c'.depth := by
  obtain ⟨f,fs,hd⟩ := List.exists_cons_of_ne_nil hd
  cases hm with
  | call hg hc hdel hptrs => exact absurd rfl hc
  | empty hg hgc =>
    -- the node whose destructor runs is still on the gc list
    have hc := hi.gcChain
    rw [hgc] at hc
    have hm := hi.place.mem (n:=f.gcNode) (by simp [Conf.halves,hd])
    simp [hc.eq_nil] at hm
  | enter hg =>
    refine ⟨rfl,?_⟩
    simp [Conf.depth,Conf.setList,hd]

/-- A `Collect` inside another one does not return. -/
theorem Move.depth (hm : Move c p l a c' p' l') (h : 2 ≤ c.depth) :
    c'.failed = true ∨ 2 ≤ c'.depth := by
  cases hm with
  | call hg hc hdel hptrs => exact .inr h
  | empty hg hgc => exact .inr h
  | enter hg =>
    right
    simp only [Conf.depth,hg,Option.elim_none] at h
    simp [Conf.depth,Conf.setList]
    omega
  | finish hg hl hd => simp [Conf.depth,hg,hd] at h
  | stuck hg hh => exact .inl rfl
  | skip hg hl =>
    right
    simpa [Conf.depth,hg] using h
  | delete hg hl h0 hx =>
    right
    simpa [Conf.depth,hg] using h
  | resume hg hd hdel hptrs =>
    right
    simpa [Conf.depth,hg,hd] using h

omit [DecidableEq H] in
theorem running_of_depth (h : 2 ≤ c.depth) : c.Running := by
  by_contra hr
  obtain ⟨hg,hd⟩ : c.gcNode = none ∧ c.deleting = [] := by simpa [Conf.Running] using hr
  simp [Conf.depth,hg,hd] at h

/-- The steps of `Collect` lead a nested one to the assertion. -/
theorem nested_fails (hi : Inv c p l) (hd : 2 ≤ c.depth) (hf : c.failed = false) :
    ∃ as c', (∀ a ∈ as, a.own) ∧ (system H).exec c as = some c' ∧ c'.failed = true := by
  induction hn : c.work l using Nat.strong_induction_on generalizing c p l with
  | _ n ih =>
    subst hn
    obtain ⟨a,c₁,ha,hc₁⟩ := own_enabled hf (running_of_depth hd)
    obtain ⟨p₁,l₁,hm,hi₁⟩ := fire_move hi hc₁
    cases hf₁ : c₁.failed with
    | true => exact ⟨[a],c₁,by simpa using ha,by simp [System.exec,hc₁],hf₁⟩
    | false =>
      have hwork := (hm.work ha).resolve_left (by simp [hf₁])
      have hdepth := (hm.depth hd).resolve_left (by simp [hf₁])
      obtain ⟨as,c',has,hex,hf'⟩ := ih _ hwork hi₁ hdepth hf₁ rfl
      exact ⟨a::as,c',by simpa [ha] using has,by simp [System.exec,hc₁,hex],hf'⟩

theorem nested_exec {as : List (Label H)} (hi : Inv c p l) (hd : 2 ≤ c.depth)
    (h : (system H).exec c as = some c') : c'.failed = true ∨ 2 ≤ c'.depth := by
  induction as generalizing c p l with
  | nil =>
    obtain rfl := Option.some.inj h
    exact .inr hd
  | cons a as ih =>
    obtain ⟨c₁,hf,h⟩ := Option.bind_eq_some_iff.mp h
    obtain ⟨p₁,l₁,hm,hi₁⟩ := fire_move hi hf
    rcases hm.depth hd with hf₁ | hd₁
    · -- nothing is done after a failure
      cases as with
      | nil =>
        obtain rfl := Option.some.inj h
        exact .inl hf₁
      | cons b as => cases b <;> simp [System.exec,system,fire,hf₁] at h
    · exact ih hi₁ hd₁ h

end Runs

/-- What holds after the steps `as` of an outermost `Collect` that was called in `c`: what some
node protected at the call is not deleted, and the steps that it takes itself are bounded, and
there is a next one until it returns. -/
structure Collecting [DecidableEq H] (c : Conf H) (p : Pool) (as : List (Label H)) (c' : Conf H) :
    Prop where
  unprotected : ∃ ds, c'.base.list.deleted = c.base.list.deleted++ds ∧
    ∀ x ∈ ds, ¬Protects c.base.list p.fixed x
  steps : as.countP Label.own ≤ 2*p.gc.length+1
  next : c'.Running → ∃ a c'', a.own ∧ (system H).fire c' a = some c''

/-- `Collect` never returns, and its own steps lead to an assertion that fails. -/
structure Doomed [DecidableEq H] (c : Conf H) : Prop where
  kept : ∀ as c', (system H).exec c as = some c' → c'.failed = true ∨ 2 ≤ c'.depth
  fails : ∃ as c', (∀ a ∈ as, a.own) ∧ (system H).exec c as = some c' ∧ c'.failed = true

variable [DecidableEq H]

/-- As long as no destructor calls `Collect`, every state is safe and so is every outermost
`Collect`, whatever its destructors do; a `Collect` that a destructor does call is doomed. -/
theorem reentrant_safe {c : Conf H} (h : (system H).ReachableVia NotNested c) :
    ∃ p, Safe c p ∧
      (c.deleting = [] → ∀ c₁ as c', (system H).fire c (.call .collect) = some c₁ →
        (system H).execVia During c₁ as = some c' → Collecting c p as c') ∧
      (c.deleting ≠ [] → ∀ c₁, (system H).fire c (.call .collect) = some c₁ → Doomed c₁) := by
  obtain ⟨p,l,hi,ho⟩ := reachable_outermost h
  refine ⟨p,hi.safe ho.asserted,fun hd c₁ as c' hf hex => ?_,fun hd c₁ hf => ?_⟩
  · obtain ⟨p₁,l₁,hm,hi₁⟩ := fire_move (a:=.call .collect) hi hf
    have ho₁ := hm.outermost ho fun _ => hd
    obtain ⟨hdel,hwork,hptrs⟩ := hm.begins hd
    obtain ⟨p',l',hi',ho',hcount,ds,hds,hx⟩ := exec_during hi₁ ho₁ hptrs hex
    refine ⟨⟨ds,by rw [hds,hdel],fun x hm hp => (hx x hm).2 ?_⟩,by omega,fun hr => ?_⟩
    · exact mem_hazards.mpr ⟨(hx x hm).1,hp⟩
    · exact own_enabled ho'.asserted hr
  · obtain ⟨p₁,l₁,hm,hi₁⟩ := fire_move (a:=.call .collect) hi hf
    obtain ⟨hfail,hdepth⟩ := hm.nests hi hd
    exact ⟨fun as c' hex => nested_exec hi₁ hdepth hex,
      nested_fails hi₁ hdepth (hfail.trans ho.asserted)⟩

/-- The destructor of the object at 100 protects another object and passes it to `Delete`. -/
def reentrySchedule : List (Label Party) :=
  [.call (.construct 0),.call (.acquire 0 100),.call (.delete 0),.call .collect,.round,
    .call (.construct 1),.call (.acquire 1 200),.call (.delete 1)]

def reentryConf : Conf Party :=
  ((system Party).execVia NotNested start reentrySchedule).getD start

theorem reentryConf_reachable : (system Party).ReachableVia NotNested reentryConf :=
  .execViaD reentrySchedule (.init rfl)

example : (reentryConf.base.list.deleted,reentryConf.base.retired) = ([100],[100,200]) := by decide

/-- Just before `Collect` is called. -/
def queuedConf : Conf Party :=
  ((system Party).execVia NotNested start (reentrySchedule.take 3)).getD start

theorem queuedConf_reachable : (system Party).ReachableVia NotNested queuedConf :=
  .execViaD (reentrySchedule.take 3) (.init rfl)

def collectConf : Conf Party := ((system Party).fire queuedConf (.call .collect)).getD start

theorem reentrant_safe_reentryConf :
    (∃ p, Safe queuedConf p ∧ Collecting queuedConf p (reentrySchedule.drop 4) reentryConf) ∧
      ∃ p, Safe reentryConf p ∧ ∀ c₁,
        (system Party).fire reentryConf (.call .collect) = some c₁ → Doomed c₁ := by
  obtain ⟨p,hp,hcollect,-⟩ := reentrant_safe queuedConf_reachable
  obtain ⟨q,hq,-,hnested⟩ := reentrant_safe reentryConf_reachable
  exact ⟨⟨p,hp,hcollect (by decide) collectConf _ _ rfl rfl⟩,q,hq,hnested (by decide)⟩

/-- The destructor calls `Collect`, which finds its node without an object. -/
def nestedSchedule : List (Label Unit) :=
  [.call (.construct ()),.call (.acquire () 100),.call (.delete ()),.call .collect,.round,
    .call .collect,.round]

theorem not_reentrant_safe :
    ∃ c, (system Unit).exec start nestedSchedule = some c ∧ (system Unit).Reachable c ∧
      c.failed = true ∧ ¬∃ p, Safe c p := by
  have hex : (system Unit).exec start nestedSchedule =
      some (((system Unit).exec start nestedSchedule).getD start) := rfl
  have hf : (((system Unit).exec start nestedSchedule).getD start).failed = true := rfl
  refine ⟨_,hex,.execD nestedSchedule (.init rfl),hf,?_⟩
  rintro ⟨p,hs⟩
  exact Bool.false_ne_true (hs.asserted.symm.trans hf)

end Reentrant
end Benedias
