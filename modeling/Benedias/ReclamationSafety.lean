import Benedias.ReclamationSteps
import Benedias.SharedListIntegrity

/-! No object is deleted that a node guards, in a run in which no object is queued late; and a run
in which one is. -/
namespace Benedias
namespace SharedList

open Interleaving LinkedChain BinarySearch HazardPointerList

variable {T L : Type}

theorem Knows.same {c d : Conf T L} {p : Pc L} (hk : Knows c p) (hm : d.mem = c.mem)
    (hc : d.cargo = c.cargo) (hv : d.valid = c.valid) : Knows d p := by
  have hs : ∀ n, SameAt c d n := fun n => ⟨by rw [hm],by rw [hm],by rw [hc]⟩
  refine hk.frame (fun n _ => hs n) (fun g _ _ _ => hs g) fun g obj _ m hg => ?_
  rwa [Guards,hv,hm] at hg

section Step

variable [DecidableEq T] {c : Conf T L} {place : ℕ → Place T} {t u : T} {p : Pc L} {w : Write}
  {n m : ℕ} {l : List ℕ}

theorem Reclaims.queued_write (hr : Reclaims c) (hi : Inv c place)
    (h : (c.pc t).next c = some (w,p)) (hn : n ∈ (c.write t w).gc)
    (hd : ∀ u nx obj, Function.update c.pc t p u ≠ .gcDelete n nx obj) :
    ((c.write t w).mem.node n).gcPointer = (c.write t w).cargo n := by
  rcases mem_gc_write hn with hgc | rfl
  · by_cases ht : w.touches c = some n
    · obtain ⟨nx,obj,hp | hp⟩ := hi.gc_touched h hgc ht
      · rw [hp] at h
        cases h
        exact absurd (Function.update_self t _ _) (hd t nx obj)
      · have hk := hr.knows t
        rw [hp] at h hk
        cases h
        exact hk.2.trans (Function.update_self n 0 c.cargo).symm
    · rw [gcPointer_write ht,cargo_write ht]
      refine hr.queued n hgc fun u nx obj hu => ?_
      by_cases hut : u = t
      · subst hut
        rw [hu] at h
        cases h
        exact ht rfl
      · exact hd u nx obj ((Function.update_of_ne hut _ _).trans hu)
  · obtain ⟨f,hp⟩ := next_push h
    have hk := hr.knows t
    rw [hp] at hk
    exact hk rfl

theorem Reclaims.valid_write (hr : Reclaims c) (hi : Inv c place)
    (h : (c.pc t).next c = some (w,p)) (hv : (c.write t w).valid m) : m ∈ (c.write t w).fixed := by
  rw [mem_fixed_write]
  right
  rcases guards_write hi.shared hr.valid ⟨hv,rfl⟩ with hg | ⟨rfl,-⟩
  · exact hr.valid m hg.1
  · obtain ⟨l,hp⟩ := next_validate h
    refine hi.fixed_of_held (hi.own t m ?_) ?_ <;> rw [hp]
    · rfl
    · exact fun he => nomatch he

theorem Reclaims.knows_other (hr : Reclaims c) (hi : Inv c place)
    (h : (c.pc t).next c = some (w,p)) (hu : u ≠ t) : Knows (c.write t w) (c.pc u) := by
  have hsame : ∀ n, w.touches c ≠ some n → SameAt c (c.write t w) n := fun n hn =>
    ⟨pointer_write hn,gcPointer_write hn,cargo_write hn⟩
  refine (hr.knows u).frame (fun n hn => hsame n ?_) (fun g nx obj hg => hsame g ?_) ?_
  · exact hi.not_touched h hu (hi.own u n hn)
  · intro ht
    have hcu : (c.pc u).critical ∧ g ∈ c.gc := by
      have hp := hi.pos u
      rcases hg with hg | hg | hg <;> rw [hg] at hp ⊢ <;> exact ⟨rfl,hp.mem⟩
    have hct : (c.pc t).critical := by
      obtain ⟨nx,obj,hp | hp⟩ := hi.gc_touched h hcu.2 ht <;> rw [hp] <;> rfl
    exact hu (hi.critical_unique hcu.1 hct)
  · intro g obj hd m hm
    refine hr.guards hi.shared h (fun l => ?_) hm
    have h0 := hd.ne_zero
    rw [hd.cargo] at h0 ⊢
    exact hr.loc g l h0

theorem Reclaims.mono (hr : Reclaims c) (hi : Inv c place) (h : (c.pc t).next c = some (w,p))
    {q q' : List ℕ} (hc : Covered c q l) (hq : ∀ n ∈ q', n ∈ q)
    (hv : ∀ x ∈ c.mem.allHazPtrs, x ∈ (c.write t w).mem.allHazPtrs) :
    Covered (c.write t w) q' l :=
  hc.mono (fun n hn h0 => ⟨hq n hn,cargo_write_ne h0⟩)
    (fun _ _ h0 _ hm => hr.guards_cargo hi.shared h h0 hm) hv fun _ hm => hm

theorem Reclaims.scan_other (hr : Reclaims c) (hi : Inv c place)
    (h : (c.pc t).next c = some (w,p)) (hw : w.popOk c)
    (hlate : ∀ n ∈ w.queues, ∀ u, ∀ l ∈ (c.pc u).unread c, ∀ m ∈ c.fixed,
      Guards c m (c.cargo n) → c.cargo n ∈ c.mem.allHazPtrs ∨ m ∈ l) (hu : u ≠ t)
    (hl : (c.pc u).unread (c.write t w) = some l) :
    Covered (c.write t w) (c.write t w).gc l := by
  have hnl := hi.not_locked h hu (unread_critical hl)
  have hv := allHazPtrs_write (c:=c) (t:=t) hnl
  have hl : (c.pc u).unread c = some l := by
    rcases fixed_write (c:=c) (t:=t) (w:=w) with he | ⟨n,rfl,he⟩
    · exact (unread_same he).symm.trans hl
    · exact (unread_cons (hi.pos u) he (hi.adding t n (next_add h))).symm.trans hl
  have hc := hr.scan u l hl
  rcases gc_write (c:=c) (t:=t) hnl with ⟨he,-⟩ | ⟨n,rfl,he⟩
  · exact hr.mono hi h hc (by simp [he]) (by simp [hv])
  · have hcn : Covered c (n::c.gc) l := by
      intro k hk
      rcases List.mem_cons.mp hk with rfl | hk
      · exact fun _ m hm => hlate k rfl u l hl m (hr.valid m hm.1) hm
      · exact hc k hk
    exact hr.mono hi h hcn (by simp [he]) (by simp [hv])

theorem Reclaims.walk_other (hr : Reclaims c) (hi : Inv c place)
    (h : (c.pc t).next c = some (w,p)) (hw : w.popOk c) (hu : u ≠ t)
    (hl : (c.pc u).left (c.write t w) = some l) : Covered (c.write t w) l [] := by
  have hnl := hi.not_locked h hu (left_critical hl)
  have hv := allHazPtrs_write (c:=c) (t:=t) hnl
  have hl : (c.pc u).left c = some l := by
    rcases gc_write (c:=c) (t:=t) hnl with ⟨he,-⟩ | ⟨n,rfl,he⟩
    · exact (left_same he).symm.trans hl
    · have hn : n ∈ c.held t := (hi.ok h hw).1
      exact (left_cons hi.shared (hi.pos u) he (hi.shared.held_gc hn)
        (hi.shared.ne_endNode (hi.shared.born_held hn))).symm.trans hl
  exact hr.mono hi h (hr.walk u l hl) (fun _ hn => hn) (by simp [hv])

theorem Reclaims.scan_self (hr : Reclaims c) (hi : Inv c place)
    (h : (c.pc t).next c = some (w,p)) (hl : p.unread (c.write t w) = some l) :
    Covered (c.write t w) (c.write t w).gc l :=
  scan_next hi.shared (hi.pos t) (hr.scan t) hr.valid h hl

theorem Reclaims.walk_self (hr : Reclaims c) (hi : Inv c place)
    (h : (c.pc t).next c = some (w,p)) (hl : p.left (c.write t w) = some l) :
    Covered (c.write t w) l [] := by
  have hv : ∀ x ∈ c.mem.allHazPtrs, x ∈ (c.write t w).mem.allHazPtrs := by
    rw [left_allHazPtrs h hl]
    exact fun _ hx => hx
  rcases left_next hi.shared (hi.pos t) (hi.own t) h hl with ⟨hp,rfl⟩ | ⟨l',hl',hsub⟩
  · exact hr.mono hi h (hr.scan t [] (by rw [hp]; rfl)) (fun _ hn => hn) hv
  · exact hr.mono hi h (hr.walk t l' hl') hsub hv

theorem Reclaims.sorted_write (hr : Reclaims c) (hi : Inv c place)
    (h : (c.pc t).next c = some (w,p)) (u : T)
    (hs : (Function.update c.pc t p u).sorted (c.write t w)) :
    (c.write t w).mem.allHazPtrs.Pairwise (· ≤ ·) := by
  by_cases hut : u = t
  · subst hut
    rw [Function.update_self] at hs
    rcases hs with rfl | hs
    · obtain rfl := next_gcHead h rfl
      exact List.pairwise_insertionSort _ _
    · obtain ⟨l,hl⟩ := Option.isSome_iff_exists.mp hs
      rw [left_allHazPtrs h hl]
      refine hr.sorted u ?_
      rcases left_next hi.shared (hi.pos u) (hi.own u) h hl with ⟨hp,-⟩ | ⟨l',hl',-⟩
      · exact .inl hp
      · exact .inr (Option.isSome_of_eq_some hl')
  · rw [Function.update_of_ne hut] at hs
    have hc : (c.pc u).critical := by
      rcases hs with hp | hs
      · rw [hp]
        rfl
      · obtain ⟨l,hl⟩ := Option.isSome_iff_exists.mp hs
        exact left_critical hl
    rw [allHazPtrs_write (hi.not_locked h hut hc)]
    refine hr.sorted u (hs.imp_right fun hl => ?_)
    rwa [left_isSome] at hl

theorem Reclaims.knows_self (hr : Reclaims c) (hi : Inv c place)
    (h : (c.pc t).next c = some (w,p)) : Knows (c.write t w) p := by
  refine knows_next (hr.knows t) h (fun g nx hp => ?_) fun g nx obj hp => ?_
  · have hpos := hi.pos t
    rw [hp] at hpos
    refine hr.queued g hpos.mem fun u nx' obj hu => ?_
    have hut : u = t := hi.critical_unique (by rw [hu]; rfl) (by rw [hp]; rfl)
    rw [hut,hp] at hu
    cases hu
  · have hpos := hi.pos t
    have hw := hr.walk t
    rw [hp] at hpos hw
    obtain ⟨q,hq,-⟩ := (hi.shared.gcChain.dropWhile (.inr hpos.mem)).eq_cons
      (hi.shared.ne_endNode (hi.shared.born_gc hpos.mem))
    have hg : g ∈ c.gc.dropWhile (· ≠ g) := hq ▸ List.mem_cons_self
    refine ⟨fun k hk => ?_,hr.sorted t (.inr ?_)⟩
    · obtain rfl := List.mem_singleton.mp hk
      exact hw _ rfl k hg
    · rw [hp]
      rfl

theorem Reclaims.step (hr : Reclaims c) (hi : Inv c place) (h : (c.pc t).next c = some (w,p))
    (hw : w.popOk c) (hlate : ∀ n ∈ w.queues, ∀ u, ∀ l ∈ (c.pc u).unread c, ∀ m ∈ c.fixed,
      Guards c m (c.cargo n) → c.cargo n ∈ c.mem.allHazPtrs ∨ m ∈ l) :
    Reclaims ((c.write t w).setPc t p) where
  loc n l hn := by
    have he : (c.write t w).cargo n = c.cargo n := cargo_write_ne hn
    show (c.write t w).loc l ≠ (c.write t w).cargo n
    rw [loc_write,he]
    exact hr.loc n l (he ▸ hn)
  valid m hv := hr.valid_write hi h hv
  born n hn := by
    have he : (c.write t w).cargo n = c.cargo n := cargo_write_ne hn
    exact (hr.born n (he ▸ hn)).trans_le fresh_write
  queued n hn hd := by
    simp only [Conf.setPc,pc_write] at hd
    exact hr.queued_write hi h hn hd
  knows u := by
    suffices hk : Knows (c.write t w) (((c.write t w).setPc t p).pc u) from hk.same rfl rfl rfl
    simp only [Conf.setPc,pc_write]
    by_cases hut : u = t
    · subst hut
      rw [Function.update_self]
      exact hr.knows_self hi h
    · rw [Function.update_of_ne hut]
      exact hr.knows_other hi h hut
  scan u l hl := by
    replace hl : (Function.update c.pc t p u).unread (c.write t w) = some l := by
      rw [← pc_write (t:=t) (w:=w)]
      exact (unread_same rfl).symm.trans hl
    by_cases hut : u = t
    · subst hut
      rw [Function.update_self] at hl
      exact hr.scan_self hi h hl
    · rw [Function.update_of_ne hut] at hl
      exact hr.scan_other hi h hw hlate hut hl
  walk u l hl := by
    replace hl : (Function.update c.pc t p u).left (c.write t w) = some l := by
      rw [← pc_write (t:=t) (w:=w)]
      exact (left_same rfl).symm.trans hl
    by_cases hut : u = t
    · subst hut
      rw [Function.update_self] at hl
      exact hr.walk_self hi h hl
    · rw [Function.update_of_ne hut] at hl
      exact hr.walk_other hi h hw hut hl
  sorted u hs := by
    refine hr.sorted_write hi h u ?_
    simp only [Conf.setPc,pc_write] at hs
    exact hs.imp_right fun hl => by rwa [left_isSome] at hl

end Step

section Fire

variable {c : Conf T L} {place : ℕ → Place T} {t : T} {p : Pc L} {l : List ℕ} {n : ℕ}

theorem left_mem (h : p.left c = some l) (hn : n ∈ l) : n ∈ c.gc := by
  have hsub : ∀ m, n ∈ c.gc.dropWhile (· ≠ m) → n ∈ c.gc :=
    fun m hm => (List.dropWhile_suffix _).subset hm
  cases p with
  | pushCheck m head f | pushLoad m head f | pushStore m top head f | pushCas m head f
  | pushFailed m top head f =>
    cases f with
    | collect nx =>
      cases h
      exact hsub _ hn
    | release | delete | prime left => cases h
  | gcNext | gcObj | gcPointer | gcStore | gcDelete | remTest | remEnd | remNext | remExit
  | remExpected | remDesired | remCas | remClear | gcEnd =>
    cases h
    exact hsub _ hn
  | _ => cases h

theorem reclaims_start : Reclaims (start : Conf T L) := by
  constructor <;> simp [start,Knows,Pc.unread,Pc.left,Pc.sorted]

theorem Reclaims.store [DecidableEq L] (hr : Reclaims c) {l : L} {obj : ℕ}
    (hp : Protocol c (.store l obj)) :
    Reclaims { c with loc := Function.update c.loc l obj } where
  loc n k h0 := by
    by_cases hk : k = l
    · subst hk
      simp only [Function.update_self]
      rintro rfl
      exact hp.elim h0 fun hn => hn ⟨n,hr.born n h0,rfl⟩
    · simp only [Function.update_of_ne hk]
      exact hr.loc n k h0
  valid := hr.valid
  born := hr.born
  queued := hr.queued
  knows t := (hr.knows t).same rfl rfl rfl
  scan t l h := hr.scan t l ((unread_same rfl).symm.trans h)
  walk t l h := hr.walk t l ((left_same rfl).symm.trans h)
  sorted t h := hr.sorted t (h.imp_right fun hl => by rwa [left_isSome] at hl)

variable [DecidableEq T]

/-- A thread calls a function; `Delete` sets what its node is queued with. -/
theorem Reclaims.enter {d : Conf T L} (hr : Reclaims c) (hi : Inv c place) (ht : c.pc t = .idle)
    (hpc : d.pc = Function.update c.pc t p) (hm : d.mem = c.mem) (hgc : d.gc = c.gc)
    (hf : d.fixed = c.fixed) (hv : d.valid = c.valid)
    (hcargo : ∀ n, n ∉ c.held t → d.cargo n = c.cargo n)
    (hloc : ∀ n l, d.cargo n ≠ 0 → d.loc l ≠ d.cargo n)
    (hborn : ∀ n, d.cargo n ≠ 0 → n < c.mem.fresh) (hk : Knows d p) (hp : ¬p.critical) :
    Reclaims d := by
  have hgc' : ∀ n ∈ c.gc, d.cargo n = c.cargo n := fun n hn =>
    hcargo n fun hh => hi.shared.held_gc hh hn
  have hg : ∀ m x, Guards d m x ↔ Guards c m x := fun m x => by simp [Guards,hm,hv]
  have hcov : ∀ q l, (∀ n ∈ q, n ∈ c.gc) → Covered c q l → Covered d q l := by
    intro q l hq hc
    refine hc.mono (fun n hn _ => ⟨hn,hgc' n (hq n hn)⟩) (fun _ _ _ m hm => (hg m _).mp hm) ?_
      fun _ h => h
    simp [hm]
  have hpcs : ∀ u, u = t ∧ d.pc u = p ∨ u ≠ t ∧ d.pc u = c.pc u := by
    intro u
    rw [hpc]
    by_cases hut : u = t
    · subst hut
      exact .inl ⟨rfl,Function.update_self _ _ _⟩
    · exact .inr ⟨hut,Function.update_of_ne hut _ _⟩
  constructor
  case loc => exact hloc
  case valid =>
    rw [hv,hf]
    exact hr.valid
  case born =>
    rw [hm]
    exact hborn
  case queued =>
    intro n hn hd
    rw [hgc] at hn
    rw [hm,hgc' n hn]
    refine hr.queued n hn fun u nx obj hu => ?_
    rcases hpcs u with ⟨rfl,-⟩ | ⟨-,he⟩
    · cases ht.symm.trans hu
    · exact hd u nx obj (he.trans hu)
  case knows =>
    intro u
    rcases hpcs u with ⟨-,he⟩ | ⟨hut,he⟩
    · exact he ▸ hk
    · have hsame : ∀ n, d.cargo n = c.cargo n → SameAt c d n := fun n hn =>
        ⟨by rw [hm],by rw [hm],hn⟩
      rw [he]
      refine (hr.knows u).frame (fun n hn => hsame n (hcargo n fun hh => ?_))
        (fun g nx obj hq => hsame g (hgc' g ?_)) fun _ _ _ m hm => (hg m _).mp hm
      · exact hut (hi.shared.held_unique (hi.own u n hn) hh)
      · have hpos := hi.pos u
        rcases hq with hq | hq | hq <;> rw [hq] at hpos <;> exact hpos.mem
  case scan =>
    intro u l hl
    rcases hpcs u with ⟨-,he⟩ | ⟨-,he⟩
    · exact absurd (unread_critical (he ▸ hl)) hp
    · rw [he,unread_same hf] at hl
      rw [hgc]
      exact hcov _ _ (fun _ hn => hn) (hr.scan u l hl)
  case walk =>
    intro u l hl
    rcases hpcs u with ⟨-,he⟩ | ⟨-,he⟩
    · exact absurd (left_critical (he ▸ hl)) hp
    · rw [he,left_same hgc] at hl
      exact hcov _ _ (fun n hn => left_mem hl hn) (hr.walk u l hl)
  case sorted =>
    intro u hs
    rw [hm]
    rcases hpcs u with ⟨-,he⟩ | ⟨-,he⟩
    · rw [he] at hs
      rcases hs with rfl | hs
      · exact absurd rfl hp
      · obtain ⟨l,hl⟩ := Option.isSome_iff_exists.mp hs
        exact absurd (left_critical hl) hp
    · rw [he] at hs
      exact hr.sorted u (hs.imp_right fun hl => by rwa [left_isSome] at hl)

theorem Reclaims.call (hr : Reclaims c) (hi : Inv c place) (ht : c.pc t = .idle) (hk : Knows c p)
    (hp : ¬p.critical) : Reclaims (c.setPc t p) :=
  hr.enter hi ht rfl rfl rfl rfl rfl (fun _ _ => rfl) hr.loc hr.born (hk.same rfl rfl rfl) hp

theorem Reclaims.delete (hr : Reclaims c) (hi : Inv c place) (ht : c.pc t = .idle)
    (hn : n ∈ c.held t) {drop : Bool} (hp : Protocol c (.delete t n drop)) :
    Reclaims ({ c with cargo := Function.update c.cargo n (c.mem.node n).pointer }.setPc t
      (.delGc n drop)) := by
  refine hr.enter hi ht rfl rfl rfl rfl rfl (fun m hm => ?_) (fun m l h0 => ?_) (fun m h0 => ?_)
    (Function.update_self n _ c.cargo).symm (by simp [Pc.critical])
  · exact Function.update_of_ne (ne_of_mem_of_not_mem hn hm).symm _ _
  all_goals
    simp only [Conf.setPc] at h0 ⊢
    by_cases hmn : m = n
  · subst hmn
    rw [Function.update_self] at h0 ⊢
    exact (hp.resolve_left h0).2.1 l
  · rw [Function.update_of_ne hmn] at h0 ⊢
    exact hr.loc m l h0
  · exact hmn ▸ ((hi.shared.born n).mp (hi.shared.born_held hn)).2.2
  · rw [Function.update_of_ne hmn] at h0
    exact hr.born m h0

def Careful (c : Conf T L) (a : Label T L) : Prop :=
  Protocol c a ∧ Undisturbed c a ∧ NoLateQueue c a

variable [DecidableEq L]

theorem fire_reclaims {c' : Conf T L} {a : Label T L} (hr : Reclaims c) (hi : Inv c place)
    (h : fire c a = some c') (ha : Careful c a) : Reclaims c' := by
  obtain ⟨hp,hu,hlate⟩ := ha
  cases a with
  | step t =>
    simp only [fire,Option.map_eq_some_iff] at h
    obtain ⟨⟨w,p⟩,hn,rfl⟩ := h
    simp only [NoLateQueue,Undisturbed,PopCurrent,Conf.writeOf,hn] at hlate hu
    exact hr.step hi hn hu.2 hlate
  | store l obj =>
    cases h
    exact hr.store hp
  | acquire t n l | validate t n l | clear t n | release t n drop =>
    simp only [fire,Conf.call] at h
    split at h <;> cases h
    next hn => exact hr.call hi hn.1 trivial (by simp [Pc.critical])
  | delete t n drop =>
    simp only [fire,Conf.call] at h
    split at h <;> cases h
    next hn => exact hr.delete hi hn.1 hn.2 hp
  | acquireNode t | collect t =>
    simp only [fire] at h
    split at h <;> cases h
    next ht => exact hr.call hi ht trivial (by simp [Pc.critical])
  | prime t k =>
    simp only [fire] at h
    split at h <;> cases h
    next ht => exact hr.call hi ht knows_primeFrom (by simp)

theorem reachable_reclaims (hr : (system T L).ReachableVia Careful c) :
    Reclaims c ∧ ∃ place, Inv c place := by
  refine hr.invariant (I:=fun c => Reclaims c ∧ ∃ place, Inv c place) (fun s hs => ?_)
    fun s a s' _ ⟨hi,place,hp⟩ ha hf => ?_
  · obtain rfl : s = start := hs
    exact ⟨reclaims_start,_,inv_start⟩
  · exact ⟨fire_reclaims hi hp hf ha,fire_inv hp hf ha.2.1⟩

/-- Whatever `Collect` is about to delete, no node holds a validated pointer to it. -/
def Safe (c : Conf T L) : Prop :=
  ∀ t n obj p, (c.pc t).next c = some (.delete n obj,p) → ∀ m, ¬Guards c m obj

theorem reclamation_safe (hr : (system T L).ReachableVia Careful c) : Safe c := by
  obtain ⟨hr,-⟩ := reachable_reclaims hr
  intro t n obj p h
  obtain ⟨nx,hp⟩ := next_delete h
  have hk := hr.knows t
  rw [hp] at hk
  exact hk.1.unguarded

end Fire

section Decidable

variable [DecidableEq L] (c : Conf T L)

instance (obj : ℕ) : Decidable (Retired c obj) :=
  inferInstanceAs (Decidable (∃ n < c.mem.fresh, c.cargo n = obj))

instance (node obj : ℕ) : Decidable (Guards c node obj) := inferInstanceAs (Decidable (_ ∧ _))

instance [Fintype L] : (a : Label T L) → Decidable (Protocol c a)
  | .delete _ node _ =>
    inferInstanceAs (Decidable ((c.mem.node node).pointer = 0 ∨ c.valid node ∧
      (∀ l, c.loc l ≠ (c.mem.node node).pointer) ∧ ¬Retired c (c.mem.node node).pointer))
  | .store _ obj => inferInstanceAs (Decidable (obj = 0 ∨ ¬Retired c obj))
  | .acquireNode _ | .prime _ _ | .acquire _ _ _ | .validate _ _ _ | .clear _ _ | .release _ _ _
  | .collect _ | .step _ => .isTrue trivial

instance [Fintype T] (a : Label T L) : Decidable (NoLateQueue c a) :=
  inferInstanceAs (Decidable (∀ n ∈ (c.writeOf a).queues, ∀ u, ∀ l ∈ (c.pc u).unread c,
    ∀ m ∈ c.fixed, Guards c m (c.cargo n) → c.cargo n ∈ c.mem.allHazPtrs ∨ m ∈ l))

instance [DecidableEq T] [Fintype T] [Fintype L] (a : Label T L) : Decidable (Careful c a) :=
  inferInstanceAs (Decidable (_ ∧ _ ∧ _))

end Decidable

/-- Thread 2 queues object 5 with node 2 and keeps node 3; thread 1 has node 4; object 7 is stored,
and thread 0 runs `Collect` until it has read all nodes. -/
def scanSchedule : List (Label Party Unit) :=
  List.flatten [.acquireNode 2::steps 2 7,.acquireNode 2::steps 2 7,.acquireNode 1::steps 1 7,
    [.store () 5],.acquire 2 2 ()::steps 2 5,.validate 2 2 ()::steps 2 2,
    [.store () 0],.delete 2 2 true::steps 2 13,[.store () 7],.collect 0::steps 0 10]

/-- Thread 1 acquires object 7 and finds it in its location. -/
def guardSchedule : List (Label Party Unit) :=
  List.flatten [.acquire 1 4 ()::steps 1 5,.validate 1 4 ()::steps 1 2]

def safeSchedule : List (Label Party Unit) :=
  List.flatten [scanSchedule,guardSchedule,steps 0 5]

def safeConf : Conf Party Unit :=
  ((system Party Unit).execVia Careful start safeSchedule).getD start

example : safeConf.pc 0 = .gcDelete 2 1 5 ∧ Guards safeConf 4 7 := by decide +kernel

theorem reclamation_safe_safeConf : Safe safeConf :=
  reclamation_safe (.execViaD safeSchedule (.init rfl))

/-- Thread 2 removes object 7 from its location and queues it, before `Collect` reads the head of
the gc list. -/
def lateSchedule : List (Label Party Unit) :=
  List.flatten [scanSchedule,guardSchedule,.acquire 2 3 ()::steps 2 5,.validate 2 3 ()::steps 2 2,
    [.store () 0],.delete 2 3 true::steps 2 13,steps 0 5]

def lateConf : Conf Party Unit :=
  ((system Party Unit).execVia (fun c a => Protocol c a ∧ Undisturbed c a) start
    lateSchedule).getD start

theorem not_reclamation_safe :
    ∃ c : Conf Party Unit,
      (system Party Unit).ReachableVia (fun c a => Protocol c a ∧ Undisturbed c a) c ∧
        (∀ t, c.pc t ≠ .failed) ∧ ¬Safe c := by
  refine ⟨lateConf,.execViaD lateSchedule (.init rfl),by decide +kernel,fun h => ?_⟩
  have hp : lateConf.pc 0 = .gcDelete 3 2 7 := by decide +kernel
  exact h 0 3 7 _ (by rw [hp]; rfl) 4 (by decide +kernel)

end SharedList
end Benedias
