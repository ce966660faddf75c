import Benedias.ClientNumbers

/-! One pass of `CollectorThread::Collect`: the cursor `curr_id` runs through the numbers of the
clients in ascending order, however the vectors change between two looks at them. -/
namespace Benedias
namespace CollectorThread

open Interleaving

variable {T C : Type}

section Steps

variable [DecidableEq C]

/-- What the collector does inside of a pass. -/
inductive Walk (s : Conf T C) (ok left : Bool) : Conf T C → Prop
  | lock {curr : ℕ} {pending : Bool} (hp : s.collector = .lock curr pending)
      (hl : s.dataLock = none) :
      Walk s ok left { s with dataLock := some .collector, collector := .test curr pending 0 }
  | next {curr ix : ℕ} {pending : Bool} (hp : s.collector = .test curr pending ix)
      (hx : ix < s.clientsID.length) :
      Walk s ok left { s with collector := .ident curr pending ix }
  | done {curr ix : ℕ} {pending : Bool} (hp : s.collector = .test curr pending ix)
      (hx : s.clientsID.length ≤ ix) :
      Walk s ok left { s with collector := .unlock curr pending none }
  | skip {curr ix id : ℕ} {pending : Bool} (hp : s.collector = .ident curr pending ix)
      (hx : s.clientsID[ix]? = some id) (hid : id ≤ curr) :
      Walk s ok left { s with collector := .test curr pending (ix+1) }
  | take {curr ix id : ℕ} {pending : Bool} (hp : s.collector = .ident curr pending ix)
      (hx : s.clientsID[ix]? = some id) (hid : curr < id) :
      Walk s ok left { s with collector := .deletes id pending ix }
  | empty {curr ix : ℕ} {pending : Bool} {c : C} (hp : s.collector = .deletes curr pending ix)
      (hx : s.clients[ix]? = some c) (hd : s.haveDeletes c = false) :
      Walk s ok left { s with collector := .test curr pending (ix+1) }
  | full {curr ix : ℕ} {pending : Bool} {c : C} (hp : s.collector = .deletes curr pending ix)
      (hx : s.clients[ix]? = some c) (hd : s.haveDeletes c) :
      Walk s ok left { s with collector := .cas curr pending ix }
  | won {curr ix : ℕ} {pending : Bool} {c : C} (hp : s.collector = .cas curr pending ix)
      (hx : s.clients[ix]? = some c) (hs : s.state c = .registered) :
      Walk s ok left { s.setState c .collecting with collector := .unlock curr pending (some c) }
  | lost {curr ix : ℕ} {pending : Bool} {c : C} (hp : s.collector = .cas curr pending ix)
      (hx : s.clients[ix]? = some c) (hs : s.state c = .deleting) :
      Walk s ok left { s with collector := .test curr pending (ix+1) }
  | unlock {curr : ℕ} {pending : Bool} {c : C} (hp : s.collector = .unlock curr pending (some c)) :
      Walk s ok left { s with dataLock := none, collector := .collect curr pending c }
  | finish {curr : ℕ} {pending : Bool} (hp : s.collector = .unlock curr pending none) :
      Walk s ok left { s with dataLock := none, collector := .idle }
  | call {curr : ℕ} {pending : Bool} {c : C} (hp : s.collector = .collect curr pending c) :
      Walk s ok left { s with collector := .inside curr pending c }
  | ret {curr : ℕ} {pending : Bool} {c : C} (hp : s.collector = .inside curr pending c) :
      Walk s ok left { s with
        haveDeletes := Function.update s.haveDeletes c left
        collector := .release curr (if ok then pending else true) c }
  | back {curr : ℕ} {pending : Bool} {c : C} (hp : s.collector = .release curr pending c)
      (hs : s.state c = .collecting) :
      Walk s ok left { s.setState c .registered with collector := .lock curr pending }

theorem stepCollector_walk {s s' : Conf T C} (hi : Inv s) {ok left : Bool}
    (h : stepCollector s ok left = some s') : Walk s ok left s' := by
  have hd := hi.alive
  have hs := (stepCollector_move hi h).alive
  cases hp : s.collector
  all_goals simp only [stepCollector,hp] at h
  case idle | failed => cases h
  case lock curr pending =>
    split at h <;> cases h
    next hl => exact .lock hp hl
  case test curr pending ix =>
    cases h
    split
    next hx => exact .next hp hx
    next hx => exact .done hp (Nat.not_lt.mp hx)
  case ident curr pending ix =>
    split at h <;> cases h
    · exact absurd rfl hs
    next id hx =>
      split
      next hid => exact .skip hp hx hid
      next hid => exact .take hp hx (Nat.not_le.mp hid)
  case deletes curr pending ix =>
    split at h <;> cases h
    · exact absurd rfl hs
    next c hx =>
      split
      next hf => exact .full hp hx hf
      next he => exact .empty hp hx (by simpa using he)
  case cas curr pending ix =>
    split at h
    · cases h
      exact absurd rfl hs
    next c hx =>
      split at h
      next hr =>
        cases h
        exact .won hp hx hr
      next =>
        split at h <;> cases h
        next hdel => exact .lost hp hx hdel
        · exact absurd rfl hs
  case unlock curr pending clientp =>
    cases h
    cases clientp with
    | none => exact .finish hp
    | some c => exact .unlock hp
  case collect curr pending c =>
    cases h
    exact .call hp
  case inside curr pending c =>
    cases h
    exact .ret hp
  case release curr pending c =>
    split at h <;> cases h
    next hr => exact .back hp hr
    · exact absurd rfl hs

end Steps

/-- What the collector has seen of `clientsID` since it took the lock. -/
def CollectorPc.Scanned (clientsID : List ℕ) : CollectorPc C → Prop
  | .test curr _ ix | .ident curr _ ix => ∀ id ∈ clientsID.take ix, id ≤ curr
  | .deletes curr _ ix | .cas curr _ ix => clientsID[ix]? = some curr
  | .unlock curr _ none => ∀ id ∈ clientsID, id ≤ curr
  | _ => True

/-- `curr_id` is the number of the client that the collector collects from. -/
def CollectorPc.Target (ids : C → ℕ) : CollectorPc C → Prop
  | .unlock curr _ (some c) | .collect curr _ c | .inside curr _ c => ids c = curr
  | _ => True

structure Cursor (ids : C → ℕ) (s : Conf T C) : Prop where
  numbered : Numbered ids s
  scanned : s.collector.Scanned s.clientsID
  target : s.collector.Target ids

theorem cursor_start (ids : C → ℕ) : Cursor ids (start : Conf T C) :=
  ⟨numbered_start ids,trivial,trivial⟩

section Inv

variable {ids : C → ℕ} {s s' : Conf T C} {c : C}

/-- A client in some other state than unregistered has its number. -/
theorem Inv.settled (hi : Inv s) (hs : s.state c ≠ .unregistered) : Settled s c where
  born hl := by
    have h := hi.lives c
    simp only [LifeOk,hl] at h
    exact hs h.1
  numbered t ht := by
    have h := hi.threads t
    generalize s.pc t = p at h ht
    cases p <;> simp only [ClientPc.unnumbered,reduceCtorEq,Option.some.injEq] at ht <;> subst ht
    all_goals exact hs h.1

theorem Inv.member_of_state (hi : Inv s) (hs : s.state c = .collecting) : c ∈ s.clients := by
  have h := hi.lives c
  unfold LifeOk at h
  cases hl : s.life c <;> simp only [hl] at h
  case unborn => simp [hs] at h
  case gone => simp [hs] at h
  case live => exact h.2.2
  all_goals
    rename_i t
    have ht := hi.threads t
    cases hp : s.pc t <;> simp_all [PcOk]

theorem Inv.listed_of_critical (hi : Inv s) (hn : Numbered ids s) (hc : s.collector.critical) :
    s.clientsID = s.clients.map ids := by
  refine hn.rest fun t => ?_
  by_contra h
  have hcr := ClientPc.updating_critical (by simpa using h)
  rw [hi.free_of_critical hc t] at hcr
  cases hcr

theorem Inv.number_at (hi : Inv s) (hn : Numbered ids s) (hc : s.collector.critical) {ix : ℕ}
    (hx : s.clients[ix]? = some c) : s.clientsID[ix]? = some (ids c) := by
  rw [hi.listed_of_critical hn hc,List.getElem?_map,hx]
  rfl

theorem Inv.number_inj (hi : Inv s) (hn : Numbered ids s) (hc : s.collector.critical) {c' : C}
    (hm : c ∈ s.clients) (hm' : c' ∈ s.clients) (he : ids c = ids c') : c = c' := by
  have hnd : (s.clients.map ids).Nodup := by
    rw [← hi.listed_of_critical hn hc]
    exact hn.sorted.imp Nat.ne_of_lt
  exact List.inj_on_of_nodup_map hnd hm hm' he

/-- The number of a member is in `clientsID`, unless it is just being registered. -/
theorem Numbered.mem (hn : Numbered ids s) (hc : c ∈ s.clients) (hs : Settled s c) :
    ids c ∈ s.clientsID := by
  by_cases h : ∀ t, (s.pc t).updating = false
  · rw [hn.rest h]
    exact List.mem_map_of_mem hc
  · obtain ⟨t,ht⟩ := not_forall.mp h
    have hl := hn.listed t (by simpa using ht)
    have hu := hs.numbered t
    generalize s.pc t = p at ht hl hu
    cases p
    case regId c' =>
      obtain ⟨l,h1,h2⟩ := hl
      rw [h1] at hc
      rcases List.mem_append.mp hc with hc | hc
      · rw [h2]
        exact List.mem_map_of_mem hc
      · obtain rfl := List.mem_singleton.mp hc
        exact absurd rfl hu
    case derEraseId c' ix =>
      have hl : s.clientsID.eraseIdx ix = s.clients.map ids := hl
      exact List.mem_of_mem_eraseIdx (hl ▸ List.mem_map_of_mem hc)
    all_goals exact absurd rfl ht

theorem CollectorPc.Target.settled {ids' : C → ℕ} (ht : s.collector.Target ids) (hi : Inv s)
    (he : ∀ c, Settled s c → ids' c = ids c) : s.collector.Target ids' := by
  have hg := hi.collecting
  have hset : ∀ c, s.collector.clientp = some c → ids' c = ids c := fun c hc =>
    he c (hi.settled (by rw [(hg c).mpr hc]; simp))
  generalize s.collector = p at ht hset
  cases p with
  | unlock curr pending o =>
    cases o with
    | none => trivial
    | some c => exact (hset c rfl).trans ht
  | collect curr pending c | inside curr pending c => exact (hset c rfl).trans ht
  | _ => trivial

end Inv

section Sorted

variable {l : List ℕ} {ix curr id x : ℕ}

theorem sorted_take (hl : l.Pairwise (· < ·)) (hx : l[ix]? = some curr)
    (hid : id ∈ l.take (ix+1)) : id ≤ curr := by
  obtain ⟨hlt,rfl⟩ := List.getElem?_eq_some_iff.mp hx
  obtain ⟨j,hj,rfl⟩ := List.mem_take_iff_getElem.mp hid
  have hle : j ≤ ix := by omega
  rcases Nat.lt_or_eq_of_le hle with h | rfl
  · exact Nat.le_of_lt (List.pairwise_iff_getElem.mp hl j ix _ hlt h)
  · exact Nat.le_refl _

/-- The first number beyond the ones that have been looked at. -/
theorem sorted_next (hl : l.Pairwise (· < ·)) (hs : ∀ y ∈ l.take ix, y ≤ curr)
    (hx : l[ix]? = some id) (hm : x ∈ l) (hc : curr < x) : id ≤ x := by
  obtain ⟨hlt,rfl⟩ := List.getElem?_eq_some_iff.mp hx
  obtain ⟨j,hj,rfl⟩ := List.mem_iff_getElem.mp hm
  by_cases hji : j < ix
  · have hle := hs _ (List.mem_take_iff_getElem.mpr ⟨j,by omega,rfl⟩)
    omega
  · rcases Nat.lt_or_eq_of_le (Nat.not_lt.mp hji) with h | rfl
    · exact Nat.le_of_lt (List.pairwise_iff_getElem.mp hl ix j hlt hj h)
    · exact Nat.le_refl _

end Sorted

section Fire

variable [DecidableEq C] {ids : C → ℕ} {s s' : Conf T C} {c : C}

theorem stepCollector_cursor (hi : Inv s) (hc : Cursor ids s) {ok left : Bool}
    (h : stepCollector s ok left = some s') : Cursor ids s' := by
  obtain ⟨hn,hs,ht⟩ := hc
  have m := stepCollector_move hi h
  refine ⟨hn.same m.pc m.clients m.clientsID (stepCollector_idValue h),?_,?_⟩
  · cases stepCollector_walk hi h with
    | lock => simp [CollectorPc.Scanned]
    | next hp hx =>
      rw [hp] at hs
      exact hs
    | @done curr ix pending hp hx =>
      rw [hp] at hs
      simpa only [CollectorPc.Scanned,List.take_of_length_le hx] using hs
    | @skip curr ix id pending hp hx hid =>
      rw [hp] at hs
      simp only [CollectorPc.Scanned,List.take_add_one,hx] at hs ⊢
      simpa [or_imp,forall_and,hid] using hs
    | take hp hx hid => exact hx
    | @empty curr ix pending c hp hx hd | @lost curr ix pending c hp hx hs' =>
      rw [hp] at hs
      exact fun id hid => sorted_take hn.sorted hs hid
    | full hp hx hd =>
      rw [hp] at hs
      exact hs
    | _ => trivial
  · cases stepCollector_walk hi h with
    | @won curr ix pending c hp hx hr =>
      rw [hp] at hs
      have h := hi.number_at hn (by rw [hp]; rfl) hx
      exact Option.some.inj (h.symm.trans hs)
    | unlock hp | call hp =>
      rw [hp] at ht
      exact ht
    | _ => trivial

variable [DecidableEq T]

/-- The vectors do not change while the collector has the lock. -/
theorem fire_scanned (hi : Inv s) (hs : s.collector.Scanned s.clientsID) {a : Label T C}
    (h : fire s a = some s') (hc : s'.collector = s.collector) :
    s'.collector.Scanned s'.clientsID := by
  rw [hc]
  by_cases hcr : s.collector.critical
  · suffices hd : s'.clientsID = s.clientsID from hd ▸ hs
    have hcl : ∀ t, (s.pc t).critical = false := hi.free_of_critical hcr
    cases fire_cases hi h with
    | @client t s' h =>
      have ht := hcl t
      cases stepClient_lists h with
      | quiet p hpc hq hc hd hv hu => exact hd
      | client c hp hpc hc hd hv => exact hd
      | erase c ix hp hpc hc hd hv => exact hd
      | ident c hp | eraseId c ix hp =>
        rw [hp] at ht
        cases ht
    | collector h => exact (stepCollector_move hi h).clientsID
    | register | deregister | pass | enqueue | emptied => rfl
  · generalize s.collector = p at hcr
    cases p <;> trivial

theorem fire_cursor (hi : Inv s) (hc : Cursor ids s) {a : Label T C} (h : fire s a = some s')
    (hw : s.idValue+registers s a < 2^32) :
    ∃ ids', Cursor ids' s' ∧ ∀ c, Settled s c → ids' c = ids c := by
  by_cases hcol : s'.collector = s.collector
  · obtain ⟨ids',hn,he⟩ := fire_numbered hi hc.numbered h hw
    refine ⟨ids',⟨hn,fire_scanned hi hc.scanned h hcol,?_⟩,he⟩
    rw [hcol]
    exact hc.target.settled hi he
  · cases fire_cases hi h with
    | collector h => exact ⟨ids,stepCollector_cursor hi hc h,fun _ _ => rfl⟩
    | client h =>
      obtain ⟨c,p,m⟩ := stepClient_move hi h
      exact absurd m.collector hcol
    | pass => exact ⟨ids,⟨hc.numbered.same rfl rfl rfl rfl,trivial,trivial⟩,fun _ _ => rfl⟩
    | register | deregister | enqueue | emptied => exact absurd rfl hcol

end Fire

/-- `Collect` is called on a client with the number. -/
def called (s : Conf T C) : Label T C → Option (ℕ × C)
  | .collector _ _ =>
    match s.collector with
    | .collect curr _ c => some (curr,c)
    | _ => none
  | _ => none

/-- What `Collect` of a client returns. -/
def result (s : Conf T C) : Label T C → Option Bool
  | .collector ok _ =>
    match s.collector with
    | .inside _ _ _ => some ok
    | _ => none
  | _ => none

/-- What the pass returns. -/
def returned (s : Conf T C) : Label T C → Option Bool
  | .collector _ _ =>
    match s.collector with
    | .unlock _ pending none => some pending
    | _ => none
  | _ => none

/-- The cursor is past the number. -/
def CollectorPc.passed (id : ℕ) : CollectorPc C → Prop
  | .lock curr _ | .test curr _ _ | .ident curr _ _ | .inside curr _ _ | .release curr _ _
  | .unlock curr _ none => id ≤ curr
  | .deletes curr _ _ | .cas curr _ _ | .unlock curr _ (some _) | .collect curr _ _ => id < curr
  | .idle | .failed => True

/-- The cursor has yet to come to the client, or the collector is about to call its `Collect`. -/
def CollectorPc.awaits (c : C) (id : ℕ) : CollectorPc C → Prop
  | .lock curr _ | .test curr _ _ | .ident curr _ _ | .inside curr _ _ | .release curr _ _
  | .unlock curr _ none => curr < id
  | .deletes curr _ _ | .cas curr _ _ => curr ≤ id
  | .unlock curr _ (some c') | .collect curr _ c' => c' = c ∨ curr < id
  | .idle | .failed => False

def CollectorPc.pending : CollectorPc C → Option Bool
  | .lock _ b | .test _ b _ | .ident _ b _ | .deletes _ b _ | .cas _ b _ | .unlock _ b _
  | .collect _ b _ | .inside _ b _ | .release _ b _ => some b
  | .idle | .failed => none

/-- `RegisterClient` has made the client known, and `DeregisterClient` is not called for it. -/
def Attached (s : Conf T C) (c : C) : Prop :=
  s.life c = .live ∨ ∃ t, s.pc t = .regThread c ∨ s.pc t = .regUnlock c

section Attached

variable {s s' : Conf T C} {c : C}

theorem Attached.facts (ha : Attached s c) (hi : Inv s) :
    Collectable (s.state c) ∧ c ∈ s.clients := by
  rcases ha with hl | ⟨t,hp | hp⟩
  · have h := hi.lives c
    simp only [LifeOk,hl] at h
    exact ⟨h.1,h.2.2⟩
  · have h := hi.threads t
    rw [hp] at h
    exact ⟨.inl h.1,h.2⟩
  · have h := hi.threads t
    rw [hp] at h
    exact ⟨.inl h.1,h.2.2⟩

theorem Attached.settled (ha : Attached s c) (hi : Inv s) : Settled s c := by
  refine hi.settled ?_
  rcases (ha.facts hi).1 with h | h <;> simp [h]

/-- A client in state REGISTERED that nobody is deregistering. -/
theorem Inv.attached (hi : Inv s) (hs : s.state c = .registered)
    (hl : ∀ t, s.life c ≠ .deregistering t) : Attached s c := by
  have h := hi.lives c
  unfold LifeOk at h
  cases hlife : s.life c with
  | unborn => simp [hlife,hs] at h
  | gone => simp [hlife,hs] at h
  | live => exact .inl hlife
  | deregistering t => exact absurd hlife (hl t)
  | registering t =>
    simp only [hlife] at h
    refine .inr ⟨t,?_⟩
    have ht := hi.threads t
    cases hp : s.pc t <;> simp_all [PcOk]

variable [DecidableEq T] [DecidableEq C]

theorem Attached.fire (ha : Attached s c) (hi : Inv s) {a : Label T C} (h : fire s a = some s')
    (hn : ∀ t, a ≠ .deregister t c) : Attached s' c := by
  -- a thread that is about to call something is not in `RegisterClient`
  have hidle : ∀ {t t'}, s.pc t = .idle → s.pc t' = .regThread c ∨ s.pc t' = .regUnlock c →
      t' ≠ t := by
    rintro t t' ht ht' rfl
    simp [ht] at ht'
  cases fire_cases hi h with
  | @client t s' h =>
    rcases ha with hl | ⟨t',ht⟩
    · rcases stepClient_life (c:=c) hi h with he | ⟨he,-⟩ | ⟨he,-⟩
      · exact .inl (he.trans hl)
      · cases he.symm.trans hl
      · cases he.symm.trans hl
    · by_cases hte : t' = t
      · subst hte
        simp only [stepClient] at h
        rcases ht with ht | ht <;> simp only [ht] at h <;> cases h
        · exact .inr ⟨t',.inr (by simp)⟩
        · exact .inl (by simp)
      · obtain ⟨c',p,m⟩ := stepClient_move hi h
        exact .inr ⟨t',by rwa [m.pc_ne hte]⟩
  | collector h =>
    have m := stepCollector_move hi h
    exact ha.imp (fun hl => by rw [m.life]; exact hl) fun ht => by rw [m.pc]; exact ht
  | @register t c' htidle hunborn =>
    refine ha.imp (fun hl => ?_) fun hin => ?_
    · have hne : c ≠ c' := by
        rintro rfl
        cases hl.symm.trans hunborn
      simpa [hne] using hl
    · obtain ⟨t',ht⟩ := hin
      exact ⟨t',by simpa [hidle htidle ht] using ht⟩
  | @deregister t c' htidle =>
    have hne : c ≠ c' := by
      rintro rfl
      exact hn t rfl
    refine ha.imp (fun hl => by simpa [hne] using hl) fun hin => ?_
    obtain ⟨t',ht⟩ := hin
    exact ⟨t',by simpa [hidle htidle ht] using ht⟩
  | pass | enqueue | emptied => exact ha

end Attached

/-- What has been called and what has been returned since a pass began. -/
structure PassInv (ids : C → ℕ) (due : C → Prop) (s : Conf T C) (calls : List (ℕ × C))
    (results answers : List Bool) : Prop where
  passed : ∀ e ∈ calls, Settled s e.2 ∧ ids e.2 = e.1 ∧ s.collector.passed e.1
  ordered : (calls.map Prod.fst).Pairwise (· < ·)
  attached : ∀ c, due c → Attached s c
  waiting : ∀ c, due c → c ∈ calls.map Prod.snd ∨ s.haveDeletes c ∧ s.collector.awaits c (ids c)
  pending : ∀ b, s.collector.pending = some b → answers = [] ∧ b = decide (false ∈ results)
  answered : s.collector = .idle → answers = [decide (false ∈ results)]

section Pass

variable {ids ids' : C → ℕ} {due : C → Prop} {s s' : Conf T C} {calls : List (ℕ × C)}
  {results answers : List Bool}

/-- The steps of the collector that neither call `Collect` of a client nor return. -/
theorem PassInv.move (hp : PassInv ids due s calls results answers)
    (hpass : ∀ id, s.collector.passed id → s'.collector.passed id)
    (hwait : ∀ c, due c → s.haveDeletes c → s.collector.awaits c (ids c) →
      s'.haveDeletes c ∧ s'.collector.awaits c (ids c))
    (hpend : s'.collector.pending = s.collector.pending) (hidle : s'.collector ≠ .idle)
    (hdue : ∀ c, due c → Attached s' c) (hset : ∀ c, Settled s c → Settled s' c) :
    PassInv ids due s' calls results answers where
  passed e hm := by
    obtain ⟨h1,h2,h3⟩ := hp.passed e hm
    exact ⟨hset _ h1,h2,hpass _ h3⟩
  ordered := hp.ordered
  attached := hdue
  waiting c hdc := (hp.waiting c hdc).imp_right fun hw => hwait c hdc hw.1 hw.2
  pending := by
    rw [hpend]
    exact hp.pending
  answered he := absurd he hidle

variable [DecidableEq C]

/-- A client with something to collect stays ahead of the cursor until its `Collect` is called. -/
theorem Cursor.awaits_next (hcur : Cursor ids s) (hi : Inv s) {c : C} (ha : Attached s c)
    (hd : s.haveDeletes c) (hw : s.collector.awaits c (ids c)) {ok left : Bool}
    (h : stepCollector s ok left = some s') :
    s'.haveDeletes c ∧ s'.collector.awaits c (ids c) ∨
      ∃ curr pending, s.collector = .collect curr pending c := by
  obtain ⟨hn,hs,ht⟩ := hcur
  obtain ⟨hst,hm⟩ := ha.facts hi
  have hid := hn.mem hm (ha.settled hi)
  -- at a client that is not collected from, the cursor passes no other client
  have hskip : ∀ {curr ix : ℕ} {c' : C}, s.collector.critical → s.clientsID[ix]? = some curr →
      s.clients[ix]? = some c' → c ≠ c' → curr ≤ ids c → curr < ids c := by
    intro curr ix c' hcr hx hxc hne hle
    refine Nat.lt_of_le_of_ne hle fun he => hne ?_
    have hid := Option.some.inj (hx.symm.trans (hi.number_at hn hcr hxc))
    exact hi.number_inj hn hcr hm (List.mem_of_getElem? hxc) (he.symm.trans hid)
  cases stepCollector_walk hi h with
  | lock hc | next hc | done hc | unlock hc | back hc | skip hc | full hc =>
    left
    rw [hc] at hw
    exact ⟨hd,hw⟩
  | take hc hx hlt =>
    left
    rw [hc] at hw hs
    exact ⟨hd,sorted_next hn.sorted hs hx hid hw⟩
  | @empty curr ix pending c' hc hx hd' =>
    left
    rw [hc] at hw hs
    refine ⟨hd,hskip (by rw [hc]; rfl) hs hx ?_ hw⟩
    rintro rfl
    cases hd.symm.trans hd'
  | @lost curr ix pending c' hc hx hdel =>
    left
    rw [hc] at hw hs
    refine ⟨hd,hskip (by rw [hc]; rfl) hs hx ?_ hw⟩
    rintro rfl
    rcases hst with h | h <;> cases h.symm.trans hdel
  | @won curr ix pending c' hc hx hr =>
    left
    rw [hc] at hw hs
    refine ⟨hd,?_⟩
    by_cases he : c = c'
    · exact .inl he.symm
    · exact .inr (hskip (by rw [hc]; rfl) hs hx he hw)
  | finish hc =>
    rw [hc] at hw hs
    exact absurd (hs _ hid) (Nat.not_le.mpr hw)
  | @call curr pending c' hc =>
    rw [hc] at hw
    rcases hw with rfl | hw
    · exact .inr ⟨curr,pending,hc⟩
    · exact .inl ⟨hd,hw⟩
  | @ret curr pending c' hc =>
    left
    rw [hc] at hw ht
    have hne : c ≠ c' := by
      rintro rfl
      exact Nat.lt_irrefl _ (ht ▸ hw)
    exact ⟨by simpa [hne] using hd,hw⟩

/-- The steps of the collector. -/
theorem PassInv.walk (hp : PassInv ids due s calls results answers) (hi : Inv s)
    (hcur : Cursor ids s) {ok left : Bool} (h : stepCollector s ok left = some s')
    (hdue : ∀ c, due c → Attached s' c) (hset : ∀ c, Settled s c → Settled s' c) :
    PassInv ids due s' (calls++(called s (.collector (T:=T) ok left)).toList)
      (results++(result s (.collector (T:=T) ok left)).toList)
      (answers++(returned s (.collector (T:=T) ok left)).toList) := by
  have hnext : ∀ c, due c → s.haveDeletes c → s.collector.awaits c (ids c) →
      s'.haveDeletes c ∧ s'.collector.awaits c (ids c) ∨
        ∃ curr pending, s.collector = .collect curr pending c :=
    fun c hdc hd hw => hcur.awaits_next hi (hp.attached c hdc) hd hw h
  have ht := hcur.target
  cases stepCollector_walk hi h with
  | lock hc | next hc | done hc | unlock hc | back hc | skip hc | full hc | won hc =>
    simp only [called,result,returned,hc,Option.toList_none,List.append_nil]
    apply hp.move _ _ (by rw [hc]; rfl) (by simp) hdue hset
    · rw [hc]
      exact fun _ h => h
    · exact fun c hdc hd hw => (hnext c hdc hd hw).resolve_right (by simp [hc])
  | @take curr ix id pending hc hx hid =>
    simp only [called,result,returned,hc,Option.toList_none,List.append_nil]
    apply hp.move _ _ (by rw [hc]; rfl) (by simp) hdue hset
    · rw [hc]
      exact fun _ h => Nat.lt_of_le_of_lt h hid
    · exact fun c hdc hd hw => (hnext c hdc hd hw).resolve_right (by simp [hc])
  | empty hc | lost hc =>
    simp only [called,result,returned,hc,Option.toList_none,List.append_nil]
    apply hp.move _ _ (by rw [hc]; rfl) (by simp) hdue hset
    · rw [hc]
      exact fun _ h => Nat.le_of_lt h
    · exact fun c hdc hd hw => (hnext c hdc hd hw).resolve_right (by simp [hc])
  | @finish curr pending hc =>
    obtain ⟨ha,hb⟩ := hp.pending pending (by rw [hc]; rfl)
    simp only [called,result,returned,hc,Option.toList_none,Option.toList_some,List.append_nil]
    constructor
    case passed => exact fun e hm => ⟨hset _ (hp.passed e hm).1,(hp.passed e hm).2.1,trivial⟩
    case ordered => exact hp.ordered
    case attached => exact hdue
    case waiting =>
      intro c hdc
      refine (hp.waiting c hdc).imp_right fun hw => ?_
      exact (hnext c hdc hw.1 hw.2).resolve_right (by simp [hc])
    case pending => exact fun b h => nomatch h
    case answered => exact fun _ => by rw [ha,hb]; rfl
  | @call curr pending c hc =>
    simp only [called,result,returned,hc,Option.toList_none,Option.toList_some,List.append_nil]
    have hlt : ∀ e ∈ calls, e.1 < curr := by
      intro e hm
      have h := (hp.passed e hm).2.2
      rwa [hc] at h
    have hst : s.state c = .collecting := (hi.collecting c).mpr (by rw [hc]; rfl)
    constructor
    case passed =>
      intro e hm
      rcases List.mem_append.mp hm with hm | hm
      · exact ⟨hset _ (hp.passed e hm).1,(hp.passed e hm).2.1,Nat.le_of_lt (hlt e hm)⟩
      · obtain rfl := List.mem_singleton.mp hm
        rw [hc] at ht
        exact ⟨hset _ (hi.settled (by simp [hst])),ht,Nat.le_refl _⟩
    case ordered =>
      rw [List.map_append,List.pairwise_append]
      refine ⟨hp.ordered,List.pairwise_singleton _ _,fun id hid id' hid' => ?_⟩
      obtain ⟨e,he,rfl⟩ := List.mem_map.mp hid
      obtain rfl := List.mem_singleton.mp hid'
      exact hlt e he
    case attached => exact hdue
    case waiting =>
      intro c' hdc
      rw [List.map_append,List.mem_append]
      rcases hp.waiting c' hdc with hw | ⟨hd,hw⟩
      · exact .inl (.inl hw)
      · rcases hnext c' hdc hd hw with hw | ⟨curr',pending',he⟩
        · exact .inr hw
        · cases hc.symm.trans he
          exact .inl (.inr (by simp))
    case pending =>
      have h := hp.pending
      rw [hc] at h
      exact h
    case answered => exact fun h => nomatch h
  | @ret curr pending c hc =>
    obtain ⟨ha,hb⟩ := hp.pending pending (by rw [hc]; rfl)
    simp only [called,result,returned,hc,Option.toList_none,Option.toList_some,List.append_nil]
    constructor
    case passed =>
      intro e hm
      obtain ⟨h1,h2,h3⟩ := hp.passed e hm
      rw [hc] at h3
      exact ⟨hset _ h1,h2,h3⟩
    case ordered => exact hp.ordered
    case attached => exact hdue
    case waiting =>
      intro c' hdc
      refine (hp.waiting c' hdc).imp_right fun hw => ?_
      exact (hnext c' hdc hw.1 hw.2).resolve_right (by simp [hc])
    case pending =>
      intro b hb'
      cases hb'
      refine ⟨ha,?_⟩
      cases ok <;> simp [hb]
    case answered => exact fun h => nomatch h

variable [DecidableEq T]

/-- The steps of the others. -/
theorem PassInv.other (hp : PassInv ids due s calls results answers) (hi : Inv s) {a : Label T C}
    (h : fire s a = some s') (hc : s'.collector = s.collector)
    (hd : ∀ c, due c → s.haveDeletes c → s'.haveDeletes c)
    (hdue : ∀ c, due c → ∀ t, a ≠ .deregister t c) (he : ∀ c, Settled s c → ids' c = ids c) : PassInv ids' due s' calls results answers where
  passed e hm := by
    obtain ⟨h1,h2,h3⟩ := hp.passed e hm
    exact ⟨fire_settled hi h1 h,(he _ h1).trans h2,hc ▸ h3⟩
  ordered := hp.ordered
  attached c hdc := (hp.attached c hdc).fire hi h (hdue c hdc)
  waiting c hdc := by
    rw [hc,he c ((hp.attached c hdc).settled hi)]
    exact (hp.waiting c hdc).imp_right fun hw => ⟨hd c hdc hw.1,hw.2⟩
  pending := by
    rw [hc]
    exact hp.pending
  answered := by
    rw [hc]
    exact hp.answered

theorem stepClient_haveDeletes {t : T} (h : stepClient s t = some s') :
    s'.haveDeletes = s.haveDeletes := by
  cases hp : s.pc t <;> simp only [stepClient,hp] at h
  case idle | failed => cases h
  case regLock | derLock | derCas | derFind => split at h <;> cases h <;> rfl
  all_goals
    cases h
    rfl

theorem PassInv.fire (hp : PassInv ids due s calls results answers) (hi : Inv s)
    (hcur : Cursor ids s) {a : Label T C} (h : fire s a = some s') (hpass : a ≠ .pass)
    (hdue : ∀ c, due c → a ≠ .emptied c ∧ ∀ t, a ≠ .deregister t c)
    (hw : s.idValue+registers s a < 2^32) : ∃ ids', Cursor ids' s' ∧ PassInv ids' due s' (calls++(called s a).toList)
      (results++(result s a).toList) (answers++(returned s a).toList) := by
  obtain ⟨ids',hcur',he⟩ := fire_cursor hi hcur h hw
  cases fire_cases hi h with
  | collector hs =>
    refine ⟨ids,stepCollector_cursor hi hcur hs,hp.walk hi hcur hs (fun c hdc => ?_) fun c hc => ?_⟩
    · exact (hp.attached c hdc).fire hi h (hdue c hdc).2
    · exact fire_settled hi hc h
  | client hs =>
    obtain ⟨c,p,m⟩ := stepClient_move hi hs
    simp only [called,result,returned,Option.toList_none,List.append_nil]
    refine ⟨ids',hcur',hp.other hi h m.collector (fun c _ hd => ?_) (fun c hdc => (hdue c hdc).2) he⟩
    rwa [stepClient_haveDeletes hs]
  | register | deregister =>
    simp only [called,result,returned,Option.toList_none,List.append_nil]
    exact ⟨ids',hcur',hp.other hi h rfl (fun _ _ hd => hd) (fun c hdc => (hdue c hdc).2) he⟩
  | pass => exact absurd rfl hpass
  | @enqueue c =>
    simp only [called,result,returned,Option.toList_none,List.append_nil]
    refine ⟨ids',hcur',hp.other hi h rfl (fun c' _ hd => ?_) (fun c hdc => (hdue c hdc).2) he⟩
    by_cases hc : c' = c
    · simp [hc]
    · simpa [hc] using hd
  | @emptied c =>
    simp only [called,result,returned,Option.toList_none,List.append_nil]
    refine ⟨ids',hcur',hp.other hi h rfl (fun c' hdc hd => ?_) (fun c hdc => (hdue c hdc).2) he⟩
    have hc : c' ≠ c := by
      rintro rfl
      exact (hdue c' hdc).1 rfl
    simpa [hc] using hd

/-- Along a run in which no second pass begins and nobody else deregisters a client that is due, or
takes the last node off its gc list. -/
theorem PassInv.exec {as : List (Label T C)} (hp : PassInv ids due s calls results answers)
    (hr : (system T C).Reachable s) (hcur : Cursor ids s) (h : (system T C).exec s as = some s')
    (hpass : .pass ∉ as) (hdue : ∀ c, due c → .emptied c ∉ as ∧ ∀ t, .deregister t c ∉ as)
    (hw : s.idValue+(system T C).tally registers s as < 2^32) :
    ∃ ids', Cursor ids' s' ∧ PassInv ids' due s' (calls++(system T C).trace called s as)
      (results++(system T C).trace result s as)
      (answers++(system T C).trace returned s as) := by
  induction as generalizing s ids calls results answers with
  | nil =>
    obtain rfl := Option.some.inj h
    exact ⟨ids,hcur,by simpa only [System.trace,List.append_nil] using hp⟩
  | cons a as ih =>
    obtain ⟨u,hf,hu⟩ := Option.bind_eq_some_iff.mp h
    simp only [System.tally,hf,Option.elim_some] at hw
    have hi := reachable_inv hr
    have hid := fire_idValue hi (a:=a) hf (by omega)
    obtain ⟨ids',hcur',hp'⟩ := hp.fire hi hcur hf (fun he => hpass (he ▸ List.mem_cons_self))
      (fun c hdc => ⟨fun he => (hdue c hdc).1 (he ▸ List.mem_cons_self),
        fun t he => (hdue c hdc).2 t (he ▸ List.mem_cons_self)⟩) (by omega)
    have hd := ih hp' (hr.step hf) hcur' hu (fun hm => hpass (List.mem_cons_of_mem a hm))
      (fun c hdc => ⟨fun hm => (hdue c hdc).1 (List.mem_cons_of_mem a hm),
        fun t hm => (hdue c hdc).2 t (List.mem_cons_of_mem a hm)⟩) (by omega)
    simpa only [System.trace,hf,Option.elim_some,List.append_assoc] using hd

end Pass

/-- How many numbers the cursor has yet to pass. -/
def CollectorPc.ahead (clientsID : List ℕ) : CollectorPc C → ℕ
  | .lock curr _ | .test curr _ _ | .ident curr _ _ | .deletes curr _ _ | .cas curr _ _
  | .unlock curr _ _ | .collect curr _ _ | .inside curr _ _ | .release curr _ _ =>
    clientsID.countP (curr < ·)
  | .idle | .failed => 0

/-- The steps until the cursor moves or the pass ends, with at most `n` clients. -/
def CollectorPc.left (n : ℕ) : CollectorPc C → ℕ
  | .idle | .failed => 0
  | .unlock _ _ none => 1
  | .test _ _ ix => 2*(n-ix)+2
  | .ident _ _ ix => 2*(n-ix)+1
  | .lock _ _ => 2*n+3
  | .release _ _ _ => 2*n+4
  | .inside _ _ _ => 2*n+5
  | .collect _ _ _ => 2*n+6
  | .unlock _ _ (some _) => 2*n+7
  | .cas _ _ _ => 2*n+8
  | .deletes _ _ _ => 2*n+9

/-- The steps that the collector has left in its pass, with at most `n` clients. -/
def passLeft (n : ℕ) (s : Conf T C) : ℕ :=
  s.collector.ahead s.clientsID*(2*n+9)+s.collector.left n

def ownSteps (_ : Conf T C) : Label T C → ℕ
  | .collector _ _ => 1
  | _ => 0

section Ends

variable {s s' : Conf T C} {n : ℕ}

theorem countP_above {l : List ℕ} {curr id : ℕ} (hm : id ∈ l) (h : curr < id) :
    l.countP (id < ·)+1 ≤ l.countP (curr < ·) := by
  obtain ⟨a,b,rfl⟩ := List.append_of_mem hm
  have hle : ∀ q : List ℕ, q.countP (id < ·) ≤ q.countP (curr < ·) := fun q =>
    List.countP_mono_left fun x _ hx => decide_eq_true (Nat.lt_trans h (of_decide_eq_true hx))
  have ha := hle a
  have hb := hle b
  simp only [List.countP_append,List.countP_cons,Nat.lt_irrefl,h,decide_true,decide_false,
    Bool.false_eq_true,if_true,if_false]
  omega

theorem ahead_mono {l l' : List ℕ} {k : ℕ} (p : CollectorPc C)
    (h : ∀ f : ℕ → Bool, l'.countP f ≤ l.countP f+k) : p.ahead l' ≤ p.ahead l+k := by
  cases p <;> first
    | exact Nat.zero_le _
    | exact h _

variable [DecidableEq C]

theorem stepCollector_left (hi : Inv s) {ok left : Bool} (h : stepCollector s ok left = some s')
    (hn : s.clientsID.length ≤ n) : passLeft n s'+1 ≤ passLeft n s := by
  have hx := hi.index
  cases stepCollector_walk hi h with
  | @take curr ix id pending hc hx hid =>
    have hlt := countP_above (List.mem_of_getElem? hx) hid
    have hmul := Nat.mul_le_mul_right (2*n+9) hlt
    simp only [passLeft,hc,CollectorPc.ahead,CollectorPc.left]
    rw [Nat.add_mul] at hmul
    omega
  | @next curr ix pending hc hx | @done curr ix pending hc hx =>
    simp only [passLeft,hc,CollectorPc.ahead,CollectorPc.left]
    omega
  | @skip curr ix id pending hc hx hid =>
    have hlt := (List.getElem?_eq_some_iff.mp hx).1
    simp only [passLeft,hc,CollectorPc.ahead,CollectorPc.left]
    omega
  | lock hc | empty hc | full hc | won hc | lost hc | unlock hc | finish hc | call hc | ret hc
  | back hc =>
    simp only [passLeft,hc,CollectorPc.ahead,CollectorPc.left,Conf.setState]
    omega

variable [DecidableEq T]

/-- A registration adds one number, a deregistration takes one away. -/
theorem stepClient_countP {t : T} (h : stepClient s t = some s') (f : ℕ → Bool) :
    s'.clientsID.countP f ≤ s.clientsID.countP f+(s.pc t).numbers := by
  cases stepClient_lists h with
  | ident c hp hpc hc hd hv =>
    rw [hd,hp,List.countP_append]
    exact Nat.add_le_add_left List.countP_le_length _
  | eraseId c ix hp hpc hc hd hv =>
    rw [hd]
    exact Nat.le_trans (List.eraseIdx_sublist _ _).countP_le (Nat.le_add_right _ _)
  | quiet p hpc hq hc hd | client c hp hpc hc hd | erase c ix hp hpc hc hd =>
    rw [hd]
    exact Nat.le_add_right _ _

theorem fire_left (hi : Inv s) {a : Label T C} (h : fire s a = some s') (hpass : a ≠ .pass)
    (hn : s.clientsID.length ≤ n) :
    s'.clientsID.length ≤ s.clientsID.length+registers s a ∧
      passLeft n s'+ownSteps s a ≤ passLeft n s+registers s a*(2*n+9) := by
  cases fire_cases hi h with
  | collector hs =>
    have hl := stepCollector_left hi hs hn
    rw [(stepCollector_move hi hs).clientsID]
    exact ⟨Nat.le_refl _,by simpa only [registers,ownSteps,Nat.zero_mul,Nat.add_zero] using hl⟩
  | client hs =>
    obtain ⟨c,p,m⟩ := stepClient_move hi hs
    have hle := stepClient_countP hs
    have hmul := Nat.mul_le_mul_right (2*n+9) (ahead_mono s.collector hle)
    rw [Nat.add_mul] at hmul
    refine ⟨by simpa [registers] using hle fun _ => true,?_⟩
    simp only [passLeft,ownSteps,registers,m.collector]
    omega
  | register | deregister | enqueue | emptied => exact ⟨Nat.le_refl _,Nat.le_add_right _ _⟩
  | pass => exact absurd rfl hpass

theorem exec_left {as : List (Label T C)} (hr : (system T C).Reachable s)
    (h : (system T C).exec s as = some s') (hpass : .pass ∉ as)
    (hn : s.clientsID.length+(system T C).tally registers s as ≤ n) :
    passLeft n s'+(system T C).tally ownSteps s as ≤
      passLeft n s+(system T C).tally registers s as*(2*n+9) := by
  induction as generalizing s with
  | nil =>
    obtain rfl := Option.some.inj h
    exact Nat.le_add_right _ _
  | cons a as ih =>
    obtain ⟨u,hf,hu⟩ := Option.bind_eq_some_iff.mp h
    simp only [System.tally,hf,Option.elim_some] at hn ⊢
    obtain ⟨hlen,hl⟩ := fire_left (n:=n) (reachable_inv hr) hf
      (fun he => hpass (he ▸ List.mem_cons_self)) (by omega)
    have hd := ih (hr.step hf) hu (fun hm => hpass (List.mem_cons_of_mem a hm)) (by omega)
    rw [Nat.add_mul]
    omega

end Ends

/-- The steps of a thread until it releases `data_lock`, with `n` clients. -/
def ClientPc.lockLeft (n : ℕ) : ClientPc C → ℕ
  | .regClient _ => 5
  | .regId _ => 4
  | .regState _ => 3
  | .regThread _ => 2
  | .regUnlock _ => 1
  | .derFind _ ix => n-ix+5
  | .derErase _ _ => 4
  | .derEraseId _ _ => 3
  | .derState _ => 2
  | .derUnlock _ => 1
  | _ => 0

theorem lockLeft_le (p : ClientPc C) (n : ℕ) : p.lockLeft n ≤ n+5 := by
  cases p <;> simp only [ClientPc.lockLeft] <;> omega

def clientSteps [DecidableEq T] (t : T) (_ : Conf T C) : Label T C → ℕ
  | .client u => if u = t then 1 else 0
  | _ => 0

/-- The thread releases `data_lock`. -/
def releases [DecidableEq T] (t : T) (s : Conf T C) : Label T C → ℕ
  | .client u =>
    match s.pc u with
    | .regUnlock _ | .derUnlock _ => if u = t then 1 else 0
    | _ => 0
  | _ => 0

section Holder

variable [DecidableEq T] {s s' : Conf T C} {t : T}

theorem ClientMove.holder {t' : T} {c : C} {p : ClientPc C} (m : ClientMove s s' t' c p)
    (hi : Inv s) (hc : (s.pc t).critical) (ht : t ≠ t') :
    (s'.pc t).critical ∧ (s'.pc t).lockLeft s'.clients.length ≤ (s.pc t).lockLeft s.clients.length := by
  rw [m.pc_ne ht]
  refine ⟨hc,?_⟩
  rcases m.clients with hm | hm
  · exact absurd (hi.critical_unique hc hm) ht
  · exact Nat.le_of_eq (by rw [hm.1])

variable [DecidableEq C]

theorem stepClient_enabled (hc : (s.pc t).critical) : (stepClient s t).isSome := by
  unfold stepClient
  cases hp : s.pc t <;> rw [hp] at hc <;> simp only [ClientPc.critical,Bool.false_eq_true] at hc ⊢
  case derFind c ix => cases s.clients[ix]? <;> rfl
  all_goals rfl

theorem stepClient_holder (hi : Inv s) (hc : (s.pc t).critical) (h : stepClient s t = some s')
    (hr : releases t s (.client t) = 0) :
    (s'.pc t).critical ∧
      (s'.pc t).lockLeft s'.clients.length+1 ≤ (s.pc t).lockLeft s.clients.length := by
  have hok := hi.threads t
  cases hp : s.pc t <;> rw [hp] at hc hok <;> simp only [stepClient,hp] at h
  case derFind c ix =>
    split at h
    case h_1 hnone =>
      have htake := List.take_of_length_le (List.getElem?_eq_none_iff.mp hnone)
      exact absurd hok.2.1 (htake ▸ hok.2.2)
    case h_2 c' hc' =>
      have hlt := (List.getElem?_eq_some_iff.mp hc').1
      cases h
      split
      · simp [ClientPc.lockLeft]
      · simp only [Conf.setPc,Function.update_self,ClientPc.lockLeft]
        exact ⟨rfl,by omega⟩
  case regUnlock | derUnlock => simp [releases,hp] at hr
  case regClient | regId | regState | regThread | derErase | derEraseId | derState =>
    cases h
    simp [ClientPc.lockLeft]
  all_goals cases hc

theorem fire_holder (hi : Inv s) (hc : (s.pc t).critical) {a : Label T C} (h : fire s a = some s')
    (hr : releases t s a = 0) : (s'.pc t).critical ∧
      (s'.pc t).lockLeft s'.clients.length+clientSteps t s a ≤
        (s.pc t).lockLeft s.clients.length := by
  have hbusy : ∀ t', s.pc t' = .idle → t ≠ t' := by
    rintro t' ht rfl
    rw [ht] at hc
    cases hc
  cases fire_cases hi h with
  | @client t' s' hs =>
    by_cases ht : t = t'
    · subst ht
      simpa [clientSteps] using stepClient_holder hi hc hs hr
    · obtain ⟨c,p,m⟩ := stepClient_move hi hs
      simpa [clientSteps,Ne.symm ht] using m.holder hi hc ht
  | collector hs =>
    have m := stepCollector_move hi hs
    rw [m.pc,m.clients]
    exact ⟨hc,Nat.le_refl _⟩
  | @register t' c ht => exact (register_move hi h).holder hi hc (hbusy t' ht)
  | @deregister t' c ht => exact (deregister_move hi h).holder hi hc (hbusy t' ht)
  | pass | enqueue | emptied => exact ⟨hc,Nat.le_refl _⟩

/-- Who has `data_lock` gives it back. -/
theorem exec_holder {as : List (Label T C)} (hr : (system T C).Reachable s)
    (hc : (s.pc t).critical) (h : (system T C).exec s as = some s')
    (hrel : (system T C).tally (releases t) s as = 0) :
    (system T C).tally (clientSteps t) s as ≤ (s.pc t).lockLeft s.clients.length := by
  induction as generalizing s with
  | nil => exact Nat.zero_le _
  | cons a as ih =>
    obtain ⟨u,hf,hu⟩ := Option.bind_eq_some_iff.mp h
    simp only [System.tally,hf,Option.elim_some] at hrel ⊢
    obtain ⟨hc',hl⟩ := fire_holder (reachable_inv hr) hc hf (by omega)
    have hd := ih (hr.step hf) hc' hu (by omega)
    omega

/-- The collector can go on, or waits for a thread that can. -/
theorem Inv.turn (hi : Inv s) (hp : s.collector ≠ .idle) :
    (∀ ok left, (stepCollector s ok left).isSome) ∨
      ∃ t, s.dataLock = some (.client t) ∧ (stepClient s t).isSome := by
  by_cases hl : ∃ t, s.dataLock = some (.client t)
  · obtain ⟨t,ht⟩ := hl
    exact .inr ⟨t,ht,stepClient_enabled ((hi.locked t).mpr ht)⟩
  · left
    intro ok left
    have hcl := hi.collectorLocked
    have ha := hi.alive
    unfold stepCollector
    cases hc : s.collector
    case idle => exact absurd hc hp
    case failed => exact absurd hc ha
    case lock curr pending =>
      have hn : s.dataLock = none := by
        cases hd : s.dataLock with
        | none => rfl
        | some o =>
          cases o with
          | client t => exact absurd ⟨t,hd⟩ hl
          | collector => simp [hc,hd] at hcl
      simp [hn]
    case ident curr pending ix | deletes curr pending ix | release curr pending c =>
      dsimp only
      split <;> rfl
    case cas curr pending ix =>
      dsimp only
      split
      · rfl
      · split
        · rfl
        · split <;> rfl
    all_goals rfl

end Holder

/-- What holds of the two vectors in every state. -/
structure Registry (s : Conf T C) : Prop where
  ascending : s.clientsID.Pairwise (· < ·)
  positive : ∀ id ∈ s.clientsID, 0 < id
  nodup : s.clients.Nodup
  lengths : (∀ t, s.dataLock ≠ some (.client t)) → s.clients.length = s.clientsID.length
  /-- `Collect` is called for a client with its own number -/
  numbered : ∀ curr pending c, s.collector = .unlock curr pending (some c) →
    ∃ ix : ℕ, s.clients[ix]? = some c ∧ s.clientsID[ix]? = some curr

section Result

variable {s s' : Conf T C} {pre as : List (Label T C)}

theorem Cursor.registry {ids : C → ℕ} (hc : Cursor ids s) (hi : Inv s) : Registry s where
  ascending := hc.numbered.sorted
  positive id hid := (hc.numbered.bounded id hid).1
  nodup := hi.nodup
  lengths := hi.lengths
  numbered curr pending c hp := by
    have hst : s.state c = .collecting := (hi.collecting c).mpr (by rw [hp]; rfl)
    obtain ⟨ix,hx⟩ := List.getElem?_of_mem (hi.member_of_state hst)
    have ht := hc.target
    rw [hp] at ht
    have h := hi.number_at hc.numbered (by rw [hp]; rfl) hx
    exact ⟨ix,hx,h.trans (congrArg some ht)⟩

/-- The start of a pass. -/
theorem Cursor.begins {ids : C → ℕ} (hc : Cursor ids s) (hi : Inv s) (hp : s.collector = .lock 0 false)
    {due : C → Prop} (hdue : ∀ c, due c → s.haveDeletes c ∧ Attached s c) :
    PassInv ids due s [] [] [] where
  passed e hm := absurd hm (by simp)
  ordered := List.Pairwise.nil
  attached c hdc := (hdue c hdc).2
  waiting c hdc := by
    obtain ⟨hd,ha⟩ := hdue c hdc
    refine .inr ⟨hd,?_⟩
    rw [hp]
    exact (hc.numbered.bounded _ (hc.numbered.mem (ha.facts hi).2 (ha.settled hi))).1
  pending b hb := by
    rw [hp] at hb
    cases hb
    exact ⟨rfl,rfl⟩
  answered he := by
    rw [hp] at he
    cases he

theorem PassInv.once {ids : C → ℕ} {due : C → Prop} {calls : List (ℕ × C)}
    {results answers : List Bool} (hp : PassInv ids due s calls results answers) :
    (calls.map Prod.snd).Nodup := by
  have he : (calls.map Prod.snd).map ids = calls.map Prod.fst := by
    rw [List.map_map]
    exact List.map_congr_left fun e hm => (hp.passed e hm).2.1
  refine List.Nodup.of_map ids ?_
  rw [he]
  exact hp.ordered.imp Nat.ne_of_lt

variable [DecidableEq C]

theorem Inv.back (hi : Inv s) {curr : ℕ} {pending : Bool} {c : C}
    (hp : s.collector = .release curr pending c) (ok left : Bool) :
    ∃ u, stepCollector s ok left = some u ∧ u.state c = .registered ∧
      u.collector = .lock curr pending := by
  have hst : s.state c = .collecting := (hi.collecting c).mpr (by rw [hp]; rfl)
  refine ⟨{ s.setState c .registered with collector := .lock curr pending },?_,by simp,rfl⟩
  simp only [stepCollector,hp,hst,if_true]

variable [DecidableEq T]

/-- What has happened between the start `s` of a pass and `s'`. -/
structure OnePass (s : Conf T C) (as : List (Label T C)) (s' : Conf T C) : Prop where
  registry : Registry s ∧ Registry s'
  /-- the calls come in the order of the numbers, and none comes twice -/
  order : (((system T C).trace called s as).map Prod.fst).Pairwise (· < ·)
  once : (((system T C).trace called s as).map Prod.snd).Nodup
  all : s'.collector = .idle → ∀ c, s.state c = .registered → s.haveDeletes c →
    (∀ t, s.life c ≠ .deregistering t) → (∀ t, .deregister t c ∉ as) → .emptied c ∉ as →
    c ∈ ((system T C).trace called s as).map Prod.snd
  /-- the compare-exchange after `Collect` of a client puts its state back -/
  back : ∀ curr pending c ok left, s'.collector = .release curr pending c →
    ∃ u, stepCollector s' ok left = some u ∧ u.state c = .registered ∧
      u.collector = .lock curr pending
  registered : ∀ c ∈ ((system T C).trace called s as).map Prod.snd, s'.life c = .live →
    s'.collector.clientp ≠ some c → s'.state c = .registered
  answer : (system T C).trace returned s as =
    if s'.collector = .idle then [decide (false ∈ (system T C).trace result s as)] else []
  /-- the steps of the pass are bounded by the clients at its start and those registered since -/
  bounded : ∀ n, n = s.clientsID.length+(system T C).tally registers s as →
    (system T C).tally ownSteps s as ≤ n*(2*n+9)+(2*n+3)
  turn : s'.collector ≠ .idle → (∀ ok left, (stepCollector s' ok left).isSome) ∨
    ∃ t, s'.dataLock = some (.client t) ∧ (stepClient s' t).isSome
  /-- who has `data_lock` releases it after finitely many steps -/
  holder : ∀ t bs u, s'.dataLock = some (.client t) → (system T C).exec s' bs = some u →
    (system T C).tally (releases t) s' bs = 0 →
    (system T C).tally (clientSteps t) s' bs ≤ s'.clients.length+5

theorem exec_cursor {ids : C → ℕ} (hr : (system T C).Reachable s) (hc : Cursor ids s)
    (h : (system T C).exec s as = some s')
    (hw : s.idValue+(system T C).tally registers s as < 2^32) :
    ∃ ids', Cursor ids' s' ∧ s'.idValue = s.idValue+(system T C).tally registers s as := by
  induction as generalizing s ids with
  | nil =>
    obtain rfl := Option.some.inj h
    exact ⟨ids,hc,rfl⟩
  | cons a as ih =>
    obtain ⟨u,hf,hu⟩ := Option.bind_eq_some_iff.mp h
    simp only [System.tally,hf,Option.elim_some] at hw ⊢
    have hi := reachable_inv hr
    have hid := fire_idValue hi (a:=a) hf (by omega)
    obtain ⟨ids',hc',-⟩ := fire_cursor hi hc hf (by omega)
    obtain ⟨ids',hc',he⟩ := ih (hr.step hf) hc' hu (by omega)
    exact ⟨ids',hc',by omega⟩

theorem one_pass {s₀ : Conf T C} (hs : (system T C).exec start pre = some s₀)
    (hf : fire s₀ .pass = some s) (h : (system T C).exec s as = some s') (hpass : .pass ∉ as)
    (hw : (system T C).tally registers start pre+(system T C).tally registers s as < 2^32) :
    OnePass s as s' := by
  have hr₀ : (system T C).Reachable s₀ := System.Reachable.exec (.init rfl) hs
  have hr : (system T C).Reachable s := System.Reachable.step (a:=.pass) hr₀ hf
  have hr' := hr.exec h
  have hi := reachable_inv hr
  have hi' := reachable_inv hr'
  obtain ⟨ids,hc₀,hid⟩ := exec_cursor (.init rfl) (cursor_start fun _ => 0) hs
    (by rw [show (start : Conf T C).idValue = 0 from rfl]; omega)
  have hid : s₀.idValue = (system T C).tally registers start pre := hid.trans (Nat.zero_add _)
  have hbegin : s.collector = .lock 0 false ∧ s.idValue = s₀.idValue := by
    simp only [fire] at hf
    split at hf <;> cases hf
    exact ⟨rfl,rfl⟩
  obtain ⟨ids,hc,-⟩ := fire_cursor (reachable_inv hr₀) hc₀ hf (by simp only [registers]; omega)
  have hbegins : PassInv ids (fun c => s.state c = .registered ∧ s.haveDeletes c ∧
      (∀ t, s.life c ≠ .deregistering t) ∧ .emptied c ∉ as ∧ ∀ t, .deregister t c ∉ as) s [] [] [] :=
    hc.begins hi hbegin.1 fun c hd => ⟨hd.2.1,hi.attached hd.1 hd.2.2.1⟩
  obtain ⟨ids',hc',hp⟩ := hbegins.exec hr hc h hpass (fun c hd => hd.2.2.2) (by omega)
  simp only [List.nil_append] at hp
  constructor
  case registry => exact ⟨hc.registry hi,hc'.registry hi'⟩
  case order => exact hp.ordered
  case once => exact hp.once
  case all =>
    intro hidle c hst hd hl hn he
    refine (hp.waiting c ⟨hst,hd,hl,he,hn⟩).resolve_right fun hw => ?_
    rw [hidle] at hw
    exact hw.2
  case back => exact fun curr pending c ok left hrel => hi'.back hrel ok left
  case registered =>
    intro c _ hl hn
    have hlife := hi'.lives c
    simp only [LifeOk,hl] at hlife
    exact hlife.1.resolve_right fun hcol => hn ((hi'.collecting c).mp hcol)
  case answer =>
    split
    case isTrue hidle => exact hp.answered hidle
    case isFalse hidle =>
      have hpend := hp.pending
      have ha := hi'.alive
      generalize s'.collector = p at hidle hpend ha
      cases p <;> first
        | exact absurd rfl hidle
        | exact absurd rfl ha
        | exact (hpend _ rfl).1
  case bounded =>
    intro n hn
    have hl := exec_left (n:=n) hr h hpass (by omega)
    have hcount : s.clientsID.countP (0 < ·) ≤ s.clientsID.length := List.countP_le_length
    have hmul := Nat.mul_le_mul_right (2*n+9) hcount
    have hsum : n*(2*n+9) = s.clientsID.length*(2*n+9)+
        (system T C).tally registers s as*(2*n+9) := by rw [← Nat.add_mul,← hn]
    simp only [passLeft,hbegin.1,CollectorPc.ahead,CollectorPc.left] at hl
    omega
  case turn => exact hi'.turn
  case holder =>
    intro t bs u hlock hbs hrel
    have hcr := (hi'.locked t).mpr hlock
    exact Nat.le_trans (exec_holder hr' hcr hbs hrel) (lockLeft_le _ _)

end Result

def registerSchedule (t : Party) (c : Party) : List (Label Party Party) :=
  .register t c::List.replicate 8 (.client t)

/-- Clients 0 and 1 are registered, with something to collect. -/
def beforeSchedule : List (Label Party Party) :=
  registerSchedule 0 0++registerSchedule 1 1++[.enqueue 0,.enqueue 1]

/-- Between the two calls client 0 is deregistered and client 2 registered; the first call returns
true and the second false. -/
def passSchedule : List (Label Party Party) :=
  List.replicate 9 (.collector true false)++.deregister 0 0::List.replicate 7 (.client 0)++
    registerSchedule 0 2++List.replicate 9 (.collector false true)++
    List.replicate 8 (.collector true false)

def runConf (s : Conf Party Party) (as : List (Label Party Party)) : Conf Party Party :=
  ((system Party Party).exec s as).getD s

def beforeConf : Conf Party Party := runConf start beforeSchedule
def beginConf : Conf Party Party := runConf beforeConf [.pass]
def endConf : Conf Party Party := runConf beginConf passSchedule

example : (system Party Party).trace called beginConf passSchedule = [(1,0),(2,1)] := by decide
example : (system Party Party).trace returned beginConf passSchedule = [true] := by decide
example : (endConf.collector,endConf.clients,endConf.clientsID) = (.idle,[1,2],[2,3]) := by decide

theorem one_pass_endConf : OnePass beginConf passSchedule endConf := by
  have hs : (system Party Party).exec start beforeSchedule = some beforeConf := rfl
  have hf : fire beforeConf .pass = some beginConf := rfl
  exact one_pass hs hf rfl (by simp [passSchedule,registerSchedule]) (by decide)

end CollectorThread
end Benedias
