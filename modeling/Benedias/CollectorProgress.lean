import Benedias.CollectedLists

/-! The collector and its clients do not block each other for good: whoever is in a call can go on,
or waits for one that can. -/
namespace Benedias
namespace CollectorRun

open Interleaving CollectorThread

variable {D T C : Type}

/-- `Stop` has given its signal. -/
def OwnerPc.signals : OwnerPc → Bool
  | .stopTest _ | .stopLoad | .stopJoin => true
  | _ => false

structure Calls (s : Conf D T C) : Prop where
  constructing : s.owner.constructing → ∀ t, s.base.pc t = .idle
  born : s.run = .unborn → s.owner = .conActive ∨ s.owner = .conNew
  signalled : s.owner.signals → s.signalled

variable [DecidableEq D] [DecidableEq T] [DecidableEq C] {s s' : Conf D T C}

omit [DecidableEq D] [DecidableEq T] [DecidableEq C] in
theorem Calls.late (hb : s.run ≠ .unborn) (hc : s.owner.constructing = false)
    (hs : s.owner.signals → s.signalled) : Calls s where
  constructing h := by simp [hc] at h
  born h := absurd h hb
  signalled := hs

theorem Calls.move (hc : Calls s) (hi : CollectorThread.Inv s.base) {a : Label D T C}
    (m : Move s a s') : Calls s' := by
  have hb : s.owner ≠ .conActive → s.owner ≠ .conNew → s.run ≠ .unborn := fun h1 h2 h => by
    rcases hc.born h with h | h
    · exact h1 h
    · exact h2 h
  cases m with
  | clients ha ho hf => exact ⟨fun h => (by simp [ho] at h),hc.born,hc.signalled⟩
  | push hd hf =>
    cases fire_cases hi hf with
    | enqueue => exact ⟨hc.constructing,hc.born,hc.signalled⟩
  | emptied hf =>
    cases fire_cases hi hf with
    | emptied => exact ⟨hc.constructing,hc.born,hc.signalled⟩
  | begin hr ha hf =>
    cases fire_cases hi hf with
    | pass => exact ⟨hc.constructing,fun h => (by cases h),hc.signalled⟩
  | collect hr hl hf =>
    have m := stepCollector_move hi hf
    refine ⟨fun h t => (congrFun m.pc t).trans (hc.constructing h t),fun h => ?_,hc.signalled⟩
    simp only [next] at h
    split at h
    · split at h <;> cases h
    · cases h
  | conActive ho =>
    refine ⟨fun _ => hc.constructing (by rw [ho]; rfl),fun _ => .inr rfl,fun h => ?_⟩
    cases h
  | conNew ho =>
    refine ⟨fun _ => hc.constructing (by rw [ho]; rfl),fun h => ?_,fun h => ?_⟩ <;> cases h
  | conThrd ho | stop ho | stopActive ho | noJoin ho | null ho | stopJoin ho =>
    exact .late (hb (by simp [ho]) (by simp [ho])) rfl fun h => (by cases h)
  | stopSignal ho => exact .late (hb (by simp [ho]) (by simp [ho])) rfl fun _ => rfl
  | use ho ht =>
    exact .late (hb (by simp [ho]) (by simp [ho])) rfl fun _ => hc.signalled (by rw [ho]; rfl)
  | stopLoad ho =>
    refine .late (hb (by simp [ho]) (by simp [ho])) ?_ fun _ => hc.signalled (by rw [ho]; rfl)
    dsimp only
    split <;> rfl
  | load | notify | signal => exact ⟨hc.constructing,hc.born,hc.signalled⟩
  | leave | sleep | repost | wake | clear =>
    exact ⟨hc.constructing,fun h => (by cases h),hc.signalled⟩

theorem reachable_calls (hr : (system D T C).Reachable s) : Calls s := by
  refine hr.invariant (fun s h => ?_) fun s a s' hs hi hf =>
    hi.move (reachable_base hs) (fire_move hf)
  obtain rfl : s = start := h
  exact ⟨fun _ _ => rfl,fun _ => .inl rfl,fun h => by cases h⟩

omit [DecidableEq D] in
theorem stepRun_isSome {ok left : Bool} (hu : s.run ≠ .unborn) (hd : s.run ≠ .done)
    (hw : s.run = .wait → s.sema) (hidle : s.run = .test → s.base.collector = .idle)
    (hok : ok → left = false) (hc : s.run = .collect → (stepCollector s.base ok left).isSome) :
    (stepRun s ok left).isSome := by
  cases hr : s.run with
  | unborn => exact absurd hr hu
  | done => exact absurd hr hd
  | test =>
    by_cases ha : s.active <;> simp [stepRun,hr,ha,CollectorThread.fire,hidle hr]
  | collect =>
    have hn : ¬(ok ∧ left) := by
      rintro ⟨h,h'⟩
      rw [hok h] at h'
      cases h'
    simpa [stepRun,hr,hn] using hc hr
  | wait => simp [stepRun,hr,OneBitSemaphore.Op.act,hw hr]
  | sleep | post | clear => simp [stepRun,hr,OneBitSemaphore.Op.act]

end CollectorRun

namespace CollectedLists

open Interleaving CollectorThread

variable {D T C L : Type} [DecidableEq D] [DecidableEq T] [DecidableEq C] [DecidableEq L]

/-- `Disciplined`, and no node is refilled while `Delete` of it has not returned. -/
def Checked (s : Conf D T C L) (b : Label D T C L) : Prop :=
  Disciplined s b ∧ ∀ m ∈ moves s b, SharedList.NoRefill (s.each m.1) m.2

def Can (s : Conf D T C L) (b : Label D T C L) : Prop := ((system D T C L).fire s b).isSome

def holderStep : Owner T → Label D T C L
  | .client t => .other (.clients (.client t))
  | .collector => .thread

def listStep (c : C) : Option D → Label D T C L
  | none => .thread
  | some d => .call d c (.step (some d))

/-- The thread is in `Collect`, and another one has `collector_client_lock`. -/
def Waits (s : Conf D T C L) (c : C) (t : Option D) : Prop :=
  (s.each c).pc t = .colLock ∧ (s.each c).lock ≠ none

/-- Nobody is blocked but by one that can go on. -/
structure Progress (s : Conf D T C L) : Prop where
  /-- in a function of a list; the push of `Delete` is followed by the signal -/
  user : ∀ d c, (s.each c).pc (some d) ≠ .idle →
    s.one.base.life c ≠ .gone ∨ ((s.each c).pc (some d)).collecting →
    Can s (.call d c (.step (some d))) ∨ Can s (.other (.deleter d)) ∨ Waits s c (some d)
  /-- who has `collector_client_lock` can go on -/
  collect : ∀ c t, (s.each c).lock = some t →
    Can s (listStep c t) ∨ ∃ d, t = some d ∧ Can s (.other (.deleter d))
  signal : ∀ d, s.one.deleter d ≠ .idle → Can s (.other (.deleter d))
  /-- in `RegisterClient` or `DeregisterClient` -/
  client : ∀ t, s.one.base.pc t ≠ .idle →
    Can s (.other (.clients (.client t))) ∨ ∃ o, s.one.base.dataLock = some o
  lock : ∀ o, s.one.base.dataLock = some o → Can s (holderStep o)
  /-- `DeregisterClient` spins while the collector is in `Collect` of its client -/
  spin : ∀ c, s.one.base.state c = .collecting → Can s .thread ∨ Waits s c none
  /-- `Run` waits for a lock, or for a signal when nobody stops it -/
  run : s.one.run ≠ .unborn → s.one.run ≠ .done → Can s .thread ∨
    (∃ t, s.one.base.dataLock = some (.client t)) ∨ (∃ c, Waits s c none) ∨
    s.one.run = .wait ∧ s.one.sema = false ∧ s.one.owner.signals = false
  owner : s.one.owner ≠ .idle → s.one.owner ≠ .nullJoin →
    Can s (.other .owner) ∨ s.one.owner = .stopJoin ∧ s.one.run ≠ .unborn ∧ s.one.run ≠ .done

variable {s : Conf D T C L} {b : Label D T C L}

theorem Can.intro (hal : allowed s b) (hact : ((joint D T C L).act s b).isSome)
    (hmove : ((joint D T C L).move s b).isSome) : Can s b := by
  obtain ⟨r,hr⟩ := Option.isSome_iff_exists.mp hact
  obtain ⟨f,hf⟩ := Option.isSome_iff_exists.mp hmove
  have hal : (joint D T C L).allowed s b := hal
  simp [Can,system,Joint.system,Joint.fire,hal,hr,hf]

theorem Can.other {a : CollectorRun.Label D T C} (ha : ofOthers a)
    (h : (CollectorRun.fire (view s) a).isSome) : Can s (.other a) := .intro ha h rfl

theorem checked_each (hr : (system D T C L).ReachableVia Checked s) (c : C) :
    (SharedList.system (Option D) L).ReachableVia SharedList.Unrefilled (s.each c) := by
  refine Joint.each_reachable (J:=joint D T C L) (fun s b hd c a hm => ?_) hr c
  exact ⟨(hd.1.1 (c,a) hm).2.1,hd.2 (c,a) hm⟩

/-- In a list a thread waits for nothing but the lock of `Collect`. -/
theorem list_isSome (hr : (system D T C L).ReachableVia Checked s) {c : C} {t : Option D}
    (hp : (s.each c).pc t ≠ .idle) :
    (((s.each c).pc t).next (s.each c)).isSome ∨ Waits s c t := by
  obtain ⟨place,hi,hf⟩ := SharedList.reachable_fields (checked_each hr c)
  have hnf : (s.each c).pc t ≠ .notFound := fun h => by
    have hpos := hi.pos t
    rw [h] at hpos
    exact hpos
  have hfail := hf.alive t
  cases hc : ((s.each c).pc t).collecting with
  | false =>
    have hnext := SharedList.next_isSome (c:=s.each c) hc
    exact .inl (((hnext.resolve_left hp).resolve_left hfail).resolve_left hnf)
  | true =>
    rcases SharedList.busy_of_collecting hc with ⟨b,hb⟩ | hb
    · rw [hb]
      exact .inl rfl
    · rcases SharedList.busy_isSome (c:=s.each c) hb with h | h | h | h
      · exact absurd h hfail
      · exact absurd h hnf
      · exact .inr h
      · exact .inl h

theorem locked_critical (hr : (system D T C L).ReachableVia Checked s) {c : C} {t : Option D}
    (ht : (s.each c).lock = some t) : ((s.each c).pc t).critical := by
  obtain ⟨place,hi,hf⟩ := SharedList.reachable_fields (checked_each hr c)
  rcases SharedList.reachable_locked (checked_each hr c) t ht with h | h | h
  · exact h
  · exact absurd h (hf.alive t)
  · have hpos := hi.pos t
    rw [h] at hpos
    exact hpos.elim

omit [DecidableEq L] in
/-- `Collect` returns true only when it leaves nothing. -/
theorem returns_left {m : HazardPointerList} {p : SharedList.Pc L} {ok : Bool}
    (h : p.returns m = some ok) : ok → m.haveDeletes = false := by
  rintro rfl
  cases p with
  | colTest =>
    simp only [SharedList.Pc.returns] at h
    split at h <;> cases h
  | colDone => simpa [SharedList.Pc.returns,HazardPointerList.haveDeletes] using h
  | _ => cases h

/-- The thread of `Run` can go on, if neither the semaphore nor a lock stops it. -/
theorem can_thread (hl : Linked s) (hr : (system D T C L).ReachableVia Checked s)
    (hw : (view s).run = .collect ↔ (view s).base.collector ≠ .idle)
    (hu : s.one.run ≠ .unborn) (hd : s.one.run ≠ .done) (hwait : s.one.run = .wait → s.one.sema)
    (hwaits : ∀ c, ¬Waits s c none)
    (hstep : (view s).base.collector ≠ .idle → ∀ ok left,
      (stepCollector (view s).base ok left).isSome) : Can s .thread := by
  have hidle : (view s).run = .test → (view s).base.collector = .idle := fun ht => by
    by_contra h
    cases ht.symm.trans (hw.mpr h)
  have hrun : ∀ ok left : Bool, (ok → left = false) →
      ((CollectorRun.system D T C).fire (view s) (.run ok left)).isSome := fun ok left hok =>
    CollectorRun.stepRun_isSome hu hd hwait hidle hok fun hc => hstep (hw.mp hc) ok left
  have hlist : ∀ c, (s.each c).pc none ≠ .idle →
      (SharedList.fire (s.each c) (.step none)).isSome := fun c hp => by
    simpa [SharedList.fire] using (list_isSome hr hp).resolve_right (hwaits c)
  refine .intro rfl ?_ ?_ <;> simp only [Joint.act,Joint.move,joint,acts,moves] <;>
    cases hp : s.one.base.collector
  case refine_1.inside curr pending c =>
    cases hret : ((s.each c).pc none).returns (s.each c).mem with
    | some ok => simpa [hret] using hrun ok _ (returns_left hret)
    | none =>
      by_cases hem : (s.each c).empties (.step none)
      · simp [hret,hem,CollectorRun.system,CollectorRun.fire,CollectorThread.fire]
      · simp [hret,hem]
  case refine_1.release curr pending c =>
    by_cases hpc : (s.each c).pc none = .idle
    · simpa [hpc] using hrun true false fun _ => rfl
    · simp [hpc]
  case refine_2.collect curr pending c =>
    have hreads := hl c
    rw [hp] at hreads
    have hpc : (s.each c).pc none = .idle := hreads
    simp [SharedList.system,SharedList.fire,hpc]
  case refine_2.inside curr pending c =>
    have hreads := hl c
    rw [hp] at hreads
    have hb : ((s.each c).pc none).busy := by simpa [Reads] using hreads
    have hpc : (s.each c).pc none ≠ .idle := fun h => by
      rw [h] at hb
      cases hb
    simpa [SharedList.system] using hlist c hpc
  case refine_2.release curr pending c =>
    by_cases hpc : (s.each c).pc none = .idle
    · simp [hpc]
    · simpa [SharedList.system,hpc] using hlist c hpc
  all_goals first | rfl | exact hrun true false fun _ => rfl

/-- A thread can go on in a list, also after the list is gone if it is in `Collect`. -/
theorem can_user (hr : (system D T C L).ReachableVia Checked s) {d : D} {c : C}
    (hn : (((s.each c).pc (some d)).next (s.each c)).isSome)
    (hlife : s.one.base.life c ≠ .gone ∨ ((s.each c).pc (some d)).collecting)
    (hd : s.one.deleter d = .idle) : Can s (.call d c (.step (some d))) := by
  refine .intro ?_ ?_ ?_
  · simp [allowed,SharedList.Label.by,hd]
  · have hd : (view s).deleter d = .idle := hd
    simp only [Joint.act,joint,acts]
    by_cases hpush : ((s.each c).writeOf (.step (some d))).pushesGc
    · have hlife : (view s).base.life c ≠ .gone := hlife.resolve_right fun hc => by
        have haimed := SharedList.reachable_aimed (checked_each hr c) (some d)
        cases (SharedList.collecting_pushesGc haimed hc).symm.trans hpush
      simp [hpush,CollectorRun.system,CollectorRun.fire,CollectorThread.fire,hd,hlife]
    · by_cases hem : (s.each c).empties (.step (some d))
      · simp [hpush,hem,CollectorRun.system,CollectorRun.fire,CollectorThread.fire]
      · simp [hpush,hem]
  · simpa [Joint.move,joint,moves,SharedList.system,SharedList.fire] using hn

theorem can_client (hcalls : CollectorRun.Calls (view s)) {t : T} (hp : s.one.base.pc t ≠ .idle)
    (h : (stepClient (view s).base t).isSome) :
    Can s (.other (.clients (.client t))) := by
  have hc : (view s).owner.constructing = false := by
    by_contra hc
    exact hp (hcalls.constructing (by simpa using hc) t)
  refine .other rfl ?_
  simpa [CollectorRun.fire,CollectorRun.ofClients,hc,CollectorThread.fire] using h

omit [DecidableEq D] [DecidableEq L] in
theorem client_isSome (hi : CollectorThread.Inv (view s).base) {t : T} (hp : s.one.base.pc t ≠ .idle) :
    (stepClient (view s).base t).isSome ∨ ∃ o, s.one.base.dataLock = some o := by
  have hok := hi.threads t
  have hpc : (view s).base.pc t = s.one.base.pc t := rfl
  have hlock : (view s).base.dataLock = s.one.base.dataLock := rfl
  cases hl : s.one.base.dataLock with
  | some o => exact .inr ⟨o,rfl⟩
  | none =>
    left
    cases h : s.one.base.pc t with
    | idle => exact absurd h hp
    | failed =>
      rw [hpc,h] at hok
      exact hok.elim
    | derFind c ix =>
      simp only [stepClient,hpc,h]
      split <;> rfl
    | derCas c =>
      simp only [stepClient,hpc,h]
      split <;> rfl
    | _ => simp [stepClient,hpc,h,hlock,hl]

omit [DecidableEq D] [DecidableEq T] [DecidableEq L] in
theorem clientp_isSome {v : CollectorThread.Conf T C} {c : C} (h : v.collector.clientp = some c)
    (ok left : Bool) : (stepCollector v ok left).isSome := by
  unfold stepCollector
  cases hp : v.collector with
  | release curr pending c' =>
    dsimp only
    split <;> rfl
  | unlock | collect | inside => rfl
  | _ =>
    rw [hp] at h
    cases h

theorem can_signal {d : D} (hd : s.one.deleter d ≠ .idle) : Can s (.other (.deleter d)) := by
  refine .other rfl ?_
  have hd' : (view s).deleter d = s.one.deleter d := rfl
  cases h : s.one.deleter d with
  | idle => exact absurd h hd
  | load c | signal => simp [CollectorRun.fire,CollectorRun.stepDeleter,hd',h,OneBitSemaphore.Op.act]

theorem checked_linked (hr : (system D T C L).ReachableVia Checked s) :
    Linked s ∧ (CollectorRun.system D T C).ReachableVia CollectorRun.Noticed (view s) :=
  reachable_linked (hr.mono fun _ _ h => h.1)

/-- Inside of a pass `Run` goes on without a lock in its way. -/
theorem can_pass (hr : (system D T C L).ReachableVia Checked s)
    (hc : s.one.base.collector ≠ .idle) (hwaits : ∀ c, ¬Waits s c none)
    (hstep : ∀ ok left, (stepCollector (view s).base ok left).isSome) : Can s .thread := by
  obtain ⟨hl,ho⟩ := checked_linked hr
  obtain ⟨ids,hw⟩ := CollectorRun.reachable_watch ho
  have hrun : s.one.run = .collect := hw.passing.mpr hc
  exact can_thread hl hr hw.passing (by simp [hrun]) (by simp [hrun]) (by simp [hrun]) hwaits
    fun _ => hstep

/-- With a client in its hands it may wait for the lock of that client only. -/
theorem can_clientp (hr : (system D T C L).ReachableVia Checked s) {c : C}
    (hc : s.one.base.collector.clientp = some c) : Can s .thread ∨ Waits s c none := by
  by_cases hwait : Waits s c none
  · exact .inr hwait
  · refine .inl (can_pass hr (fun h => ?_) (fun c' h => ?_) (clientp_isSome hc))
    · rw [h] at hc
      cases hc
    · obtain ⟨curr,pending,hcol⟩ := (checked_linked hr).1.waits h.1
      rw [hcol] at hc
      obtain rfl : c' = c := Option.some.inj hc
      exact hwait h

theorem can_holder (hr : (system D T C L).ReachableVia Checked s) {o : Owner T}
    (ho : s.one.base.dataLock = some o) : Can s (holderStep o) := by
  obtain ⟨hl,hn⟩ := checked_linked hr
  have hi := CollectorRun.reachable_base hn.reachable
  cases o with
  | client t =>
    have hc : ((view s).base.pc t).critical := (hi.locked t).mpr ho
    refine can_client (CollectorRun.reachable_calls hn.reachable) (fun h => ?_)
      (stepClient_enabled hc)
    have hpc : (view s).base.pc t = .idle := h
    rw [hpc] at hc
    cases hc
  | collector =>
    have hc : s.one.base.collector.critical := hi.collectorLocked.mpr ho
    have hne : s.one.base.collector ≠ .idle := fun h => by
      rw [h] at hc
      cases hc
    refine can_pass hr hne (fun c h => ?_) ((hi.turn hne).resolve_right fun ⟨t,ht,_⟩ => ?_)
    · obtain ⟨curr,pending,hcol⟩ := hl.waits h.1
      rw [hcol] at hc
      cases hc
    · cases ho.symm.trans ht

theorem can_collect (hr : (system D T C L).ReachableVia Checked s) {c : C} {t : Option D}
    (ht : (s.each c).lock = some t) :
    Can s (listStep c t) ∨ ∃ d, t = some d ∧ Can s (.other (.deleter d)) := by
  have hc := locked_critical hr ht
  have hidle : (s.each c).pc t ≠ .idle := fun h => by
    rw [h] at hc
    cases hc
  have hlock : ¬Waits s c t := fun h => by
    rw [h.1] at hc
    cases hc
  cases t with
  | none =>
    have hclientp := (checked_linked hr).1.clientp hidle
    exact .inl ((can_clientp hr hclientp).resolve_right hlock)
  | some d =>
    by_cases hd : s.one.deleter d = .idle
    · have hn := (list_isSome hr hidle).resolve_right hlock
      exact .inl (can_user hr hn (.inr (SharedList.collecting_of_critical hc)) hd)
    · exact .inr ⟨d,rfl,can_signal hd⟩

theorem can_run (hr : (system D T C L).ReachableVia Checked s) (hu : s.one.run ≠ .unborn)
    (hd : s.one.run ≠ .done) : Can s .thread ∨
      (∃ t, s.one.base.dataLock = some (.client t)) ∨ (∃ c, Waits s c none) ∨
      s.one.run = .wait ∧ s.one.sema = false ∧ s.one.owner.signals = false := by
  obtain ⟨hl,ho⟩ := checked_linked hr
  obtain ⟨ids,hw⟩ := CollectorRun.reachable_watch ho
  have hi := CollectorRun.reachable_base ho.reachable
  by_cases hwait : s.one.run = .wait ∧ s.one.sema = false
  · refine .inr (.inr (.inr ⟨hwait.1,hwait.2,?_⟩))
    by_contra hsig
    have hsig : s.one.owner.signals := by simpa using hsig
    have hsignalled := (CollectorRun.reachable_calls ho.reachable).signalled hsig
    have hrun : (view s).run = .wait := hwait.1
    have hsema : (view s).sema = false := hwait.2
    simpa [hrun,hsema] using ((CollectorRun.reachable_owner ho.reachable).signalled hsignalled).2
  by_cases hwaits : ∃ c, Waits s c none
  · exact .inr (.inr (.inl hwaits))
  by_cases ht : ∃ t, s.one.base.dataLock = some (.client t)
  · exact .inr (.inl ht)
  refine .inl ?_
  have hwaits : ∀ c, ¬Waits s c none := fun c h => hwaits ⟨c,h⟩
  by_cases hc : s.one.base.collector = .idle
  · refine can_thread hl hr hw.passing hu hd (fun h => ?_) hwaits fun h => absurd hc h
    by_contra hsema
    exact hwait ⟨h,by simpa using hsema⟩
  · exact can_pass hr hc hwaits ((hi.turn hc).resolve_right fun ⟨t,h,_⟩ => ht ⟨t,h⟩)

theorem can_owner (hcalls : CollectorRun.Calls (view s)) (hidle : s.one.owner ≠ .idle)
    (hnull : s.one.owner ≠ .nullJoin) : Can s (.other .owner) ∨
      s.one.owner = .stopJoin ∧ s.one.run ≠ .unborn ∧ s.one.run ≠ .done := by
  have hown : (view s).owner = s.one.owner := rfl
  have hrun : (view s).run = s.one.run := rfl
  cases h : s.one.owner with
  | idle => exact absurd h hidle
  | nullJoin => exact absurd h hnull
  | stopJoin =>
    by_cases hd : s.one.run = .done
    · exact .inl (.other rfl (by simp [CollectorRun.fire,CollectorRun.stepOwner,hown,hrun,h,hd]))
    · refine .inr ⟨rfl,fun hu => ?_,hd⟩
      rcases hcalls.born hu with hb | hb <;> cases h.symm.trans hb
  | _ =>
    exact .inl (.other rfl
      (by simp [CollectorRun.fire,CollectorRun.stepOwner,hown,h,OneBitSemaphore.Op.act]))

instance [Fintype D] [Fintype L] (s : Conf D T C L) (b : Label D T C L) : Decidable (Checked s b) :=
  inferInstanceAs (Decidable (_ ∧ _))

/-- The collector is in `Collect` of a client that thread 0 tries to deregister, thread 1 waits with a
`Collect` of its own, and the owner has come to the join of `Stop`. -/
def progressSchedule : List (Label Party Party Party Unit) :=
  List.flatten [garbageSchedule,List.replicate 20 .thread,
    [.call 1 0 (.collect (some 1)),.call 1 0 (.step (some 1))],
    [.other (.clients (.deregister 0 0))],List.replicate 2 (.other (.clients (.client 0))),
    [.other (.stop true)],List.replicate 4 (.other .owner)]

def progressConf : Conf Party Party Party Unit :=
  ((system Party Party Party Unit).execVia Checked startConf progressSchedule).getD startConf

theorem progressConf_reachable :
    (system Party Party Party Unit).ReachableVia Checked progressConf :=
  .execViaD progressSchedule (.init ⟨rfl,fun _ => rfl⟩)

end CollectedLists
end Benedias
