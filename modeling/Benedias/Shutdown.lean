import Benedias.CollectorRun

/-! `Stop` against `Run`: the stop request is never lost and a join is the end of `Run`, but
between its two reads of `thrd` the second one may find what `Run` has cleared. -/
namespace Benedias
namespace CollectorRun

open Interleaving CollectorThread

variable {D T C : Type}

/-- What holds of the constructor, `Stop` and `Run` in every state. -/
structure OwnerInv (s : Conf D T C) : Prop where
  unborn : s.owner = .conActive ∨ s.owner = .conNew → s.run = .unborn
  fresh : s.owner.constructing → s.signalled = false ∧ s.joined = false
  cleared : s.thrd = false → s.owner.constructing ∨ s.run = .done
  stopping : ∀ join, s.owner = .stopSignal join → s.active = false
  joined : s.joined → s.run = .done
  signalled : s.signalled → s.active = false ∧
    (s.sema ∨ s.run = .test ∨ s.run = .clear ∨ s.run = .done)

theorem ownerInv_start : OwnerInv (start : Conf D T C) := by
  constructor <;> simp [start,OwnerPc.constructing]

variable {s s' : Conf D T C}

/-- The steps of `Run`. -/
theorem OwnerInv.advance (hi : OwnerInv s) {b : CollectorThread.Conf T C} {sema thrd : Bool}
    {r : RunPc} (hu : s.run ≠ .unborn) (hd : s.run ≠ .done) (ht : thrd = s.thrd ∨ r = .done)
    (hs : s.sema ∨ s.run = .test ∨ s.run = .clear →
      s.active = false → sema ∨ r = .test ∨ r = .clear ∨ r = .done) :
    OwnerInv { s with base := b, thrd := thrd, sema := sema, run := r } where
  unborn ho := absurd (hi.unborn ho) hu
  fresh := hi.fresh
  cleared hn := by
    rcases ht with rfl | hr
    · exact .inl ((hi.cleared hn).resolve_right hd)
    · exact .inr hr
  stopping := hi.stopping
  joined hj := absurd (hi.joined hj) hd
  signalled hg := by
    obtain ⟨ha,h⟩ := hi.signalled hg
    refine ⟨ha,hs ?_ ha⟩
    rcases h with h | h | h | h
    · exact .inl h
    · exact .inr (.inl h)
    · exact .inr (.inr h)
    · exact absurd h hd

/-- The steps of `Stop` before and after its `Signal`. -/
theorem OwnerInv.goto (hi : OwnerInv s) {p : OwnerPc} (hc : s.owner.constructing = false)
    (hp : p.constructing = false) (hg : ∀ join, p ≠ .stopSignal join) :
    OwnerInv { s with owner := p } where
  unborn ho := by rcases ho with rfl | rfl <;> cases hp
  fresh h := by cases hp.symm.trans h
  cleared hn := .inr ((hi.cleared hn).resolve_left (by simp [hc]))
  stopping join ho := absurd ho (hg join)
  joined := hi.joined
  signalled := hi.signalled

theorem OwnerInv.signal (hi : OwnerInv s) : OwnerInv { s with sema := true } where
  unborn := hi.unborn
  fresh := hi.fresh
  cleared := hi.cleared
  stopping := hi.stopping
  joined := hi.joined
  signalled hg := ⟨(hi.signalled hg).1,.inl rfl⟩

theorem OwnerInv.return (hi : OwnerInv s) (hr : s.run = .done) : OwnerInv { s with joined := true, owner := .idle } where
  unborn ho := by rcases ho with ho | ho <;> cases ho
  fresh h := by cases h
  cleared _ := .inr hr
  stopping join ho := by cases ho
  joined _ := hr
  signalled := hi.signalled

variable [DecidableEq D] [DecidableEq T] [DecidableEq C]

theorem OwnerInv.move (hi : OwnerInv s) {a : Label D T C} (m : Move s a s') : OwnerInv s' := by
  cases m with
  | clients | push | emptied | load => exact ⟨hi.unborn,hi.fresh,hi.cleared,hi.stopping,hi.joined,hi.signalled⟩
  | notify hd =>
    have h := hi.signal
    exact ⟨h.unborn,h.fresh,h.cleared,h.stopping,h.joined,h.signalled⟩
  | signal => exact hi.signal
  -- Run
  | begin hr ha hf => exact hi.advance (by simp [hr]) (by simp [hr]) (.inl rfl) (by simp [ha])
  | leave hr ha => exact hi.advance (by simp [hr]) (by simp [hr]) (.inl rfl) (by simp)
  | collect hr hl hf =>
    refine hi.advance (by simp [hr]) (by simp [hr]) (.inl rfl) fun h _ => ?_
    exact .inl (by simpa [hr] using h)
  | sleep hr =>
    refine hi.advance (by simp [hr]) (by simp [hr]) (.inl rfl) fun h _ => ?_
    exact .inl (by simpa [hr] using h)
  | repost hr => exact hi.advance (by simp [hr]) (by simp [hr]) (.inl rfl) (by simp)
  | wake hr hs => exact hi.advance (by simp [hr]) (by simp [hr]) (.inl rfl) (by simp)
  | clear hr => exact hi.advance (by simp [hr]) (by simp [hr]) (.inr rfl) (by simp)
  -- the constructor
  | conActive ho =>
    have hf := hi.fresh (by rw [ho]; rfl)
    constructor
    case unborn => exact fun _ => hi.unborn (.inl ho)
    case fresh => exact fun _ => hf
    case cleared => exact fun _ => .inl rfl
    case stopping => exact fun join h => by cases h
    case joined => exact fun hj => by simp [hf.2] at hj
    case signalled => exact fun hg => by simp [hf.1] at hg
  | conNew ho =>
    have hf := hi.fresh (by rw [ho]; rfl)
    constructor
    case unborn => exact fun h => by simp at h
    case fresh => exact fun _ => hf
    case cleared => exact fun _ => .inl rfl
    case stopping => exact fun join h => by cases h
    case joined => exact fun hj => by simp [hf.2] at hj
    case signalled => exact fun hg => by simp [hf.1] at hg
  | conThrd ho =>
    constructor
    case unborn => exact fun h => by simp at h
    case fresh => exact fun h => by cases h
    case cleared => exact fun h => by cases h
    case stopping => exact fun join h => by cases h
    case joined => exact hi.joined
    case signalled => exact hi.signalled
  -- Stop
  | stop ho => exact hi.goto (by rw [ho]; rfl) rfl (by simp)
  | @stopActive join ho =>
    constructor
    case unborn => exact fun h => by simp at h
    case fresh => exact fun h => by cases h
    case cleared =>
      exact fun hn => .inr ((hi.cleared hn).resolve_left (by rw [ho]; simp [OwnerPc.constructing]))
    case stopping => exact fun _ _ => rfl
    case joined => exact hi.joined
    case signalled => exact fun hg => ⟨rfl,(hi.signalled hg).2⟩
  | @stopSignal join ho =>
    constructor
    case unborn => exact fun h => by simp at h
    case fresh => exact fun h => by cases h
    case cleared =>
      exact fun hn => .inr ((hi.cleared hn).resolve_left (by rw [ho]; simp [OwnerPc.constructing]))
    case stopping => exact fun _ h => by cases h
    case joined => exact hi.joined
    case signalled => exact fun _ => ⟨hi.stopping join ho,.inl rfl⟩
  | noJoin ho | use ho ht => exact hi.goto (by rw [ho]; rfl) rfl (by simp)
  | null ho ht =>
    exact hi.return ((hi.cleared ht).resolve_left (by rw [ho]; simp [OwnerPc.constructing]))
  | stopLoad ho =>
    refine hi.goto (by rw [ho]; rfl) ?_ ?_
    · split <;> rfl
    · split <;> simp
  | stopJoin ho hr => exact hi.return hr

theorem reachable_owner (hr : (system D T C).Reachable s) : OwnerInv s :=
  hr.invariant (fun _ h => h ▸ ownerInv_start) fun _ _ _ _ hi hf => hi.move (fire_move hf)

/-- `Run` does not clear `thrd` between the two reads of it in `Stop`. -/
def ClearApart (s : Conf D T C) : Label D T C → Prop
  | .run _ _ => ¬(s.run = .clear ∧ s.owner = .stopLoad)
  | _ => True

instance (s : Conf D T C) (a : Label D T C) : Decidable (ClearApart s a) := by
  cases a <;> unfold ClearApart <;> infer_instance

/-- What `Stop` has to keep. -/
structure SafeStop (s : Conf D T C) : Prop where
  /-- `join` is never called through NULL -/
  join : s.owner ≠ .nullJoin
  /-- after `Stop(true)` has returned, `Run` does nothing any more -/
  last : s.joined → s.run = .done
  awake : s.signalled → ¬(s.run = .wait ∧ s.sema = false)

/-- What `Stop` has read is still there. -/
def Kept (s : Conf D T C) : Prop := s.owner ≠ .nullJoin ∧ (s.owner = .stopLoad → s.thrd)

theorem Kept.move (hk : Kept s) {a : Label D T C} (hp : ClearApart s a) (m : Move s a s') :
    Kept s' := by
  obtain ⟨hn,ht⟩ := hk
  cases m with
  | stopLoad ho => simp [Kept,ht ho]
  | clear hr =>
    refine ⟨hn,fun ho => ?_⟩
    exact absurd ⟨hr,ho⟩ hp
  | use ho hthrd => exact ⟨by simp,fun _ => hthrd⟩
  | clients | push | emptied | load | notify | signal | begin | leave | collect | sleep | repost
  | wake =>
    exact ⟨hn,ht⟩
  | _ => simp [Kept]

/-- After a clear in that place the next step of `Stop` calls `join` through NULL. -/
theorem not_clearApart {a : Label D T C} (hp : ¬ClearApart s a) (h : fire s a = some s') :
    ∃ u, fire s' .owner = some u ∧ u.owner = .nullJoin := by
  cases a with
  | run ok left =>
    obtain ⟨hr,ho⟩ := not_not.mp hp
    simp only [fire,stepRun,hr] at h
    cases h
    exact ⟨_,by simp only [fire,stepOwner,ho]; rfl,rfl⟩
  | _ => exact absurd trivial hp

theorem safe_stop (hr : (system D T C).ReachableVia ClearApart s) :
    SafeStop s ∧ ∀ a s', fire s a = some s' → ¬ClearApart s a →
      ∃ u, fire s' .owner = some u ∧ ¬SafeStop u := by
  have hi := reachable_owner hr.reachable
  have hk : Kept s := by
    refine hr.invariant (I:=Kept) ?_ fun s a s' _ hk hp hf => hk.move hp (fire_move hf)
    rintro s rfl
    exact ⟨by simp [start],by simp [start]⟩
  refine ⟨⟨hk.1,hi.joined,?_⟩,fun a s' hf hp => ?_⟩
  · rintro hg ⟨hw,hs⟩
    simpa [hw,hs] using (hi.signalled hg).2
  · obtain ⟨u,hu,hn⟩ := not_clearApart hp hf
    exact ⟨u,hu,fun h => h.join hn⟩

/-- The collector is constructed, makes a pass without clients and waits; then `Stop(true)` is called
and has signalled. -/
def stopSchedule : List (Label Party Party Party) :=
  List.replicate 3 .owner++List.replicate 4 (.run false false)++[.stop true,.owner,.owner]

/-- `Stop` joins, and returns after `Run` has ended. -/
def joinSchedule : List (Label Party Party Party) :=
  stopSchedule++[.owner,.owner]++List.replicate 3 (.run false false)++[.owner]

def joinConf : Conf Party Party Party :=
  ((system Party Party Party).execVia ClearApart start joinSchedule).getD start

example : (joinConf.joined,joinConf.signalled,joinConf.run) = (true,true,.done) := by decide

theorem safe_stop_joinConf : SafeStop joinConf ∧ ∀ a s', fire joinConf a = some s' →
    ¬ClearApart joinConf a → ∃ u, fire s' .owner = some u ∧ ¬SafeStop u :=
  safe_stop (.execViaD joinSchedule (.init rfl))

/-- `Run` wakes up and leaves its loop, `Stop` finds that `thrd` is not NULL, `Run` clears it, and
`Stop` reads it again. -/
def crashSchedule : List (Label Party Party Party) :=
  stopSchedule++[.run false false,.run false false,.owner,.run false false,.owner]

def crashConf : Conf Party Party Party :=
  ((system Party Party Party).exec start crashSchedule).getD start

theorem not_safe_stop : (system Party Party Party).Reachable crashConf ∧
    crashConf.owner = .nullJoin ∧ ¬SafeStop crashConf :=
  ⟨.execD crashSchedule (.init rfl),by decide,fun h => h.join (by decide)⟩

end CollectorRun
end Benedias
