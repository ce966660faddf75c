import Benedias.CollectedLists

/-! The collector does not spin: each pass of `Run` after the first is paid for by a signal, or by a
`Collect` of a client that could not delete everything. -/
namespace Benedias
namespace CollectorRun

open Interleaving CollectorThread

variable {D T C : Type}

def turn (s : Conf D T C) : ℕ :=
  match s.run with
  | .unborn | .test | .sleep | .post => 1
  | .collect => if s.base.collector.pending = some true then 1 else 0
  | .wait | .clear | .done => 0

/-- The passes to come before `Run` waits for a signal that nobody has given yet. -/
def owed (s : Conf D T C) : ℕ := s.sema.toNat + turn s

def passes (s : Conf D T C) : Label D T C → ℕ
  | .run _ _ => if s.run = .test ∧ s.active then 1 else 0
  | _ => 0

/-- A signal to the collector: by `Delete`, by a call of `Signal`, or by `Stop`. -/
def signals (s : Conf D T C) : Label D T C → ℕ
  | .signal => 1
  | .deleter d =>
    match s.deleter d with
    | .signal => 1
    | _ => 0
  | .owner =>
    match s.owner with
    | .stopSignal _ => 1
    | _ => 0
  | _ => 0

def leaves (s : Conf D T C) : Label D T C → ℕ
  | .run ok _ =>
    match s.base.collector with
    | .inside _ _ _ => if ok then 0 else 1
    | _ => 0
  | _ => 0

variable {s s' : Conf D T C}

theorem owed_signal : owed { s with sema := true } ≤ owed s + 1 := by
  have h : turn { s with sema := true } = turn s := rfl
  simp only [owed,h,Bool.toNat_true]
  omega

theorem turn_begin {b : CollectorThread.Conf T C} (h : b.collector.pending = some false) :
    turn { s with base := b, run := .collect } = 0 := by
  simp [turn,h]

variable [DecidableEq C]

/-- Within a pass only the return of a client changes whether there is going to be another one. -/
theorem turn_walk {ok left : Bool} {b : CollectorThread.Conf T C} (hr : s.run = .collect)
    (h : Walk s.base ok left b) :
    turn { s with base := b, run := next s.base.collector } ≤ turn s + leaves s (.run ok left) := by
  cases h with
  | @finish curr pending hp => cases pending <;> simp [turn,hr,hp,next,CollectorPc.pending]
  | @ret curr pending c hp =>
    cases ok <;> simp [turn,hr,hp,next,leaves,CollectorPc.pending]
  | lock hp | next hp | done hp | skip hp | take hp | empty hp | full hp | won hp | lost hp
  | unlock hp | call hp | back hp => simp [turn,hr,hp,next,CollectorPc.pending]

variable [DecidableEq D] [DecidableEq T]

/-- A signal, or a client that leaves something, brings in one pass, and a pass uses one up. -/
theorem Move.owed (ho : OwnerInv s) (hi : CollectorThread.Inv s.base) {a : Label D T C}
    (m : Move s a s') : owed s' + passes s a ≤ owed s + (signals s a + leaves s a) := by
  cases m with
  | @clients a b hof hc hf =>
    obtain ⟨-,hcol⟩ := fire_clients hi hf (by rintro rfl; cases hof) (by rintro _ _ rfl; cases hof)
      (by rintro _ rfl; cases hof) (by rintro _ rfl; cases hof)
    simp [CollectorRun.owed,turn,hcol,passes]
  | @push d c b hd hf =>
    cases fire_cases hi hf with
    | enqueue => simp [CollectorRun.owed,turn,passes]
  | @emptied c b hf =>
    cases fire_cases hi hf with
    | emptied => simp [CollectorRun.owed,turn,passes]
  | notify hd =>
    have h := owed_signal (s:=s)
    simpa [CollectorRun.owed,turn,passes,signals,leaves,hd] using h
  | signal =>
    have h := owed_signal (s:=s)
    simpa [passes,signals,leaves] using h
  | @begin ok left b hr ha hf =>
    have hidle : b.collector.pending = some false := by
      cases fire_cases hi hf with
      | pass => rfl
    have hturn : turn s = 1 := by simp [turn,hr]
    have hpass : passes s (.run ok left) = 1 := by simp [passes,hr,ha]
    simp only [CollectorRun.owed,turn_begin hidle,hturn,hpass]
    omega
  | @collect ok left b hr hl hf =>
    have h := turn_walk hr (stepCollector_walk hi hf)
    have hp : passes s (.run ok left) = 0 := by simp [passes,hr]
    simp only [CollectorRun.owed,hp]
    omega
  | @repost ok left hr =>
    have hturn : turn s = 1 := by simp [turn,hr]
    have hpass : passes s (.run ok left) = 0 := by simp [passes,hr]
    simp only [CollectorRun.owed,hturn,hpass]
    simp only [turn,Bool.toNat_true]
    omega
  | @wake ok left hr hs =>
    have hpass : passes s (.run ok left) = 0 := by simp [passes,hr]
    simp only [CollectorRun.owed,hpass,hs]
    simp only [turn,Bool.toNat_true,Bool.toNat_false]
    omega
  | @leave ok left hr ha =>
    have hpass : passes s (.run ok left) = 0 := by simp [passes,ha]
    simp only [CollectorRun.owed,hpass]
    simp only [turn]
    omega
  | sleep hr | clear hr => simp [CollectorRun.owed,turn,passes,hr]
  | stopSignal h =>
    have h' := owed_signal (s:=s)
    simpa [CollectorRun.owed,turn,passes,signals,leaves,h] using h'
  | conNew h =>
    have hu := ho.unborn (.inr h)
    simp [CollectorRun.owed,turn,passes,hu]
  | load | stop | conActive | conThrd | stopActive | noJoin | null | use | stopLoad | stopJoin =>
    simp [CollectorRun.owed,turn,passes]

end CollectorRun
namespace CollectedLists

open Interleaving CollectorThread

variable {D T C L : Type} [DecidableEq D] [DecidableEq T] [DecidableEq C] [DecidableEq L]

def counted (w : CollectorRun.Conf D T C → CollectorRun.Label D T C → ℕ) (s : Conf D T C L)
    (b : Label D T C L) : ℕ := (acts s b).elim 0 (w (view s))

/-- `Collect` of a client is about to return, and its gc list is not empty. -/
def leaves (s : Conf D T C L) : Label D T C L → ℕ
  | .thread =>
    match s.one.base.collector with
    | .inside _ _ c => if (s.each c).pc none = .colDone ∧ (s.each c).mem.haveDeletes then 1 else 0
    | _ => 0
  | _ => 0

/-- The client that the collector has found something of, up to the first test of its `Collect`. -/
def engaged (s : Conf D T C L) : Option C :=
  match s.one.base.collector with
  | .cas _ _ ix => s.one.base.clients[ix]?
  | .unlock _ _ clientp => clientp
  | .collect _ _ c => some c
  | .inside _ _ c => if (s.each c).pc none = .colTest then some c else none
  | _ => none

/-- Another thread empties the list that the collector has found something on. -/
def snatches (s : Conf D T C L) : Label D T C L → ℕ
  | .call _ c a => if engaged s = some c ∧ (s.each c).empties a then 1 else 0
  | _ => 0

/-- The list that the collector has found something on is empty. -/
def robbed (s : Conf D T C L) : Bool := (engaged s).any fun c => !haveDeletes s c

variable {s s' : Conf D T C L} {b : Label D T C L}

omit [DecidableEq D] [DecidableEq T] [DecidableEq C] in
theorem robbed_iff : robbed s ↔ ∃ c, engaged s = some c ∧ haveDeletes s c = false := by
  simp [robbed,Option.any_eq_true]

theorem clients_critical {b b' : CollectorThread.Conf T C} (hi : CollectorThread.Inv b)
    {a : CollectorThread.Label T C} (h : CollectorThread.fire b a = some b')
    (hc : b.collector.critical) : b'.clients = b.clients := by
  cases fire_cases hi h with
  | @client t b' hs =>
    have hfree := hi.free_of_critical hc t
    cases stepClient_lists hs with
    | quiet p hpc hq hcl => exact hcl
    | ident c hp hpc hcl | eraseId c ix hp hpc hcl => exact hcl
    | client c hp | erase c ix hp =>
      rw [hp] at hfree
      cases hfree
  | collector hs => exact (stepCollector_move hi hs).clients
  | register | deregister | pass | enqueue | emptied => rfl

omit [DecidableEq D] [DecidableEq T] [DecidableEq C] in
theorem engaged_same (hcol : s'.one.base.collector = s.one.base.collector)
    (hcl : s.one.base.collector.critical → s'.one.base.clients = s.one.base.clients)
    (hpc : ∀ c, (s'.each c).pc none = (s.each c).pc none) : engaged s' = engaged s := by
  simp only [engaged,hcol,hpc]
  cases hp : s.one.base.collector with
  | cas curr pending ix =>
    dsimp only
    rw [hcl (by rw [hp]; rfl)]
  | _ => rfl

omit [DecidableEq L] in
theorem run_clients {v r : CollectorRun.Conf D T C} {a : CollectorRun.Label D T C}
    (hi : CollectorThread.Inv v.base) (h : CollectorRun.fire v a = some r)
    (hc : v.base.collector.critical) : r.base.clients = v.base.clients := by
  cases CollectorRun.fire_move h with
  | clients ha ho hf => exact clients_critical hi hf hc
  | push hd hf | emptied hf | begin hr ha hf => exact clients_critical hi hf hc
  | collect hr hl hf => exact (stepCollector_move hi hf).clients
  | _ => rfl

theorem robbed_user {d : D} {c : C} {a : SharedList.Label (Option D) L}
    (hmove : (joint D T C L).move s (.call d c a) = some s'.each) (he : engaged s' = engaged s) :
    (robbed s').toNat ≤ (robbed s).toNat + snatches s (.call d c a) := by
  simp only [Joint.move,joint,moves] at hmove
  obtain ⟨l,hf,hl⟩ := Option.map_eq_some_iff.mp hmove
  have hf : SharedList.fire (s.each c) a = some l := hf
  by_cases hr : robbed s'
  · obtain ⟨c',hc,hd'⟩ := robbed_iff.mp hr
    rw [he] at hc
    cases hd : haveDeletes s c' with
    | false =>
      have h : robbed s := robbed_iff.mpr ⟨c',hc,hd⟩
      simp [h,hr]
    | true =>
      have hcc : c' = c := by
        by_contra hne
        rw [haveDeletes,← hl,Function.update_of_ne hne] at hd'
        cases hd.symm.trans hd'
      subst hcc
      have hl : l.mem.haveDeletes = false := by simpa [haveDeletes,← hl] using hd'
      have hem : (s.each c').empties a := by
        have hd : (s.each c').mem.haveDeletes = true := hd
        simp [SharedList.Conf.empties,hf,hd,hl]
      simp [snatches,hc,hem,hr]
  · simp [hr]

omit [DecidableEq D] [DecidableEq T] [DecidableEq C] in
/-- A false result is paid for by what is left on the list, or by the one who has robbed it. -/
theorem leaves_inside {c : C} {curr : ℕ} {pending ok : Bool}
    (hp : s.one.base.collector = .inside curr pending c)
    (hret : ((s.each c).pc none).returns (s.each c).mem = some ok) :
    (if ok then 0 else 1) ≤ (robbed s).toNat + leaves s .thread := by
  cases ok with
  | true => exact Nat.zero_le _
  | false =>
    generalize hq : (s.each c).pc none = q at hret
    cases q with
    | colTest =>
      have hd : (s.each c).mem.gcList = (s.each c).mem.endNode := by
        by_contra h
        simp [SharedList.Pc.returns,h] at hret
      have h : robbed s :=
        robbed_iff.mpr ⟨c,by simp [engaged,hp,hq],by simp [haveDeletes,HazardPointerList.haveDeletes,hd]⟩
      simp [h]
    | colDone =>
      have hd : (s.each c).mem.haveDeletes := by
        simpa [SharedList.Pc.returns,HazardPointerList.haveDeletes] using hret
      simp [leaves,hp,hq,hd]
    | _ => cases hret

/-- Between the calls the collector keeps the client that it is engaged with, or has just found
something of it. -/
theorem robbed_walk (hw : (view s).run = .collect ↔ (view s).base.collector ≠ .idle)
    (hi : CollectorThread.Inv (view s).base)
    (h : CollectorRun.fire (view s) (.run true false) = some s'.one)
    (hm : ∀ c, (s'.each c).mem = (s.each c).mem)
    (hin : ∀ curr pending c, s.one.base.collector ≠ .inside curr pending c) :
    robbed s' → robbed s := by
  have hview : (view s).base.collector = s.one.base.collector := rfl
  intro hr
  obtain ⟨c,hc,hd⟩ := robbed_iff.mp hr
  have hd : haveDeletes s c = false := by simpa only [haveDeletes,hm] using hd
  suffices hs : engaged s = some c from robbed_iff.mpr ⟨c,hs,hd⟩
  rcases run_cases hw h with ⟨hk,hb | hb⟩ | hf
  · simp [engaged,hb,hk] at hc
  · simp [engaged,hb] at hc
  · generalize hs : s'.one.base = r at hf
    simp only [engaged,hs] at hc
    cases stepCollector_walk hi hf with
    | @full curr ix pending c' hp hx hfull =>
      obtain rfl := Option.some.inj (hx.symm.trans hc)
      cases hfull.symm.trans hd
    | @won curr ix pending c' hp hx hst =>
      obtain rfl : c' = c := Option.some.inj hc
      rw [hview] at hp
      simp only [engaged,hp]
      exact hx
    | unlock hp =>
      rw [hview] at hp
      simpa [engaged,hp] using hc
    | call hp =>
      rw [hview] at hp
      dsimp only at hc
      split at hc
      · simpa [engaged,hp] using hc
      · cases hc
    | ret hp => exact absurd hp (hin _ _ _)
    | _ => cases hc

/-- Inside of `Collect` the collector is engaged up to its first test, which returns if the list is
empty. -/
theorem robbed_inside {c : C} {curr : ℕ} {pending : Bool}
    (hw : (view s).run = .collect ↔ (view s).base.collector ≠ .idle)
    (hi : CollectorThread.Inv (view s).base) (hp : s.one.base.collector = .inside curr pending c)
    (hact : (joint D T C L).act s .thread = some s'.one)
    (hmove : (joint D T C L).move s .thread = some s'.each) :
    counted CollectorRun.leaves s .thread + (robbed s').toNat ≤
      (robbed s).toNat + leaves s .thread := by
  have hview : (view s).base.collector = s.one.base.collector := rfl
  simp only [Joint.act,Joint.move,joint,acts,moves,hp] at hact hmove
  obtain ⟨l,hf,he⟩ := Option.map_eq_some_iff.mp hmove
  obtain ⟨w,q,hn,hpc,-⟩ := step_pc hf
  cases hret : ((s.each c).pc none).returns (s.each c).mem with
  | some ok =>
    simp only [hret] at hact
    have hrob : robbed s' = false := by
      rcases run_cases hw hact with ⟨hk,-⟩ | h
      · cases hp.symm.trans hk
      · generalize hs : s'.one.base = r at h
        simp only [stepCollector,hview,hp,Option.some.injEq] at h
        simp [robbed,engaged,hs,← h]
    have h := leaves_inside hp hret
    simpa [counted,acts,hp,hret,CollectorRun.leaves,hview,hrob] using h
  | none =>
    have hcol : s'.one.base.collector = .inside curr pending c := by
      simp only [hret] at hact
      split at hact
      next a ha =>
        split at ha <;> cases ha
        exact (emptied_base hi hact).2.trans hp
      · rw [← Option.some.inj hact]
        exact hp
    have htest : (s'.each c).pc none ≠ .colTest := by
      rw [← he,Function.update_self,hpc]
      exact SharedList.next_ne_colTest hn
    have hrob : robbed s' = false := by simp [robbed,engaged,hcol,htest]
    have hzero : counted CollectorRun.leaves s .thread = 0 := by
      simp only [counted,acts,hp,hret]
      split <;> rfl
    simp [hzero,hrob]

theorem robbed_thread (hw : (view s).run = .collect ↔ (view s).base.collector ≠ .idle)
    (hi : CollectorThread.Inv (view s).base)
    (hact : (joint D T C L).act s .thread = some s'.one)
    (hmove : (joint D T C L).move s .thread = some s'.each) :
    counted CollectorRun.leaves s .thread + (robbed s').toNat ≤
      (robbed s).toNat + leaves s .thread := by
  have hview : (view s).base.collector = s.one.base.collector := rfl
  have hwalk : acts s .thread = some (.run true false) →
      CollectorRun.fire (view s) (.run true false) = some s'.one →
      (∀ c, (s'.each c).mem = (s.each c).mem) →
      (∀ curr pending c, s.one.base.collector ≠ .inside curr pending c) →
      counted CollectorRun.leaves s .thread + (robbed s').toNat ≤
        (robbed s).toNat + leaves s .thread := by
    intro ha h hm hin
    have hzero : counted CollectorRun.leaves s .thread = 0 := by
      simp only [counted,ha,Option.elim_some,CollectorRun.leaves,hview]
    rw [hzero,Nat.zero_add]
    exact Nat.le_add_right_of_le (Bool.toNat_le_toNat (robbed_walk hw hi h hm hin))
  cases hp : s.one.base.collector with
  | inside curr pending c => exact robbed_inside hw hi hp hact hmove
  | release curr pending c =>
    simp only [Joint.act,Joint.move,joint,acts,moves,hp] at hact hmove
    by_cases hidle : (s.each c).pc none = .idle
    · simp only [if_pos hidle] at hact hmove
      refine hwalk (by simp only [acts,hp,if_pos hidle]) hact (fun c' => ?_) (by simp [hp])
      rw [← Option.some.inj hmove]
    · simp only [if_neg hidle] at hact hmove
      have hone := (Option.some.inj hact).symm
      have hrob : robbed s' = false := by simp [robbed,engaged,hone,hp]
      simp [counted,acts,hp,hidle,hrob]
  | collect curr pending c =>
    simp only [Joint.act,Joint.move,joint,acts,moves,hp] at hact hmove
    obtain ⟨l,hf,he⟩ := Option.map_eq_some_iff.mp hmove
    refine hwalk (by simp only [acts,hp]) hact (each_same (f:=fun l => l.mem) he.symm ?_) (by simp [hp])
    have hf : SharedList.fire (s.each c) (.collect none) = some l := hf
    simp only [SharedList.fire] at hf
    split at hf <;> cases hf
    rfl
  | _ =>
    simp only [Joint.act,Joint.move,joint,acts,moves,hp] at hact hmove
    refine hwalk (by simp only [acts,hp]) hact (fun c' => ?_) (by simp [hp])
    rw [← Option.some.inj hmove]

theorem robbed_fire (hw : (view s).run = .collect ↔ (view s).base.collector ≠ .idle)
    (hi : CollectorThread.Inv (view s).base) (h : (joint D T C L).fire s b = some s') :
    counted CollectorRun.leaves s b + (robbed s').toNat ≤
      (robbed s).toNat + (leaves s b + snatches s b) := by
  obtain ⟨hal,hact,hmove⟩ := Joint.fire_some h
  cases b with
  | thread => exact robbed_thread hw hi hact hmove
  | other a =>
    simp only [Joint.act,Joint.move,joint,acts,moves] at hact hmove
    have he := (Option.some.inj hmove).symm
    have hsame : engaged s' = engaged s :=
      engaged_same (others_base hi hal hact).2 (run_clients (v:=view s) hi hact) fun c => by rw [he]
    have hrob : robbed s' = robbed s := by simp only [robbed,hsame,haveDeletes,he]
    have hzero : counted CollectorRun.leaves s (.other a) = 0 := by
      cases a with
      | run => cases hal
      | _ => rfl
    rw [hzero,hrob]
    omega
  | store c x obj =>
    simp only [Joint.act,Joint.move,joint,acts,moves] at hact hmove
    obtain ⟨l,hf,he⟩ := Option.map_eq_some_iff.mp hmove
    cases hf
    have hone := (Option.some.inj hact).symm
    have hsame : engaged s' = engaged s := engaged_same (by rw [hone]) (fun _ => by rw [hone])
      (each_same (f:=fun l => l.pc none) he.symm rfl)
    have hrob : robbed s' = robbed s := by
      simp only [robbed,hsame,haveDeletes_same he.symm rfl]
    simp [counted,acts,hrob]
  | call d c a =>
    have hby := (of_decide_eq_true hal).1
    have hcol : s'.one.base.collector = s.one.base.collector ∧
        (s.one.base.collector.critical → s'.one.base.clients = s.one.base.clients) := by
      simp only [Joint.act,joint,acts] at hact
      split at hact
      next a' ha =>
        refine ⟨?_,run_clients (v:=view s) hi hact⟩
        split at ha
        · cases ha
          exact (push_base hi hact).2
        · split at ha <;> cases ha
          exact (emptied_base hi hact).2
      · rw [← Option.some.inj hact]
        exact ⟨rfl,fun _ => rfl⟩
    have hsame : engaged s' = engaged s := by
      simp only [Joint.move,joint,moves] at hmove
      obtain ⟨l,hf,he⟩ := Option.map_eq_some_iff.mp hmove
      exact engaged_same hcol.1 hcol.2 (each_same (f:=fun l => l.pc none) he.symm
        (SharedList.fire_pc hby hf (by simp)))
    have hzero : counted CollectorRun.leaves s (.call d c a) = 0 := by
      simp only [counted,acts]
      split
      · rfl
      · split <;> rfl
    have h := robbed_user hmove hsame
    omega

theorem owed_fire (hr : (system D T C L).ReachableVia Disciplined s)
    (h : (joint D T C L).fire s b = some s') :
    CollectorRun.owed (view s') + (robbed s').toNat + counted CollectorRun.passes s b ≤
      CollectorRun.owed (view s) + (robbed s).toNat +
        (counted CollectorRun.signals s b + (leaves s b + snatches s b)) := by
  obtain ⟨hl,ho⟩ := reachable_linked hr
  obtain ⟨-,hv⟩ := reachable_fire hr hl ho h
  obtain ⟨ids,hwatch⟩ := CollectorRun.reachable_watch ho
  have hi := CollectorRun.reachable_base ho.reachable
  have hrob := robbed_fire hwatch.passing hi h
  obtain ⟨-,hact,-⟩ := Joint.fire_some h
  suffices hle : CollectorRun.owed (view s') + counted CollectorRun.passes s b ≤
      CollectorRun.owed (view s) + (counted CollectorRun.signals s b +
        counted CollectorRun.leaves s b) by
    omega
  cases ha : acts s b with
  | none =>
    rw [ha] at hv
    simp only [counted,ha,Option.elim_none,hv]
    omega
  | some a =>
    rw [ha] at hv
    have hact : CollectorRun.fire (view s) a = some s'.one := by
      simp only [Joint.act,joint,ha] at hact
      exact hact
    have hm := (CollectorRun.fire_move hact).owed (CollectorRun.reachable_owner ho.reachable) hi
    simp only [counted,ha,Option.elim_some,hv]
    exact hm

/-- The collector makes at most one pass of its own accord, one for each signal, one for each time
that it has left something on the list of a client, and one for each time that another thread has
emptied the list before it. -/
theorem passes_le [∀ (s : Conf D T C L) b, Decidable (Disciplined s b)] {as : List (Label D T C L)}
    (hs : (system D T C L).init s) (h : (system D T C L).execVia Disciplined s as = some s') :
    (system D T C L).tally (counted CollectorRun.passes) s as ≤
      1 + (system D T C L).tally (counted CollectorRun.signals) s as +
        (system D T C L).tally leaves s as + (system D T C L).tally snatches s as := by
  have hr : (system D T C L).ReachableVia Disciplined s := .init hs
  obtain ⟨-,hle⟩ := hr.budget (I:=fun _ => True)
    (f:=fun s => CollectorRun.owed (view s) + (robbed s).toNat)
    (i:=fun s b => counted CollectorRun.signals s b + (leaves s b + snatches s b))
    (o:=counted CollectorRun.passes) (fun _ _ h => h) trivial
    (fun s b _ s' hs _ _ hf => ⟨trivial,owed_fire hs hf⟩) h
  have hone : CollectorRun.owed (view s) + (robbed s).toNat = 1 := by
    obtain ⟨one,each⟩ := s
    obtain ⟨rfl,-⟩ := hs
    rfl
  rw [System.tally_add,System.tally_add] at hle
  omega

/-- After an empty pass client 0 is registered, and thread 0 gets two nodes from its list. -/
def idleSchedule : List (Label Party Party Party Unit) :=
  List.flatten [List.replicate 3 (.other .owner),List.replicate 4 .thread,
    [.other (.clients (.register 0 0))],List.replicate 8 (.other (.clients (.client 0))),
    userSteps (.acquireNode (some 0)) 7,userSteps (.acquireNode (some 0)) 7]

/-- Thread 0 queues the object 5 that it guards with another node; two passes leave it on the list,
and the collector begins a third one. -/
def turnsSchedule : List (Label Party Party Party Unit) :=
  List.flatten [idleSchedule,[.store 0 () 5],
    userSteps (.acquire (some 0) 2 ()) 5,userSteps (.validate (some 0) 2 ()) 2,
    userSteps (.acquire (some 0) 3 ()) 5,userSteps (.validate (some 0) 3 ()) 2,[.store 0 () 0],
    userSteps (.delete (some 0) 3 true) 12,
    [.other (.deleter 0),.other (.deleter 0),.call 0 0 (.step (some 0))],
    List.replicate 70 .thread]

/-- The collector has found object 5 on the list when thread 0 deletes it, in a `Collect` of its own;
the one of the collector returns false, and there is another pass. -/
def snatchSchedule : List (Label Party Party Party Unit) :=
  List.flatten [idleSchedule,queueSteps 5 2,List.replicate 6 .thread,
    userSteps (.collect (some 0)) 28,List.replicate 20 .thread]

def turnsConf : Conf Party Party Party Unit :=
  ((system Party Party Party Unit).execVia Disciplined startConf turnsSchedule).getD startConf

def snatchConf : Conf Party Party Party Unit :=
  ((system Party Party Party Unit).execVia Disciplined startConf snatchSchedule).getD startConf

theorem turnsConf_exec :
    (system Party Party Party Unit).execVia Disciplined startConf turnsSchedule =
      some turnsConf := System.execVia_getD (by decide +kernel)

theorem snatchConf_exec :
    (system Party Party Party Unit).execVia Disciplined startConf snatchSchedule =
      some snatchConf := System.execVia_getD (by decide +kernel)

def total (w : Conf Party Party Party Unit → Label Party Party Party Unit → ℕ)
    (as : List (Label Party Party Party Unit)) : ℕ :=
  (system Party Party Party Unit).tally w startConf as

theorem passes_le_turnsConf :
    (total (counted CollectorRun.passes) turnsSchedule,
      total (counted CollectorRun.signals) turnsSchedule,
      total leaves turnsSchedule,total snatches turnsSchedule) = (4,1,2,0) ∧
    total (counted CollectorRun.passes) turnsSchedule ≤
      1 + total (counted CollectorRun.signals) turnsSchedule + total leaves turnsSchedule +
        total snatches turnsSchedule ∧
    (total (counted CollectorRun.passes) snatchSchedule,
      total (counted CollectorRun.signals) snatchSchedule,
      total leaves snatchSchedule,total snatches snatchSchedule) = (3,1,0,1) ∧
    total (counted CollectorRun.passes) snatchSchedule ≤
      1 + total (counted CollectorRun.signals) snatchSchedule + total leaves snatchSchedule +
        total snatches snatchSchedule := by
  have hinit : (system Party Party Party Unit).init startConf := ⟨rfl,fun _ => rfl⟩
  have hturns := passes_le hinit turnsConf_exec
  have hsnatch := passes_le hinit snatchConf_exec
  simp only [total]
  exact ⟨by decide +kernel,hturns,by decide +kernel,hsnatch⟩

end CollectedLists
end Benedias
