import Benedias.CollectorThread
import Mathlib.Data.List.Basic
import Mathlib.Data.List.Nodup

/-! The invariant that links the state word of a client, its membership in `clients`, the
holder of `data_lock` and the program points of all threads. -/
namespace Benedias
namespace CollectorThread

open Interleaving

variable {T C : Type}

/-- The client that thread `t` works on, and where this client then is in its life. -/
@[simp] def ClientPc.task (t : T) : ClientPc C → Option (C × Life T)
  | .regLoad c | .regCheck c | .regLock c | .regClient c | .regId c | .regState c | .regThread c
  | .regUnlock c => some (c,.registering t)
  | .derCas c | .derYield c _ | .derLock c | .derFind c _ | .derErase c _ | .derEraseId c _
  | .derState c | .derUnlock c => some (c,.deregistering t)
  | .idle | .failed => none

/-- The thread holds `data_lock`. -/
@[simp] def ClientPc.critical : ClientPc C → Bool
  | .regClient _ | .regId _ | .regState _ | .regThread _ | .regUnlock _ | .derFind _ _
  | .derErase _ _ | .derEraseId _ _ | .derState _ | .derUnlock _ => true
  | _ => false

@[simp] def CollectorPc.critical : CollectorPc C → Bool
  | .test _ _ _ | .ident _ _ _ | .deletes _ _ _ | .cas _ _ _ | .unlock _ _ _ => true
  | _ => false

/-- The client whose state the collector has set to `collecting`. -/
@[simp] def CollectorPc.clientp : CollectorPc C → Option C
  | .unlock _ _ (some c) | .collect _ _ c | .inside _ _ c | .release _ _ c => some c
  | _ => none

/-- The position of `clientsID` and `clients` that the collector is about to read. -/
@[simp] def CollectorPc.index : CollectorPc C → Option ℕ
  | .ident _ _ ix | .deletes _ _ ix | .cas _ _ ix => some ix
  | _ => none

/-- How the lengths of `clients` and `clientsID` compare while the thread updates both. -/
@[simp] def ClientPc.Aligned (n m : ℕ) : ClientPc C → Prop
  | .regId _ => n = m+1
  | .derEraseId _ _ => n+1 = m
  | _ => n = m

/-- The collector may move the client between these two states at any time. -/
def Collectable (k : ClientState) : Prop := k = .registered ∨ k = .collecting

/-- What holds of the client that a thread works on. -/
def PcOk (s : Conf T C) : ClientPc C → Prop
  | .idle => True
  | .failed => False
  | .regLoad c | .regCheck c | .regLock c | .regClient c =>
    s.state c = .unregistered ∧ s.bound c = false ∧ c ∉ s.clients
  | .regId c | .regState c => s.state c = .unregistered ∧ c ∈ s.clients
  | .regThread c => s.state c = .registered ∧ c ∈ s.clients
  | .regUnlock c => s.state c = .registered ∧ s.bound c = true ∧ c ∈ s.clients
  | .derCas c => Collectable (s.state c) ∧ c ∈ s.clients
  | .derYield c expected => Collectable (s.state c) ∧ c ∈ s.clients ∧ expected = .collecting
  | .derLock c => s.state c = .deleting ∧ c ∈ s.clients
  | .derFind c ix => s.state c = .deleting ∧ c ∈ s.clients ∧ c ∉ s.clients.take ix
  | .derErase c ix => s.state c = .deleting ∧ s.clients[ix]? = some c
  | .derEraseId c ix => s.state c = .deleting ∧ c ∉ s.clients ∧ ix ≤ s.clients.length
  | .derState c => s.state c = .deleting ∧ c ∉ s.clients
  | .derUnlock c => s.state c = .unregistered ∧ c ∉ s.clients

/-- What holds of a client by how far it is in its life. -/
def LifeOk (s : Conf T C) (c : C) : Prop :=
  match s.life c with
  | .unborn => s.state c = .unregistered ∧ s.bound c = false ∧ c ∉ s.clients
  | .registering t => (s.pc t).task t = some (c,.registering t)
  | .live => Collectable (s.state c) ∧ s.bound c = true ∧ c ∈ s.clients
  | .deregistering t => (s.pc t).task t = some (c,.deregistering t)
  | .gone => s.state c = .unregistered ∧ c ∉ s.clients

structure Inv (s : Conf T C) : Prop where
  threads : ∀ t, PcOk s (s.pc t)
  lives : ∀ c, LifeOk s c
  tasks : ∀ t c l, (s.pc t).task t = some (c,l) → s.life c = l
  locked : ∀ t, (s.pc t).critical ↔ s.dataLock = some (.client t)
  collectorLocked : s.collector.critical ↔ s.dataLock = some .collector
  collecting : ∀ c, s.state c = .collecting ↔ s.collector.clientp = some c
  nodup : s.clients.Nodup
  aligned : ∀ t, (s.pc t).critical → (s.pc t).Aligned s.clients.length s.clientsID.length
  lengths : (∀ t, s.dataLock ≠ some (.client t)) → s.clients.length = s.clientsID.length
  index : ∀ ix, s.collector.index = some ix → ix < s.clientsID.length
  alive : s.collector ≠ .failed

theorem inv_start : Inv (start : Conf T C) := by
  constructor <;> simp [start,PcOk,LifeOk,ClientPc.task,ClientPc.critical,CollectorPc.critical,
    CollectorPc.clientp,CollectorPc.index]

theorem CollectorPc.critical_of_index {p : CollectorPc C} {ix : ℕ} (h : p.index = some ix) :
    p.critical := by
  cases p <;> simp_all [CollectorPc.index,CollectorPc.critical]

theorem ClientPc.task_life {p : ClientPc C} {t : T} {c : C} {l : Life T}
    (h : p.task t = some (c,l)) : l = .registering t ∨ l = .deregistering t := by
  cases p <;> simp_all [ClientPc.task]

theorem ClientPc.task_unique {p p' : ClientPc C} {t t' : T} {c : C} {l : Life T}
    (h : p.task t = some (c,l)) (h' : p'.task t' = some (c,l)) : t = t' := by
  rcases ClientPc.task_life h with rfl | rfl <;> rcases ClientPc.task_life h' with he | he
  · exact Life.registering.inj he
  · cases he
  · cases he
  · exact Life.deregistering.inj he

/-- The facts about a thread's own client that other parties must leave alone. -/
theorem PcOk.frame {s s' : Conf T C} {p : ClientPc C} {t : T} (h : PcOk s p)
    (hc : p.critical → s'.clients = s.clients)
    (hf : ∀ c l, p.task t = some (c,l) → (c ∈ s'.clients ↔ c ∈ s.clients) ∧
      s'.bound c = s.bound c ∧ (s'.state c = s.state c ∨
        ¬p.critical ∧ Collectable (s.state c) ∧ Collectable (s'.state c))) : PcOk s' p := by
  cases p <;> simp [PcOk,ClientPc.critical,ClientPc.task] at h hc hf ⊢ <;>
    simp_all [Collectable] <;> grind


theorem Inv.critical_unique {s : Conf T C} (hi : Inv s) {t t' : T} (h : (s.pc t).critical)
    (h' : (s.pc t').critical) : t = t' := by
  have h1 := (hi.locked t).mp h
  have h2 := (hi.locked t').mp h'
  rw [h1] at h2
  simpa using h2

theorem Inv.collector_out {s : Conf T C} (hi : Inv s) {t : T} (h : (s.pc t).critical) :
    s.collector.critical = false := by
  by_contra hc
  have h1 := (hi.locked t).mp h
  have h2 := hi.collectorLocked.mp (by simpa using hc)
  rw [h1] at h2
  simp at h2

theorem Inv.mine {s : Conf T C} {t : T} {c : C} {l : Life T} (h : (s.pc t).task t = some (c,l)) :
    ∀ c' l', (s.pc t).task t = some (c',l') → c' = c := by
  intro c' l' h'
  simpa [h] using (congrArg (Option.map Prod.fst) (h.symm.trans h')).symm

/-- No other thread works on a client that a thread works on. -/
theorem Inv.other {s : Conf T C} (hi : Inv s) {t : T} {c : C} {l : Life T}
    (h : (s.pc t).task t = some (c,l)) :
    ∀ t' l', t' ≠ t → (s.pc t').task t' ≠ some (c,l') := by
  intro t' l' hne h'
  obtain rfl := (hi.tasks t c l h).symm.trans (hi.tasks t' c l' h')
  exact hne (ClientPc.task_unique h' h)

/-- No thread works on a client that is unborn or live. -/
theorem Inv.untasked {s : Conf T C} (hi : Inv s) {c : C} (hl : s.life c = .unborn ∨ s.life c = .live)
    (t : T) (l : Life T) : (s.pc t).task t ≠ some (c,l) := by
  intro hk
  have hk' := hi.tasks t c l hk
  rcases ClientPc.task_life hk with rfl | rfl <;> rcases hl with hl | hl <;>
    cases hl.symm.trans hk'

/-- A thread inside the critical section works on a client that is not being collected. -/
theorem Inv.not_collecting {s : Conf T C} (hi : Inv s) {t : T} {c : C} {l : Life T}
    (hc : (s.pc t).critical) (hk : (s.pc t).task t = some (c,l)) : s.state c ≠ .collecting := by
  have h := hi.threads t
  cases hp : s.pc t <;> simp_all [PcOk]

theorem Inv.free_of_critical {s : Conf T C} (hi : Inv s) (h : s.collector.critical) (t : T) :
    (s.pc t).critical = false := by
  by_contra hc
  have hc' := hi.collector_out (t:=t) (by simpa using hc)
  rw [hc'] at h
  cases h

/-- The client at a position that the collector reads. -/
theorem Inv.client_at {s : Conf T C} (hi : Inv s) {ix : ℕ} (h : s.collector.index = some ix) :
    ∃ c, s.clients[ix]? = some c ∧ c ∈ s.clients := by
  have hc := CollectorPc.critical_of_index h
  have hlt := hi.index ix h
  have hlock := hi.collectorLocked.mp hc
  rw [← hi.lengths (by simp [hlock])] at hlt
  exact ⟨s.clients[ix],List.getElem?_eq_getElem hlt,List.getElem_mem hlt⟩

/-- Outside of the critical sections every member of `clients` has been registered. -/
theorem Inv.member_state {s : Conf T C} (hi : Inv s) (hl : ∀ t, (s.pc t).critical = false) {c : C}
    (hc : c ∈ s.clients) : Collectable (s.state c) ∨ s.state c = .deleting := by
  have h := hi.lives c
  unfold LifeOk at h
  cases hf : s.life c <;> simp only [hf] at h
  case unborn => exact absurd hc h.2.2
  case gone => exact absurd hc h.2
  case live => exact Or.inl h.1
  all_goals
    rename_i t
    have ht := hi.threads t
    have hn := hl t
    cases hp : s.pc t <;> simp_all [PcOk]

theorem mem_eraseIdx {l : List C} {ix : ℕ} {c : C} (hn : l.Nodup) (h : l[ix]? = some c) (c' : C) :
    c' ∈ l.eraseIdx ix ↔ c' ∈ l ∧ c' ≠ c := by
  have hlt : ix < l.length := (List.getElem?_eq_some_iff.mp h).1
  rw [List.mem_eraseIdx_iff_getElem?]
  constructor
  · rintro ⟨j,hj,hc⟩
    refine ⟨List.mem_of_getElem? hc,?_⟩
    rintro rfl
    exact hj ((List.getElem?_inj hlt hn).mp (h.trans hc.symm)).symm
  · rintro ⟨hc,hne⟩
    obtain ⟨j,hj⟩ := List.getElem?_of_mem hc
    refine ⟨j,?_,hj⟩
    rintro rfl
    exact hne (Option.some.inj (hj.symm.trans h))

/-- What one step of the collector may change, and what it leaves behind. -/
structure CollectorMove (s s' : Conf T C) : Prop where
  pc : s'.pc = s.pc
  life : s'.life = s.life
  bound : s'.bound = s.bound
  clients : s'.clients = s.clients
  clientsID : s'.clientsID = s.clientsID
  state : ∀ c, s'.state c = s.state c ∨ Collectable (s.state c) ∧ Collectable (s'.state c) ∧
    (s.collector.critical ∨ s.state c = .collecting)
  lock : s'.dataLock = s.dataLock ∧ s'.collector.critical = s.collector.critical ∨
    s.dataLock = none ∧ s'.dataLock = some .collector ∧ s'.collector.critical ∨
    s.collector.critical ∧ s'.dataLock = none ∧ s'.collector.critical = false
  collecting : ∀ c, s'.state c = .collecting ↔ s'.collector.clientp = some c
  index : ∀ ix, s'.collector.index = some ix → ix < s.clientsID.length
  alive : s'.collector ≠ .failed

theorem CollectorMove.locked_client {s s' : Conf T C} (m : CollectorMove s s') (hi : Inv s) (t : T) :
    s'.dataLock = some (.client t) ↔ s.dataLock = some (.client t) := by
  have h := hi.collectorLocked
  rcases m.lock with hl | hl | hl <;> simp_all

theorem CollectorMove.inv {s s' : Conf T C} (m : CollectorMove s s') (hi : Inv s) : Inv s' where
  threads t := by
    rw [m.pc]
    refine (hi.threads t).frame (t:=t) (fun _ => m.clients) ?_
    intro c l hk
    refine ⟨by rw [m.clients],by rw [m.bound],?_⟩
    rcases m.state c with hs | ⟨h1,h2,h3⟩
    · exact Or.inl hs
    · refine Or.inr ⟨?_,h1,h2⟩
      intro hc
      rcases h3 with h3 | h3
      · cases (hi.free_of_critical h3 t).symm.trans hc
      · exact hi.not_collecting hc hk h3
  lives c := by
    have h := hi.lives c
    unfold LifeOk at h ⊢
    rw [m.life,m.pc,m.bound,m.clients]
    have hs := m.state c
    cases hl : s.life c <;> simp only [hl] at h ⊢
    all_goals rcases hs with hs | ⟨h1,h2,-⟩
    all_goals simp_all [Collectable]
  tasks := by
    rw [m.pc,m.life]
    exact hi.tasks
  locked t := by
    rw [m.locked_client hi,m.pc]
    exact hi.locked t
  collectorLocked := by
    have h := hi.collectorLocked
    rcases m.lock with hl | hl | hl <;> simp_all
  collecting := m.collecting
  nodup := by
    rw [m.clients]
    exact hi.nodup
  aligned := by
    rw [m.pc,m.clients,m.clientsID]
    exact hi.aligned
  lengths h := by
    rw [m.clients,m.clientsID]
    exact hi.lengths fun t ht => h t ((m.locked_client hi t).mpr ht)
  index := by
    rw [m.clientsID]
    exact m.index
  alive := m.alive

section

variable [DecidableEq C]

theorem stepCollector_move {s s' : Conf T C} (hi : Inv s) {ok left : Bool}
    (h : stepCollector s ok left = some s') : CollectorMove s s' := by
  have hl := hi.collectorLocked
  have hg := hi.collecting
  have hx := hi.index
  cases hp : s.collector
  all_goals rw [hp] at hl hg hx
  all_goals simp only [stepCollector,hp] at h
  case idle => cases h
  case failed => cases h
  case lock curr pending =>
    split at h
    case isFalse => cases h
    case isTrue hd =>
      obtain rfl := Option.some.inj h
      constructor <;> simp_all
  case test curr pending ix =>
    by_cases hlt : ix < s.clientsID.length
    · rw [if_pos hlt] at h
      obtain rfl := Option.some.inj h
      constructor <;> simp_all
    · rw [if_neg hlt] at h
      obtain rfl := Option.some.inj h
      constructor <;> simp_all
  case ident curr pending ix =>
    have hlt := hx ix rfl
    simp only [List.getElem?_eq_getElem hlt] at h
    by_cases hid : s.clientsID[ix] ≤ curr
    · rw [if_pos hid] at h
      obtain rfl := Option.some.inj h
      constructor <;> simp_all
    · rw [if_neg hid] at h
      obtain rfl := Option.some.inj h
      constructor <;> simp_all
  case deletes curr pending ix =>
    obtain ⟨c,hc,-⟩ := hi.client_at (show s.collector.index = some ix by rw [hp]; rfl)
    simp only [hc] at h
    obtain rfl := Option.some.inj h
    cases hd : s.haveDeletes c <;> constructor <;> simp_all
  case cas curr pending ix =>
    obtain ⟨c,hc,hmem⟩ := hi.client_at (show s.collector.index = some ix by rw [hp]; rfl)
    simp only [hc] at h
    have hstate := hi.member_state (hi.free_of_critical (by rw [hp]; rfl)) hmem
    have hn : s.state c ≠ .collecting := by simp [hg]
    split at h
    case isTrue hreg =>
      obtain rfl := Option.some.inj h
      have hs := fun c' => Function.update_apply s.state c .collecting c'
      constructor <;> simp_all [Collectable]
      case state => grind
      case collecting => grind
    case isFalse hreg =>
      have hdel := hstate.resolve_left (by simp [Collectable,hreg,hn])
      simp only [hdel,if_true] at h
      obtain rfl := Option.some.inj h
      constructor <;> simp_all
  case unlock curr pending clientp =>
    obtain rfl := Option.some.inj h
    cases clientp <;> constructor <;> simp_all
  case collect curr pending c =>
    obtain rfl := Option.some.inj h
    constructor <;> simp_all
  case inside curr pending c =>
    obtain rfl := Option.some.inj h
    constructor <;> simp_all
  case release curr pending c =>
    have hc := (hg c).mpr rfl
    simp only [hc,if_true] at h
    obtain rfl := Option.some.inj h
    have hs := fun c' => Function.update_apply s.state c .registered c'
    constructor <;> simp_all [Collectable]
    case state => grind
    case collecting => grind

end

section Steps

variable [DecidableEq T]

/-- What one step of thread `t` for its client `c` may change, and what it leaves behind. -/
structure ClientMove (s s' : Conf T C) (t : T) (c : C) (p' : ClientPc C) : Prop where
  pc : s'.pc = Function.update s.pc t p'
  mine : ∀ c' l, (s.pc t).task t = some (c',l) → c' = c
  other : ∀ t' l, t' ≠ t → (s.pc t').task t' ≠ some (c,l)
  frame : ∀ c', c' ≠ c → s'.state c' = s.state c' ∧ s'.bound c' = s.bound c' ∧
    s'.life c' = s.life c' ∧ (c' ∈ s'.clients ↔ c' ∈ s.clients)
  clients : (s.pc t).critical ∨ s'.clients = s.clients ∧ s'.clientsID = s.clientsID
  lock : s'.dataLock = s.dataLock ∧ p'.critical = (s.pc t).critical ∨
    s.dataLock = none ∧ s'.dataLock = some (.client t) ∧ p'.critical ∨
    (s.pc t).critical ∧ s'.dataLock = none ∧ p'.critical = false
  collector : s'.collector = s.collector
  ok : PcOk s' p'
  lifeOk : LifeOk s' c
  task : ∀ c' l, p'.task t = some (c',l) → c' = c ∧ s'.life c = l
  collecting : s'.state c = .collecting ↔ s.state c = .collecting
  nodup : s'.clients.Nodup
  aligned : (s.pc t).critical ∨ p'.critical →
    p'.Aligned s'.clients.length s'.clientsID.length

theorem ClientMove.pc_self {s s' : Conf T C} {t : T} {c : C} {p' : ClientPc C}
    (m : ClientMove s s' t c p') : s'.pc t = p' := by rw [m.pc]; simp

theorem ClientMove.pc_ne {s s' : Conf T C} {t t' : T} {c : C} {p' : ClientPc C}
    (m : ClientMove s s' t c p') (h : t' ≠ t) : s'.pc t' = s.pc t' := by rw [m.pc]; simp [h]

theorem ClientMove.locked {s s' : Conf T C} {t : T} {c : C} {p' : ClientPc C}
    (m : ClientMove s s' t c p') (hi : Inv s) (t' : T) :
    (s'.pc t').critical ↔ s'.dataLock = some (.client t') := by
  have h := hi.locked t
  have h' := hi.locked t'
  by_cases ht : t' = t
  · subst ht
    rw [m.pc_self]
    rcases m.lock with hl | hl | hl <;> simp_all
  · rw [m.pc_ne ht]
    rcases m.lock with hl | hl | hl <;> simp_all [Ne.symm ht]

theorem ClientMove.inv {s s' : Conf T C} {t : T} {c : C} {p' : ClientPc C}
    (m : ClientMove s s' t c p') (hi : Inv s) : Inv s' where
  threads t' := by
    by_cases ht : t' = t
    · rw [ht,m.pc_self]
      exact m.ok
    · rw [m.pc_ne ht]
      have hne : ∀ c' l, (s.pc t').task t' = some (c',l) → c' ≠ c := by
        rintro c' l h rfl
        exact m.other t' l ht h
      refine (hi.threads t').frame (t:=t') ?_ ?_
      · intro hc
        rcases m.clients with hm | hm
        · exact absurd (hi.critical_unique hc hm) ht
        · exact hm.1
      · intro c' l h
        obtain ⟨hs,hb,-,hm⟩ := m.frame c' (hne c' l h)
        exact ⟨hm,hb,Or.inl hs⟩
  lives c' := by
    by_cases hc : c' = c
    · rw [hc]
      exact m.lifeOk
    · have h := hi.lives c'
      have hk : ∀ t' l, (s.pc t').task t' = some (c',l) → (s'.pc t').task t' = some (c',l) := by
        intro t' l ht
        rcases eq_or_ne t' t with rfl | hne
        · exact absurd (m.mine c' l ht) hc
        · rw [m.pc_ne hne]
          exact ht
      obtain ⟨hs,hb,hf,hm⟩ := m.frame c' hc
      unfold LifeOk at h ⊢
      rw [hf,hs,hb,hm]
      cases hl : s.life c' <;> simp only [hl] at h ⊢
      case registering t' => exact hk t' _ h
      case deregistering t' => exact hk t' _ h
      all_goals exact h
  tasks t' c' l h := by
    by_cases ht : t' = t
    · subst ht
      rw [m.pc_self] at h
      obtain ⟨rfl,h'⟩ := m.task c' l h
      exact h'
    · rw [m.pc_ne ht] at h
      have hne : c' ≠ c := by
        rintro rfl
        exact m.other t' l ht h
      rw [(m.frame c' hne).2.2.1]
      exact hi.tasks t' c' l h
  locked := m.locked hi
  collectorLocked := by
    have h := hi.collectorLocked
    have h' := hi.locked t
    rw [m.collector]
    rcases m.lock with hl | hl | hl <;> simp_all
  collecting c' := by
    rw [m.collector,← hi.collecting c']
    by_cases hc : c' = c
    · rw [hc]
      exact m.collecting
    · rw [(m.frame c' hc).1]
  nodup := m.nodup
  aligned t' h := by
    by_cases ht : t' = t
    · rw [ht,m.pc_self] at h ⊢
      exact m.aligned (Or.inr h)
    · rw [m.pc_ne ht] at h ⊢
      rcases m.clients with hm | hm
      · exact absurd (hi.critical_unique h hm) ht
      · rw [hm.1,hm.2]
        exact hi.aligned t' h
  lengths h := by
    have hn : p'.critical = false := by
      by_contra hc
      exact h t ((m.locked hi t).mp (by simpa [m.pc_self] using hc))
    rcases hc : (s.pc t).critical with _ | _
    · rcases m.clients with hm | hm
      · cases hc.symm.trans hm
      · rw [hm.1,hm.2]
        refine hi.lengths fun t' hl => ?_
        have hc' := (hi.locked t').mpr hl
        by_cases ht : t' = t
        · rw [ht,hc] at hc'
          cases hc'
        · exact h t' ((m.locked hi t').mp (by rwa [m.pc_ne ht]))
    · have ha := m.aligned (Or.inl hc)
      cases p' <;> simp_all [ClientPc.Aligned,ClientPc.critical]
  index ix h := by
    rw [m.collector] at h
    rcases m.clients with hm | hm
    · have hx := CollectorPc.critical_of_index h
      rw [hi.collector_out hm] at hx
      cases hx
    · rw [hm.2]
      exact hi.index ix h
  alive := by
    rw [m.collector]
    exact hi.alive

/-- A step to another point of the same function that changes nothing else. -/
theorem Inv.goto {s : Conf T C} (hi : Inv s) {t : T} {c : C} {l : Life T} {p' : ClientPc C}
    (hk : (s.pc t).task t = some (c,l)) (hk' : p'.task t = some (c,l))
    (hc : p'.critical = (s.pc t).critical)
    (ha : p'.critical → ∀ n m, (s.pc t).Aligned n m → p'.Aligned n m) (hp : PcOk s p') : ClientMove s (s.setPc t p') t c p' where
  pc := rfl
  mine := Inv.mine hk
  other := hi.other hk
  frame c' _ := ⟨rfl,rfl,rfl,Iff.rfl⟩
  clients := Or.inr ⟨rfl,rfl⟩
  lock := Or.inl ⟨rfl,hc⟩
  collector := rfl
  ok := by cases p' <;> exact hp
  lifeOk := by
    have hl := hi.tasks t c l hk
    rcases ClientPc.task_life hk with rfl | rfl <;> simpa [LifeOk,Conf.setPc,hl] using hk'
  task c' l' h := by
    obtain ⟨rfl,rfl⟩ := Prod.mk.inj (Option.some.inj (hk'.symm.trans h))
    exact ⟨rfl,hi.tasks t c l hk⟩
  collecting := Iff.rfl
  nodup := hi.nodup
  aligned h := by
    rw [← hc,or_self] at h
    exact ha h _ _ (hi.aligned t (hc ▸ h))

variable [DecidableEq C]

theorem stepClient_move {s s' : Conf T C} (hi : Inv s) {t : T} (h : stepClient s t = some s') :
    ∃ c p', ClientMove s s' t c p' := by
  have ht := hi.threads t
  have hl := hi.locked t
  have ha := hi.aligned t
  cases hp : s.pc t
  all_goals rw [hp] at ht hl ha
  all_goals simp only [stepClient,hp] at h
  case idle => simp at h
  case failed => simp at h
  case regLoad c =>
    have hk : (s.pc t).task t = some (c,.registering t) := by rw [hp]; rfl
    rw [if_pos ht.1] at h
    obtain rfl := Option.some.inj h
    refine ⟨c,_,hi.goto hk rfl (by rw [hp]; rfl) ?_ ht⟩
    simp [hp]
  case regCheck c =>
    have hk : (s.pc t).task t = some (c,.registering t) := by rw [hp]; rfl
    simp only [ht.2.1,Bool.false_eq_true,if_false] at h
    obtain rfl := Option.some.inj h
    refine ⟨c,_,hi.goto hk rfl (by rw [hp]; rfl) ?_ ht⟩
    simp [hp]
  case regLock c =>
    have hk : (s.pc t).task t = some (c,.registering t) := by rw [hp]; rfl
    have hlife := hi.tasks t c _ hk
    split at h
    case isFalse => cases h
    case isTrue hfree =>
      have hlen := hi.lengths (by simp [hfree])
      obtain rfl := Option.some.inj h
      refine ⟨c,.regClient c,rfl,Inv.mine hk,hi.other hk,?_,?_,?_,rfl,?_,?_,?_,?_,?_,?_⟩ <;>
        simp_all [PcOk,LifeOk,hi.nodup]
  case regClient c =>
    have hk : (s.pc t).task t = some (c,.registering t) := by rw [hp]; rfl
    have hlife := hi.tasks t c _ hk
    have hn := hi.nodup.append (List.nodup_singleton c) (by simpa using ht.2.2)
    obtain rfl := Option.some.inj h
    refine ⟨c,.regId c,rfl,Inv.mine hk,hi.other hk,?_,?_,?_,rfl,?_,?_,?_,?_,?_,?_⟩ <;>
      simp_all [PcOk,LifeOk]
  case regId c =>
    have hk : (s.pc t).task t = some (c,.registering t) := by rw [hp]; rfl
    have hlife := hi.tasks t c _ hk
    obtain rfl := Option.some.inj h
    refine ⟨c,.regState c,rfl,Inv.mine hk,hi.other hk,?_,?_,?_,rfl,?_,?_,?_,?_,?_,?_⟩ <;>
      simp_all [PcOk,LifeOk,hi.nodup]
  case regState c =>
    have hk : (s.pc t).task t = some (c,.registering t) := by rw [hp]; rfl
    have hlife := hi.tasks t c _ hk
    obtain rfl := Option.some.inj h
    refine ⟨c,.regThread c,rfl,Inv.mine hk,hi.other hk,?_,?_,?_,rfl,?_,?_,?_,?_,?_,?_⟩ <;>
      simp_all [PcOk,LifeOk,hi.nodup]
  case regThread c =>
    have hk : (s.pc t).task t = some (c,.registering t) := by rw [hp]; rfl
    have hlife := hi.tasks t c _ hk
    obtain rfl := Option.some.inj h
    refine ⟨c,.regUnlock c,rfl,Inv.mine hk,hi.other hk,?_,?_,?_,rfl,?_,?_,?_,?_,?_,?_⟩ <;>
      simp_all [PcOk,LifeOk,hi.nodup]
  case regUnlock c =>
    have hk : (s.pc t).task t = some (c,.registering t) := by rw [hp]; rfl
    have hlife := hi.tasks t c _ hk
    obtain rfl := Option.some.inj h
    refine ⟨c,.idle,rfl,Inv.mine hk,hi.other hk,?_,?_,?_,rfl,?_,?_,?_,?_,?_,?_⟩ <;>
      simp_all [PcOk,LifeOk,Collectable,hi.nodup]
  case derCas c =>
    have hk : (s.pc t).task t = some (c,.deregistering t) := by rw [hp]; rfl
    have hlife := hi.tasks t c _ hk
    split at h
    case isTrue hreg =>
      obtain rfl := Option.some.inj h
      refine ⟨c,.derLock c,rfl,Inv.mine hk,hi.other hk,?_,?_,?_,rfl,?_,?_,?_,?_,?_,?_⟩ <;>
        simp_all [PcOk,LifeOk,hi.nodup]
    case isFalse hreg =>
      obtain rfl := Option.some.inj h
      refine ⟨c,_,hi.goto hk rfl (by rw [hp]; rfl) ?_ ⟨ht.1,ht.2,ht.1.resolve_left hreg⟩⟩
      simp [hp]
  case derYield c expected =>
    have hk : (s.pc t).task t = some (c,.deregistering t) := by rw [hp]; rfl
    rw [if_pos ht.2.2] at h
    obtain rfl := Option.some.inj h
    refine ⟨c,_,hi.goto hk rfl (by rw [hp]; rfl) ?_ ⟨ht.1,ht.2.1⟩⟩
    simp [hp]
  case derLock c =>
    have hk : (s.pc t).task t = some (c,.deregistering t) := by rw [hp]; rfl
    have hlife := hi.tasks t c _ hk
    split at h
    case isFalse => cases h
    case isTrue hfree =>
      have hlen := hi.lengths (by simp [hfree])
      obtain rfl := Option.some.inj h
      refine ⟨c,.derFind c 0,rfl,Inv.mine hk,hi.other hk,?_,?_,?_,rfl,?_,?_,?_,?_,?_,?_⟩ <;>
        simp_all [PcOk,LifeOk,hi.nodup]
  case derFind c ix =>
    have hk : (s.pc t).task t = some (c,.deregistering t) := by rw [hp]; rfl
    split at h
    case h_1 hnone =>
      have htake := List.take_of_length_le (List.getElem?_eq_none_iff.mp hnone)
      exact absurd ht.2.1 (htake ▸ ht.2.2)
    case h_2 c' hc' =>
      obtain rfl := Option.some.inj h
      refine ⟨c,_,hi.goto hk ?_ ?_ ?_ ?_⟩
      all_goals split
      all_goals simp_all [PcOk,List.take_add_one]
      exact Ne.symm (by assumption)
  case derErase c ix =>
    have hk : (s.pc t).task t = some (c,.deregistering t) := by rw [hp]; rfl
    have hlife := hi.tasks t c _ hk
    have hm := mem_eraseIdx hi.nodup ht.2
    have hlt : ix < s.clients.length := (List.getElem?_eq_some_iff.mp ht.2).1
    have hlen := List.length_eraseIdx_add_one hlt
    have hn := hi.nodup.eraseIdx ix
    have hle : ix ≤ (s.clients.eraseIdx ix).length := by omega
    obtain rfl := Option.some.inj h
    refine ⟨c,.derEraseId c ix,rfl,Inv.mine hk,hi.other hk,?_,?_,?_,rfl,?_,?_,?_,?_,?_,?_⟩ <;>
      simp_all [PcOk,LifeOk]
  case derEraseId c ix =>
    have hk : (s.pc t).task t = some (c,.deregistering t) := by rw [hp]; rfl
    have hlife := hi.tasks t c _ hk
    have hlen : s.clients.length = (s.clientsID.eraseIdx ix).length := by
      have h1 : s.clients.length+1 = s.clientsID.length := ha rfl
      have h2 := ht.2.2
      have h3 := List.length_eraseIdx_add_one (l:=s.clientsID) (i:=ix) (by omega)
      omega
    obtain rfl := Option.some.inj h
    refine ⟨c,.derState c,rfl,Inv.mine hk,hi.other hk,?_,?_,?_,rfl,?_,?_,?_,?_,?_,?_⟩ <;>
      simp_all [PcOk,LifeOk,hi.nodup]
  case derState c =>
    have hk : (s.pc t).task t = some (c,.deregistering t) := by rw [hp]; rfl
    have hlife := hi.tasks t c _ hk
    obtain rfl := Option.some.inj h
    refine ⟨c,.derUnlock c,rfl,Inv.mine hk,hi.other hk,?_,?_,?_,rfl,?_,?_,?_,?_,?_,?_⟩ <;>
      simp_all [PcOk,LifeOk,hi.nodup]
  case derUnlock c =>
    have hk : (s.pc t).task t = some (c,.deregistering t) := by rw [hp]; rfl
    have hlife := hi.tasks t c _ hk
    obtain rfl := Option.some.inj h
    refine ⟨c,.idle,rfl,Inv.mine hk,hi.other hk,?_,?_,?_,rfl,?_,?_,?_,?_,?_,?_⟩ <;>
      simp_all [PcOk,LifeOk,hi.nodup]

/-- How a step of a thread moves a client through its life. -/
theorem stepClient_life {s s' : Conf T C} (hi : Inv s) {t : T} {c : C}
    (h : stepClient s t = some s') :
    s'.life c = s.life c ∨ s.life c = .registering t ∧ s'.life c = .live ∨
      s.life c = .deregistering t ∧ s'.life c = .gone := by
  have hq := hi.tasks t
  cases hp : s.pc t <;> rw [hp] at hq <;> simp only [stepClient,hp] at h
  case idle | failed => cases h
  case regUnlock c' =>
    cases h
    by_cases hc : c = c'
    · subst hc
      exact .inr (.inl ⟨hq c _ rfl,by simp⟩)
    · exact .inl (by simp [hc])
  case derUnlock c' =>
    cases h
    by_cases hc : c = c'
    · subst hc
      exact .inr (.inr ⟨hq c _ rfl,by simp⟩)
    · exact .inl (by simp [hc])
  case regLock | derLock | derCas | derFind => split at h <;> cases h <;> exact .inl rfl
  all_goals
    cases h
    exact .inl rfl

/-- What the steps do; a live client is always bound to its collector. -/
inductive Fires (s : Conf T C) : Label T C → Conf T C → Prop
  | register {t : T} {c : C} (ht : s.pc t = .idle) (hl : s.life c = .unborn) :
      Fires s (.register t c) ((s.setLife c (.registering t)).setPc t (.regLoad c))
  | deregister {t : T} {c : C} (ht : s.pc t = .idle) (hl : s.life c = .live) :
      Fires s (.deregister t c) ((s.setLife c (.deregistering t)).setPc t (.derCas c))
  | client {t : T} {s' : Conf T C} (h : stepClient s t = some s') : Fires s (.client t) s'
  | pass (hp : s.collector = .idle) : Fires s .pass { s with collector := .lock 0 false }
  | collector {ok left : Bool} {s' : Conf T C} (h : stepCollector s ok left = some s') :
      Fires s (.collector ok left) s'
  | enqueue {c : C} (hl : s.life c ≠ .gone) :
      Fires s (.enqueue c) { s with haveDeletes := Function.update s.haveDeletes c true }
  | emptied {c : C} :
      Fires s (.emptied c) { s with haveDeletes := Function.update s.haveDeletes c false }

theorem fire_cases {s s' : Conf T C} (hi : Inv s) {a : Label T C} (h : fire s a = some s') :
    Fires s a s' := by
  cases a with
  | client t => exact .client h
  | collector ok left => exact .collector h
  | register t c =>
    simp only [fire] at h
    split at h <;> cases h
    next hg => exact .register hg.1 hg.2
  | deregister t c =>
    simp only [fire] at h
    split at h
    case isFalse => cases h
    case isTrue hg =>
      have hlife := hi.lives c
      simp only [LifeOk,hg.2] at hlife
      rw [if_pos hlife.2.1] at h
      cases h
      exact .deregister hg.1 hg.2
  | pass =>
    simp only [fire] at h
    split at h <;> cases h
    next hp => exact .pass hp
  | enqueue c =>
    simp only [fire] at h
    split at h <;> cases h
    next hl => exact .enqueue hl
  | emptied c =>
    cases h
    exact .emptied

theorem register_move {s s' : Conf T C} (hi : Inv s) {t : T} {c : C}
    (h : fire s (.register t c) = some s') : ClientMove s s' t c (.regLoad c) := by
  have hlife := hi.lives c
  have hlock := hi.locked t
  cases fire_cases hi h with
  | register ht hl =>
    simp only [LifeOk,hl] at hlife
    refine ⟨rfl,by simp [ht],fun t' l _ => hi.untasked (.inl hl) t' l,?_,?_,?_,rfl,?_,?_,?_,?_,?_,
      ?_⟩ <;> simp_all [PcOk,LifeOk,hi.nodup]

theorem deregister_move {s s' : Conf T C} (hi : Inv s) {t : T} {c : C}
    (h : fire s (.deregister t c) = some s') : ClientMove s s' t c (.derCas c) := by
  have hlife := hi.lives c
  have hlock := hi.locked t
  cases fire_cases hi h with
  | deregister ht hl =>
    simp only [LifeOk,hl] at hlife
    refine ⟨rfl,by simp [ht],fun t' l _ => hi.untasked (.inr hl) t' l,?_,?_,?_,rfl,?_,?_,?_,?_,?_,
      ?_⟩ <;> simp_all [PcOk,LifeOk,hi.nodup]

theorem fire_inv {s s' : Conf T C} (hi : Inv s) {l : Label T C} (h : fire s l = some s') :
    Inv s' := by
  cases fire_cases hi h with
  | register => exact (register_move hi h).inv hi
  | deregister => exact (deregister_move hi h).inv hi
  | client h =>
    obtain ⟨c,p',m⟩ := stepClient_move hi h
    exact m.inv hi
  | collector h => exact (stepCollector_move hi h).inv hi
  | pass hp =>
    have m : CollectorMove s { s with collector := .lock 0 false } := by
      refine ⟨rfl,rfl,rfl,rfl,rfl,fun _ => Or.inl rfl,Or.inl ⟨rfl,?_⟩,?_,?_,?_⟩
      · simp [hp]
      · simpa [hp] using hi.collecting
      · simp
      · simp
    exact m.inv hi
  | enqueue | emptied =>
    have m (v : C → Bool) : CollectorMove s { s with haveDeletes := v } :=
      ⟨rfl,rfl,rfl,rfl,rfl,fun _ => Or.inl rfl,Or.inl ⟨rfl,rfl⟩,hi.collecting,hi.index,hi.alive⟩
    exact (m _).inv hi

theorem reachable_inv {s : Conf T C} (h : (system T C).Reachable s) : Inv s :=
  h.invariant (fun _ h => h ▸ inv_start) fun _ _ _ _ hi hf => fire_inv hi hf

end Steps

end CollectorThread
end Benedias
