import Benedias.CollectorInvariant
import Mathlib.Data.Fintype.Basic
import Mathlib.Tactic.FinCases

/-! Lifetime of the clients of a `CollectorThread`: the collector never touches a client that
has been deregistered, and no `CHECK_ASSERT` of the registration protocol fails. -/
namespace Benedias
namespace CollectorThread

open Interleaving

variable {T C : Type}

/-- The client whose `state` or members the collector accesses next. -/
def Conf.accesses (s : Conf T C) : Option C :=
  match s.collector with
  | .deletes _ _ ix | .cas _ _ ix => s.clients[ix]?
  | .collect _ _ c | .inside _ _ c | .release _ _ c => some c
  | _ => none

/-- The collector is inside `c.Collect()`. -/
def CollectorPc.Inside (c : C) : CollectorPc C → Prop
  | .inside _ _ c' => c' = c
  | _ => False

theorem Inv.accesses_ne {s : Conf T C} (hi : Inv s) {c : C} (hs : s.state c = .unregistered)
    (hc : c ∉ s.clients) : s.accesses ≠ some c := by
  intro h
  have hg := hi.collecting c
  unfold Conf.accesses at h
  cases hp : s.collector with
  | deletes curr pending ix => exact hc (List.mem_of_getElem? (by simpa [hp] using h))
  | cas curr pending ix => exact hc (List.mem_of_getElem? (by simpa [hp] using h))
  | _ => simp_all

theorem Inv.not_inside {s : Conf T C} (hi : Inv s) {c : C} (hs : s.state c = .unregistered) :
    ¬s.collector.Inside c := by
  intro h
  have hg := hi.collecting c
  cases hp : s.collector <;> simp_all [CollectorPc.Inside]

variable [DecidableEq C]

theorem setState_transition {s : Conf T C} {c : C} {k : ClientState} (h : Transition (s.state c) k)
    (c' : C) : (s.setState c k).state c' = s.state c' ∨
      Transition (s.state c') ((s.setState c k).state c') := by
  by_cases hc : c' = c
  · subst hc
    simpa using Or.inr h
  · simp [hc]

theorem stepCollector_transition {s s' : Conf T C} {ok left : Bool}
    (h : stepCollector s ok left = some s') (c' : C) :
    s'.state c' = s.state c' ∨ Transition (s.state c') (s'.state c') := by
  unfold stepCollector at h
  cases hp : s.collector <;> simp only [hp] at h
  case idle | failed => cases h
  case cas curr pending ix =>
    split at h
    case h_1 =>
      obtain rfl := Option.some.inj h
      exact Or.inl rfl
    case h_2 c hc =>
      split at h
      case isTrue hreg =>
        obtain rfl := Option.some.inj h
        exact setState_transition (hreg ▸ .collect) c'
      case isFalse => split at h <;> (obtain rfl := Option.some.inj h; exact Or.inl rfl)
  case release curr pending c =>
    split at h
    case isTrue hcol =>
      obtain rfl := Option.some.inj h
      exact setState_transition (hcol ▸ .collected) c'
    case isFalse =>
      obtain rfl := Option.some.inj h
      exact Or.inl rfl
  case lock curr pending =>
    split at h
    case isTrue =>
      obtain rfl := Option.some.inj h
      exact Or.inl rfl
    case isFalse => cases h
  case ident curr pending ix => split at h <;> (obtain rfl := Option.some.inj h; exact Or.inl rfl)
  case deletes curr pending ix =>
    split at h <;> (obtain rfl := Option.some.inj h; exact Or.inl rfl)
  all_goals
    obtain rfl := Option.some.inj h
    exact Or.inl rfl

theorem setLife_gone {s : Conf T C} {c c' : C} {l : Life T} (h : s.life c ≠ .gone)
    (hc : s.life c' = .gone) : (s.setLife c l).life c' = .gone := by
  have hne : c' ≠ c := by
    rintro rfl
    exact h hc
  simpa [hne] using hc

variable [DecidableEq T]

theorem stepClient_transition {s s' : Conf T C} (hi : Inv s) {t : T} (h : stepClient s t = some s')
    (c' : C) : s'.state c' = s.state c' ∨ Transition (s.state c') (s'.state c') := by
  have ht := hi.threads t
  unfold stepClient at h
  cases hp : s.pc t <;> rw [hp] at ht <;> simp only [hp] at h
  case idle | failed => cases h
  case regState c =>
    obtain rfl := Option.some.inj h
    exact setState_transition (ht.1 ▸ .register) c'
  case derState c =>
    obtain rfl := Option.some.inj h
    exact setState_transition (ht.1 ▸ .deleted) c'
  case derCas c =>
    split at h
    case isTrue hreg =>
      obtain rfl := Option.some.inj h
      exact setState_transition (hreg ▸ .delete) c'
    case isFalse =>
      obtain rfl := Option.some.inj h
      exact Or.inl rfl
  case regLock c | derLock c =>
    split at h
    case isTrue =>
      obtain rfl := Option.some.inj h
      exact Or.inl rfl
    case isFalse => cases h
  case derFind c ix => split at h <;> (obtain rfl := Option.some.inj h; exact Or.inl rfl)
  all_goals
    obtain rfl := Option.some.inj h
    exact Or.inl rfl

theorem fire_transition {s s' : Conf T C} (hi : Inv s) {l : Label T C} (h : fire s l = some s')
    (c' : C) : s'.state c' = s.state c' ∨ Transition (s.state c') (s'.state c') := by
  cases fire_cases hi h with
  | client h => exact stepClient_transition hi h c'
  | collector h => exact stepCollector_transition h c'
  | register | deregister | pass | enqueue | emptied => exact Or.inl rfl

/-- A client that has been deregistered stays so. -/
theorem fire_gone {s s' : Conf T C} (hi : Inv s) {l : Label T C} (h : fire s l = some s') {c : C}
    (hc : s.life c = .gone) : s'.life c = .gone := by
  cases fire_cases hi h with
  | client h =>
    rcases stepClient_life (c:=c) hi h with he | ⟨he,-⟩ | ⟨he,-⟩
    · exact he.trans hc
    · cases he.symm.trans hc
    · cases he.symm.trans hc
  | collector h =>
    rw [(stepCollector_move hi h).life]
    exact hc
  | register ht hl => exact setLife_gone (by simp [hl]) hc
  | deregister ht hl => exact setLife_gone (by simp [hl]) hc
  | pass | enqueue | emptied => exact hc

theorem lifetime {s : Conf T C} (h : (system T C).Reachable s) :
    (∀ c, s.life c = .gone → s.accesses ≠ some c) ∧
    (∀ t c, s.pc t = .derUnlock c → ¬s.collector.Inside c) ∧
    (∀ l s', fire s l = some s' → ∀ c,
      (s'.state c = s.state c ∨ Transition (s.state c) (s'.state c)) ∧
      (s.life c = .gone → s'.life c = .gone)) ∧
    (∀ t, s.pc t ≠ .failed) ∧ s.collector ≠ .failed := by
  have hi := reachable_inv h
  refine ⟨?_,?_,?_,?_,hi.alive⟩
  · intro c hc
    have hl := hi.lives c
    simp only [LifeOk,hc] at hl
    exact hi.accesses_ne hl.1 hl.2
  · intro t c hp
    have ht := hi.threads t
    rw [hp] at ht
    exact hi.not_inside ht.1
  · intro l s' hf c
    exact ⟨fire_transition hi hf c,fire_gone hi hf⟩
  · intro t hp
    have ht := hi.threads t
    rw [hp] at ht
    exact ht

/-- Client 0 has been registered, collected from and deregistered, and the collector is inside
`Collect` of client 1. -/
def lifeSchedule : List (Label Party Party) :=
  let register (t c : Party) := Label.register t c :: List.replicate 8 (.client t)
  register 0 0++register 1 1++[.enqueue 0,.enqueue 1,.pass]++
    List.replicate 7 (.collector true false)++[.deregister 0 0]++List.replicate 2 (.client 0)++
    List.replicate 2 (.collector true false)++List.replicate 7 (.client 0)++
    List.replicate 7 (.collector true false)

def lifeConf : Conf Party Party :=
  ((system Party Party).exec start lifeSchedule).getD start

example : (lifeConf.life 0,lifeConf.collector) = (.gone,.inside 2 false 1) := by decide

theorem lifeConf_reachable : (system Party Party).Reachable lifeConf :=
  .execD lifeSchedule (.init rfl)

theorem lifetime_lifeConf :
    (∀ c, lifeConf.life c = .gone → lifeConf.accesses ≠ some c) ∧
    (∀ t c, lifeConf.pc t = .derUnlock c → ¬lifeConf.collector.Inside c) ∧
    (∀ l s', fire lifeConf l = some s' → ∀ c,
      (s'.state c = lifeConf.state c ∨ Transition (lifeConf.state c) (s'.state c)) ∧
      (lifeConf.life c = .gone → s'.life c = .gone)) ∧
    (∀ t, lifeConf.pc t ≠ .failed) ∧ lifeConf.collector ≠ .failed :=
  lifetime lifeConf_reachable

end CollectorThread
end Benedias
