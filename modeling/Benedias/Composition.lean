import Benedias.Interleaving
import Mathlib.Logic.Function.Basic

/-! One party beside a family of parties. A step of the whole is a step of the one party, a step of
a member of the family, or both at once; what a label stands for may depend on the state. -/
namespace Benedias
namespace Interleaving

structure Joint.Conf (S S' I : Type) where
  one : S
  each : I → S'

structure Joint (S A S' A' I B : Type) where
  one : System S A
  each : System S' A'
  /-- the state of the one party, with what it reads of the family -/
  view : Joint.Conf S S' I → S
  allowed : Joint.Conf S S' I → B → Bool
  acts : Joint.Conf S S' I → B → Option A
  moves : Joint.Conf S S' I → B → Option (I × A')

namespace Joint

variable {S A S' A' I B : Type} [DecidableEq I] (J : Joint S A S' A' I B)

def act (s : Conf S S' I) (b : B) : Option S :=
  match J.acts s b with
  | some a => J.one.fire (J.view s) a
  | none => some s.one

def move (s : Conf S S' I) (b : B) : Option (I → S') :=
  match J.moves s b with
  | some (i,a) => (J.each.fire (s.each i) a).map (Function.update s.each i)
  | none => some s.each

def fire (s : Conf S S' I) (b : B) : Option (Conf S S' I) :=
  if J.allowed s b then (J.act s b).bind fun r => (J.move s b).map fun f => ⟨r,f⟩ else none

def system : System (Conf S S' I) B where
  init s := J.one.init s.one ∧ ∀ i, J.each.init (s.each i)
  fire := J.fire

variable {J} {s s' : Conf S S' I} {b : B}

theorem fire_some (h : J.fire s b = some s') :
    J.allowed s b ∧ J.act s b = some s'.one ∧ J.move s b = some s'.each := by
  simp only [fire] at h
  split at h
  case isTrue ha =>
    obtain ⟨r,hr,h⟩ := Option.bind_eq_some_iff.mp h
    obtain ⟨f,hf,rfl⟩ := Option.map_eq_some_iff.mp h
    exact ⟨ha,hr,hf⟩
  case isFalse => cases h

/-- A member of the family takes the step that the label stands for, or none. -/
theorem move_each (h : J.move s b = some s'.each) (i : I) :
    s'.each i = s.each i ∨ ∃ a, J.moves s b = some (i,a) ∧ J.each.fire (s.each i) a =
      some (s'.each i) := by
  simp only [move] at h
  split at h
  case h_1 j a hm =>
    obtain ⟨x,hx,he⟩ := Option.map_eq_some_iff.mp h
    rw [← he]
    by_cases hij : i = j
    · subst hij
      exact .inr ⟨a,hm,by rw [Function.update_self]; exact hx⟩
    · exact .inl (Function.update_of_ne hij x s.each)
  case h_2 => exact .inl (congrFun (Option.some.inj h) i).symm

/-- Each member of the family runs as it does alone. -/
theorem each_reachable {Q : Conf S S' I → B → Prop} {P : S' → A' → Prop}
    (hQ : ∀ s b, Q s b → ∀ i a, J.moves s b = some (i,a) → P (s.each i) a)
    (hr : J.system.ReachableVia Q s) (i : I) : J.each.ReachableVia P (s.each i) := by
  induction hr with
  | init h => exact .init (h.2 i)
  | step hr hq hf ih =>
    obtain ⟨-,-,hm⟩ := fire_some hf
    rcases move_each hm i with he | ⟨a,ha,hfire⟩
    · exact he ▸ ih
    · exact .step ih (hQ _ _ hq i a ha) hfire

/-- So does the one party, if what it reads of the family changes by its own steps only. -/
theorem one_reachable {Q : Conf S S' I → B → Prop} {P : S → A → Prop} {R : Conf S S' I → Prop}
    (hinit : ∀ s, J.system.init s → R s ∧ J.one.init (J.view s))
    (hstep : ∀ s b s', J.system.ReachableVia Q s → J.one.ReachableVia P (J.view s) → R s →
      Q s b → J.fire s b = some s' → R s' ∧ match J.acts s b with
        | some a => P (J.view s) a ∧ J.view s' = s'.one
        | none => J.view s' = J.view s)
    (hr : J.system.ReachableVia Q s) : R s ∧ J.one.ReachableVia P (J.view s) := by
  refine hr.invariant (I:=fun s => R s ∧ J.one.ReachableVia P (J.view s)) (fun s h => ?_)
    fun s b s' hs ⟨hR,ho⟩ hq hf => ?_
  · obtain ⟨hR,hi⟩ := hinit s h
    exact ⟨hR,.init hi⟩
  · obtain ⟨hR',hv⟩ := hstep s b s' hs ho hR hq hf
    obtain ⟨-,ha,-⟩ := fire_some hf
    refine ⟨hR',?_⟩
    simp only [act] at ha
    split at ha
    case h_1 a hacts =>
      simp only [hacts] at hv
      rw [hv.2]
      exact .step ho hv.1 ha
    case h_2 hacts =>
      simp only [hacts] at hv
      rw [hv]
      exact ho

end Joint

end Interleaving
end Benedias
