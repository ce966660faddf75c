import Benedias.Interleaving
import Mathlib.Data.Set.Insert
import Mathlib.Logic.Function.Basic

/-! Safe memory reclamation. Shared variables hold objects, a guard protects what a reader has found
in a variable, and an object that is in no variable any more is retired, and freed when no guard is
on it. A freed object may come back: its memory is used again. -/
namespace Benedias
namespace GuardedObjects

open Interleaving

structure Conf (N L O : Type) where
  loc : L → O
  guard : N → Option O
  retired : Set O

inductive Event (N L O : Type)
  | store (l : L) (obj : O)
  /-- the guard takes what the variable holds -/
  | guard (n : N) (l : L)
  | unguard (n : N)
  /-- by a reader that has a guard on the object -/
  | retire (n : N) (obj : O)
  | free (obj : O)
  deriving DecidableEq

variable {N L O : Type}

/-- The event sets the guard anew. -/
def Event.moves [DecidableEq N] (n : N) : Event N L O → Bool
  | .guard m _ | .unguard m => m = n
  | _ => false

def Event.retires [DecidableEq O] (obj : O) : Event N L O → Bool
  | .retire _ o => o = obj
  | _ => false

def Event.frees [DecidableEq O] (obj : O) : Event N L O → Bool
  | .free o => o = obj
  | _ => false

variable [DecidableEq N] [DecidableEq L]

open Classical in
noncomputable def fire (s : Conf N L O) : Event N L O → Option (Conf N L O)
  | .store l obj =>
    if obj ∈ s.retired then none else some { s with loc := Function.update s.loc l obj }
  | .guard n l => some { s with guard := Function.update s.guard n (some (s.loc l)) }
  | .unguard n => some { s with guard := Function.update s.guard n none }
  | .retire n obj =>
    if s.guard n = some obj ∧ obj ∉ s.retired ∧ ∀ l, s.loc l ≠ obj then
      some { s with retired := insert obj s.retired }
    else none
  | .free obj =>
    if obj ∈ s.retired ∧ ∀ n, s.guard n ≠ some obj then
      some { s with retired := s.retired \ {obj} }
    else none

/-- All variables hold the same object, the null one; nothing is guarded or retired. -/
def start (null : O) : Conf N L O where
  loc := fun _ => null
  guard := fun _ => none
  retired := ∅

noncomputable def system (N L O : Type) [DecidableEq N] [DecidableEq L] (null : O) :
    System (Conf N L O) (Event N L O) where
  init s := s = start null
  fire := fire

variable {null : O} {s s' : Conf N L O} {e : Event N L O} {es : List (Event N L O)}

theorem fire_store {l : L} {obj : O} (h : obj ∉ s.retired) :
    fire s (.store l obj) = some { s with loc := Function.update s.loc l obj } := if_neg h

theorem fire_retire {n : N} {obj : O} (hg : s.guard n = some obj) (hr : obj ∉ s.retired)
    (hl : ∀ l, s.loc l ≠ obj) :
    fire s (.retire n obj) = some { s with retired := insert obj s.retired } :=
  if_pos ⟨hg,hr,hl⟩

theorem fire_free {obj : O} (hr : obj ∈ s.retired) (hg : ∀ n, s.guard n ≠ some obj) :
    fire s (.free obj) = some { s with retired := s.retired \ {obj} } := if_pos ⟨hr,hg⟩

/-- While a guard stays where it is, its object is not freed. -/
theorem exec_guarded {n : N} {obj : O} (hg : s.guard n = some obj) (hes : ∀ e ∈ es, e.moves n = false)
    (h : (system N L O null).exec s es = some s') : s'.guard n = some obj ∧ .free obj ∉ es := by
  induction es generalizing s with
  | nil =>
    cases h
    exact ⟨hg,nofun⟩
  | cons e es ih =>
    obtain ⟨t,hf,ht⟩ := Option.bind_eq_some_iff.mp h
    have hstay : t.guard n = some obj ∧ e ≠ .free obj := by
      have hn := hes e (by simp)
      replace hf : fire s e = some t := hf
      cases e with
      | store l o | retire m o =>
        simp only [fire] at hf
        split at hf <;> cases hf
        exact ⟨hg,nofun⟩
      | guard m l | unguard m =>
        cases hf
        have hm : n ≠ m := by
          rintro rfl
          simp [Event.moves] at hn
        exact ⟨(Function.update_of_ne hm _ _).trans hg,nofun⟩
      | free o =>
        simp only [fire] at hf
        split at hf <;> cases hf
        next hfree =>
          refine ⟨hg,?_⟩
          rintro ⟨rfl⟩
          exact hfree.2 n hg
    obtain ⟨hg',hfree⟩ := ih hstay.1 (fun e he => hes e (by simp [he])) ht
    refine ⟨hg',fun hmem => ?_⟩
    rcases List.mem_cons.mp hmem with he | hmem
    · exact hstay.2 he.symm
    · exact hfree hmem

variable [DecidableEq O]

open Classical in
/-- An object is freed as often as it is retired, but for the last time. -/
theorem exec_count (obj : O) (h : (system N L O null).exec s es = some s') :
    (if obj ∈ s.retired then 1 else 0) + es.countP (·.retires obj) =
      es.countP (·.frees obj) + (if obj ∈ s'.retired then 1 else 0) := by
  induction es generalizing s with
  | nil =>
    cases h
    simp
  | cons e es ih =>
    obtain ⟨t,hf,ht⟩ := Option.bind_eq_some_iff.mp h
    have hrest := ih ht
    have hstep : (if obj ∈ s.retired then 1 else 0) + (if e.retires obj then 1 else 0) =
        (if e.frees obj then 1 else 0) + (if obj ∈ t.retired then 1 else 0) := by
      replace hf : fire s e = some t := hf
      cases e with
      | store l o =>
        simp only [fire] at hf
        split at hf <;> cases hf
        simp [Event.retires,Event.frees]
      | guard m l | unguard m =>
        cases hf
        simp [Event.retires,Event.frees]
      | retire m o =>
        simp only [fire] at hf
        split at hf <;> cases hf
        next hr =>
          by_cases ho : o = obj
          · subst ho
            simp [Event.retires,Event.frees,hr.2.1]
          · simp [Event.retires,Event.frees,ho,Ne.symm ho]
      | free o =>
        simp only [fire] at hf
        split at hf <;> cases hf
        next hr =>
          by_cases ho : o = obj
          · subst ho
            simp [Event.retires,Event.frees,hr.1]
          · simp [Event.retires,Event.frees,ho,Ne.symm ho]
    simp only [List.countP_cons]
    omega

end GuardedObjects
end Benedias
