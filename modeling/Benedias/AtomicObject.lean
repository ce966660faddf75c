import Benedias.Interleaving
import Mathlib.Data.Option.Basic
import Mathlib.Logic.Function.Basic

/-! Atomic objects shared by any clients. A client calls an operation, the operation takes effect
on the state in steps that nobody can interrupt, and the client gets its result. The calls and
returns of an implementation are compared with those of such an object. -/
namespace Benedias
namespace AtomicObject

open Interleaving

/-- Whether a client's operation has still to take effect. -/
inductive Status (O R : Type)
  | idle | pending (o : O) | done (r : R)
  deriving DecidableEq

/-- What the clients see of an object. -/
inductive Event (T O R : Type)
  | call (t : T) (o : O) | ret (t : T) (r : R)
  deriving DecidableEq

structure Conf (T S O R : Type) where
  state : S
  status : T → Status O R

/-- The effects that a pending operation may have: each leaves an operation to go on with, or the
result. No effect at all means that the client has to wait. -/
structure Spec (T S O R : Type) where
  init : S
  act : Conf T S O R → T → O → List (S × (O ⊕ R))

inductive Label (T O : Type)
  | call (t : T) (o : O) | act (t : T) (choice : ℕ) | ret (t : T)

variable {T S O R : Type} [DecidableEq T]

def after : O ⊕ R → Status O R
  | .inl o => .pending o
  | .inr r => .done r

def fire (N : Spec T S O R) (c : Conf T S O R) : Label T O → Option (Conf T S O R)
  | .call t o =>
    match c.status t with
    | .idle => some ⟨c.state,Function.update c.status t (.pending o)⟩
    | _ => none
  | .act t choice =>
    match c.status t with
    | .pending o => (N.act c t o)[choice]?.map fun e =>
        ⟨e.1,Function.update c.status t (after e.2)⟩
    | _ => none
  | .ret t =>
    match c.status t with
    | .done _ => some ⟨c.state,Function.update c.status t .idle⟩
    | _ => none

def seen (c : Conf T S O R) : Label T O → Option (Event T O R)
  | .call t o => some (.call t o)
  | .act _ _ => none
  | .ret t =>
    match c.status t with
    | .done r => some (.ret t r)
    | _ => none

def Spec.start (N : Spec T S O R) : Conf T S O R := ⟨N.init,fun _ => .idle⟩

def Spec.system (N : Spec T S O R) : System (Conf T S O R) (Label T O) where
  init c := c = N.start
  fire := fire N

variable {N : Spec T S O R}

theorem fire_call {c : Conf T S O R} {t : T} (o : O) (h : c.status t = .idle) :
    fire N c (.call t o) = some ⟨c.state,Function.update c.status t (.pending o)⟩ := by
  simp [fire,h]

theorem fire_act {c : Conf T S O R} {t : T} {o : O} {s : S} {x : O ⊕ R}
    (h : c.status t = .pending o) (hx : (s,x) ∈ N.act c t o) :
    ∃ choice, fire N c (.act t choice) = some ⟨s,Function.update c.status t (after x)⟩ := by
  obtain ⟨choice,hc⟩ := List.mem_iff_getElem?.mp hx
  exact ⟨choice,by simp [fire,h,hc]⟩

theorem fire_ret {c : Conf T S O R} {t : T} {r : R} (h : c.status t = .done r) :
    fire N c (.ret t) = some ⟨c.state,Function.update c.status t .idle⟩ := by
  simp [fire,h]

/-- What every effect keeps holds of the state of the object in every run. -/
theorem Spec.invariant {I : S → Prop} (h0 : I N.init)
    (hact : ∀ c t o s x, I c.state → (s,x) ∈ N.act c t o → I s) {c : Conf T S O R}
    (hr : N.system.Reachable c) : I c.state := by
  refine hr.invariant (I:=fun c => I c.state) (fun c hc => ?_) fun c b c' _ hi hf => ?_
  · obtain rfl := hc
    exact h0
  · cases b with
    | call t o =>
      simp only [Spec.system,fire] at hf
      split at hf
      · obtain rfl := Option.some.inj hf
        exact hi
      · cases hf
    | act t choice =>
      simp only [Spec.system,fire] at hf
      split at hf
      · obtain ⟨e,he,rfl⟩ := Option.map_eq_some_iff.mp hf
        exact hact c t _ e.1 e.2 hi (List.mem_of_getElem? he)
      · cases hf
    | ret t =>
      simp only [Spec.system,fire] at hf
      split at hf
      · obtain rfl := Option.some.inj hf
        exact hi
      · cases hf

/-- The steps `bs` lead from `c` to `c'` and show `es`. -/
def Spec.Shows (N : Spec T S O R) (c c' : Conf T S O R) (es : List (Event T O R)) : Prop :=
  ∃ bs, N.system.exec c bs = some c' ∧ N.system.trace seen c bs = es

theorem Spec.Shows.refl (c : Conf T S O R) : N.Shows c c [] := ⟨[],rfl,rfl⟩

theorem Spec.Shows.trans {c c' c'' : Conf T S O R} {es es' : List (Event T O R)}
    (h : N.Shows c c' es) (h' : N.Shows c' c'' es') : N.Shows c c'' (es++es') := by
  obtain ⟨bs,hbs,rfl⟩ := h
  obtain ⟨bs',hbs',rfl⟩ := h'
  refine ⟨bs++bs',by simp [System.exec_append,hbs,hbs'],?_⟩
  clear hbs'
  induction bs generalizing c with
  | nil => simp only [System.exec,Option.some.injEq] at hbs; subst hbs; rfl
  | cons b bs ih =>
    obtain ⟨d,hd,hd'⟩ := Option.bind_eq_some_iff.mp hbs
    simp only [List.cons_append,System.trace,hd,Option.elim_some,List.append_assoc]
    rw [ih hd']

theorem Spec.shows_call {c : Conf T S O R} {t : T} (o : O) (h : c.status t = .idle) :
    N.Shows c ⟨c.state,Function.update c.status t (.pending o)⟩ [.call t o] := by
  refine ⟨[.call t o],?_,?_⟩ <;> simp [System.exec,System.trace,Spec.system,fire_call o h,seen]

theorem Spec.shows_act {c : Conf T S O R} {t : T} {o : O} {s : S} {x : O ⊕ R}
    (h : c.status t = .pending o) (hx : (s,x) ∈ N.act c t o) :
    N.Shows c ⟨s,Function.update c.status t (after x)⟩ [] := by
  obtain ⟨choice,hc⟩ := fire_act h hx
  refine ⟨[.act t choice],?_,?_⟩ <;> simp [System.exec,System.trace,Spec.system,hc,seen]

theorem Spec.shows_ret {c : Conf T S O R} {t : T} {r : R} (h : c.status t = .done r) :
    N.Shows c ⟨c.state,Function.update c.status t .idle⟩ [.ret t r] := by
  have hf : fire N c (.ret t) = some ⟨c.state,Function.update c.status t .idle⟩ := fire_ret h
  refine ⟨[.ret t],?_,?_⟩ <;> simp [System.exec,System.trace,Spec.system,hf,seen,h]

/-- An operation that takes effect and returns at once. -/
theorem Spec.shows_act_ret {c : Conf T S O R} {t : T} {o : O} {s : S} {r : R}
    (h : c.status t = .pending o) (hx : (s,.inr r) ∈ N.act c t o) :
    N.Shows c ⟨s,Function.update c.status t .idle⟩ [.ret t r] := by
  have h1 := Spec.shows_act h hx
  have h2 := Spec.shows_ret (N:=N) (c:=⟨s,Function.update c.status t (after (.inr r))⟩) (t:=t)
    (r:=r) (by simp [after])
  simpa using h1.trans h2

/-! The calls, effects and returns of one client, counted. -/

def calls (t : T) (_ : Conf T S O R) : Label T O → ℕ
  | .call u _ => if u = t then 1 else 0
  | _ => 0

def acts (t : T) (_ : Conf T S O R) : Label T O → ℕ
  | .act u _ => if u = t then 1 else 0
  | _ => 0

def rets (t : T) (_ : Conf T S O R) : Label T O → ℕ
  | .ret u => if u = t then 1 else 0
  | _ => 0

def Status.waiting : Status O R → ℕ
  | .pending _ => 1
  | _ => 0

def Status.effected : Status O R → ℕ
  | .done _ => 1
  | _ => 0

/-- Every effect completes its operation. -/
def Spec.Once (N : Spec T S O R) : Prop :=
  ∀ c t o s x, (s,x) ∈ N.act c t o → ∃ r, x = .inr r

theorem Spec.Once.fire_status (hN : N.Once) {c c' : Conf T S O R} {b : Label T O}
    (h : fire N c b = some c') (t : T) :
    (c.status t).waiting + calls t c b = acts t c b + (c'.status t).waiting ∧
      (c.status t).effected + acts t c b = rets t c b + (c'.status t).effected := by
  cases b with
  | call u o =>
    simp only [fire] at h
    split at h
    · rename_i hu
      obtain rfl := Option.some.inj h
      by_cases hut : u = t
      · subst hut; simp [calls,acts,rets,hu,Status.waiting,Status.effected]
      · simp [calls,acts,rets,hut,Function.update_of_ne (Ne.symm hut)]
    · cases h
  | act u choice =>
    simp only [fire] at h
    split at h
    · rename_i o hu
      obtain ⟨⟨s,x⟩,he,rfl⟩ := Option.map_eq_some_iff.mp h
      obtain ⟨r,rfl⟩ := hN _ _ _ _ _ (List.mem_of_getElem? he)
      by_cases hut : u = t
      · subst hut; simp [calls,acts,rets,hu,after,Status.waiting,Status.effected]
      · simp [calls,acts,rets,hut,Function.update_of_ne (Ne.symm hut)]
    · cases h
  | ret u =>
    simp only [fire] at h
    split at h
    · rename_i r hu
      obtain rfl := Option.some.inj h
      by_cases hut : u = t
      · subst hut; simp [calls,acts,rets,hu,Status.waiting,Status.effected]
      · simp [calls,acts,rets,hut,Function.update_of_ne (Ne.symm hut)]
    · cases h

/-- Between the call and the return of an operation lies exactly one effect. -/
theorem Spec.Once.exec_status (hN : N.Once) {c : Conf T S O R} {bs : List (Label T O)}
    (h : N.system.exec N.start bs = some c) (t : T) :
    N.system.tally (calls t) N.start bs =
        N.system.tally (acts t) N.start bs + (c.status t).waiting ∧
      N.system.tally (acts t) N.start bs =
        N.system.tally (rets t) N.start bs + (c.status t).effected := by
  have hr : N.system.Reachable N.start := .init rfl
  have hcall := hr.balance (f:=fun c => (c.status t).waiting) (i:=calls t) (o:=acts t)
    (fun _ _ _ _ hf => (hN.fire_status hf t).1) h
  have hact := hr.balance (f:=fun c => (c.status t).effected) (i:=acts t) (o:=rets t)
    (fun _ _ _ _ hf => (hN.fire_status hf t).2) h
  have hw : (N.start.status t).waiting = 0 := rfl
  have he : (N.start.status t).effected = 0 := rfl
  omega

/-- A view of a system as an object: each step shows what the same calls and returns of the
object show. -/
structure Linearization {X A : Type} (M : System X A) (seenBy : X → A → Option (Event T O R))
    (N : Spec T S O R) where
  abs : X → Conf T S O R
  init : ∀ s, M.init s → abs s = N.start
  step : ∀ s a s', M.Reachable s → M.fire s a = some s' →
    N.Shows (abs s) (abs s') (seenBy s a).toList

/-- The history of every run is one of the object. -/
theorem Linearization.history {X A : Type} {M : System X A}
    {seenBy : X → A → Option (Event T O R)} (f : Linearization M seenBy N) {s s' : X} {as : List A}
    (hr : M.Reachable s) (h : M.exec s as = some s') :
    N.Shows (f.abs s) (f.abs s') (M.trace seenBy s as) := by
  induction as generalizing s with
  | nil => simp only [System.exec,Option.some.injEq] at h; subst h; exact .refl _
  | cons a as ih =>
    obtain ⟨t,hf,ht⟩ := Option.bind_eq_some_iff.mp h
    simpa [System.trace,hf] using (f.step s a t hr hf).trans (ih (hr.step hf) ht)

theorem Linearization.reachable {X A : Type} {M : System X A}
    {seenBy : X → A → Option (Event T O R)} (f : Linearization M seenBy N) {s : X}
    (hr : M.Reachable s) : N.system.Reachable (f.abs s) := by
  refine hr.invariant (I:=fun s => N.system.Reachable (f.abs s)) (fun s hs => ?_)
    fun s a s' hr hi hf => ?_
  · exact .init (f.init s hs)
  · obtain ⟨bs,hbs,-⟩ := f.step s a s' hr hf
    exact hi.exec hbs

end AtomicObject
end Benedias
