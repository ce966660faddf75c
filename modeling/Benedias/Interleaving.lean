import Mathlib.Logic.Basic
import Mathlib.Data.Fintype.Defs
import Mathlib.Tactic.Common

/-! Labelled transition systems with executable steps. A label names the party that
acts and what it chooses, so a list of labels is a schedule and can be run. -/
namespace Benedias
namespace Interleaving

/-- Threads, clients or handles for schedules that are run. -/
inductive Party
  | first | second | third
  deriving DecidableEq

instance : Fintype Party where
  elems := ⟨[Party.first,Party.second,Party.third],by decide⟩
  complete p := by cases p <;> decide

instance : OfNat Party 0 := ⟨.first⟩
instance : OfNat Party 1 := ⟨.second⟩
instance : OfNat Party 2 := ⟨.third⟩

structure System (S A : Type) where
  init : S → Prop
  fire : S → A → Option S

variable {S A S' A' : Type}

/-- Run a schedule; a label that is not enabled ends it with `none`. -/
def System.exec (M : System S A) (s : S) : List A → Option S
  | [] => some s
  | a::as => (M.fire s a).bind fun s' => M.exec s' as

/-- The states of the runs all of whose steps meet `P`. -/
inductive System.ReachableVia (M : System S A) (P : S → A → Prop) : S → Prop
  | init {s : S} (h : M.init s) : M.ReachableVia P s
  | step {s s' : S} {a : A} (hr : M.ReachableVia P s) (hp : P s a)
      (hf : M.fire s a = some s') : M.ReachableVia P s'

def System.Reachable (M : System S A) (s : S) : Prop := M.ReachableVia (fun _ _ => True) s

variable {M : System S A} {P Q : S → A → Prop}

/-- An inductive invariant may use that the state before the step is reachable. -/
theorem System.ReachableVia.invariant {I : S → Prop} {s : S} (hr : M.ReachableVia P s)
    (hinit : ∀ s, M.init s → I s)
    (hstep : ∀ s a s', M.ReachableVia P s → I s → P s a → M.fire s a = some s' → I s') : I s := by
  induction hr with
  | init h => exact hinit _ h
  | step hr hp hf ih => exact hstep _ _ _ hr ih hp hf

theorem System.ReachableVia.mono {s : S} (hr : M.ReachableVia P s)
    (h : ∀ s a, P s a → Q s a) : M.ReachableVia Q s := by
  induction hr with
  | init h => exact .init h
  | step _ hp hf ih => exact .step ih (h _ _ hp) hf

theorem System.ReachableVia.reachable {s : S} (hr : M.ReachableVia P s) : M.Reachable s :=
  hr.mono fun _ _ _ => trivial

/-- A discipline whose invariant makes every step meet `Q` as well. -/
theorem System.ReachableVia.meets {I : S → Prop} {s : S} (hr : M.ReachableVia P s)
    (hinit : ∀ s, M.init s → I s)
    (hstep : ∀ s a s', M.ReachableVia Q s → I s → P s a → M.fire s a = some s' →
      Q s a ∧ I s') : M.ReachableVia Q s ∧ I s := by
  induction hr with
  | init h => exact ⟨.init h,hinit _ h⟩
  | step hr hp hf ih =>
    obtain ⟨hq,hi⟩ := hstep _ _ _ ih.1 ih.2 hp hf
    exact ⟨.step ih.1 hq hf,hi⟩

theorem System.Reachable.init {s : S} (h : M.init s) : M.Reachable s :=
  System.ReachableVia.init h

theorem System.Reachable.step {s s' : S} {a : A} (hr : M.Reachable s)
    (hf : M.fire s a = some s') : M.Reachable s' :=
  System.ReachableVia.step hr trivial hf

theorem System.Reachable.invariant {I : S → Prop} {s : S} (hr : M.Reachable s)
    (hinit : ∀ s, M.init s → I s)
    (hstep : ∀ s a s', M.Reachable s → I s → M.fire s a = some s' → I s') : I s :=
  System.ReachableVia.invariant hr hinit fun s a s' hr hi _ hf => hstep s a s' hr hi hf

theorem System.Reachable.exec {s s' : S} {as : List A} (hr : M.Reachable s)
    (h : M.exec s as = some s') : M.Reachable s' := by
  induction as generalizing s with
  | nil => simpa [System.exec] using (Option.some.inj h) ▸ hr
  | cons a as ih =>
    obtain ⟨t,hf,ht⟩ := Option.bind_eq_some_iff.mp h
    exact ih (hr.step hf) ht

/-- The end of a schedule, or its start where a label is not enabled, is reachable. -/
theorem System.Reachable.execD {s : S} (as : List A) (hr : M.Reachable s) :
    M.Reachable ((M.exec s as).getD s) := by
  cases h : M.exec s as with
  | none => exact hr
  | some s' => exact hr.exec h

/-- Run a schedule as long as its steps meet `P`. -/
def System.execVia (M : System S A) (P : S → A → Prop) [∀ s a, Decidable (P s a)] (s : S) :
    List A → Option S
  | [] => some s
  | a::as => if P s a then (M.fire s a).bind fun s' => M.execVia P s' as else none

theorem System.ReachableVia.execVia [∀ s a, Decidable (P s a)] {s s' : S} {as : List A}
    (hr : M.ReachableVia P s) (h : M.execVia P s as = some s') : M.ReachableVia P s' := by
  induction as generalizing s with
  | nil => simpa [System.execVia] using (Option.some.inj h) ▸ hr
  | cons a as ih =>
    simp only [System.execVia] at h
    split at h
    case isTrue hp =>
      obtain ⟨t,hf,ht⟩ := Option.bind_eq_some_iff.mp h
      exact ih (.step hr hp hf) ht
    case isFalse => cases h

theorem System.ReachableVia.execViaD [∀ s a, Decidable (P s a)] {s : S} (as : List A)
    (hr : M.ReachableVia P s) : M.ReachableVia P ((M.execVia P s as).getD s) := by
  cases h : M.execVia P s as with
  | none => exact hr
  | some s' => exact hr.execVia h

/-- A schedule that can be run, with the end that `getD` gives it. -/
theorem System.execVia_getD [∀ s a, Decidable (P s a)] {s d : S} {as : List A}
    (h : (M.execVia P s as).isSome) : M.execVia P s as = some ((M.execVia P s as).getD d) := by
  obtain ⟨s',hs⟩ := Option.isSome_iff_exists.mp h
  rw [hs,Option.getD_some]

theorem System.execVia_append [∀ s a, Decidable (P s a)] (s : S) (as bs : List A) :
    M.execVia P s (as++bs) = (M.execVia P s as).bind fun t => M.execVia P t bs := by
  induction as generalizing s with
  | nil => rfl
  | cons a as ih =>
    simp only [List.cons_append,System.execVia]
    split
    case isTrue => simp only [ih,Option.bind_assoc]
    case isFalse => rfl

/-- What the steps of a schedule keep that meet `P` holds at its end. -/
theorem System.Reachable.execVia_invariant [∀ s a, Decidable (P s a)] {I : S → Prop} {s s' : S}
    {as : List A} (hr : M.Reachable s) (hi : I s)
    (hstep : ∀ s a s', M.Reachable s → I s → P s a → M.fire s a = some s' → I s')
    (h : M.execVia P s as = some s') : I s' := by
  induction as generalizing s with
  | nil => simpa [System.execVia] using (Option.some.inj h) ▸ hi
  | cons a as ih =>
    simp only [System.execVia] at h
    split at h
    case isTrue hp =>
      obtain ⟨t,hf,ht⟩ := Option.bind_eq_some_iff.mp h
      exact ih (hr.step hf) (hstep _ _ _ hr hi hp hf) ht
    case isFalse => cases h

/-- An abstraction: every concrete step is invisible or a step of the abstract system. -/
structure Simulation (M : System S A) (N : System S' A') where
  abs : S → S'
  init : ∀ s, M.init s → N.init (abs s)
  step : ∀ s a s', M.Reachable s → M.fire s a = some s' →
    abs s' = abs s ∨ ∃ b, N.fire (abs s) b = some (abs s')

theorem Simulation.reachable {N : System S' A'} (f : Simulation M N) {s : S}
    (hr : M.Reachable s) : N.Reachable (f.abs s) := by
  refine hr.invariant (I:=fun s => N.Reachable (f.abs s)) (fun s h => .init (f.init s h)) ?_
  intro s a s' hs hi hf
  rcases f.step s a s' hs hf with he | ⟨b,hb⟩
  · rw [he]; exact hi
  · exact hi.step hb

/-- A finite run with its states and labels, for properties of a stretch of time. -/
structure System.Run (M : System S A) (n : ℕ) where
  state : ℕ → S
  label : ℕ → A
  start : M.init (state 0)
  next : ∀ i < n, M.fire (state i) (label i) = some (state (i+1))

theorem System.Run.reachable {n : ℕ} (r : M.Run n) {i : ℕ} (hi : i ≤ n) :
    M.Reachable (r.state i) := by
  induction i with
  | zero => exact .init r.start
  | succ i ih => exact (ih (by omega)).step (r.next i (by omega))

theorem System.exec_append (s : S) (as bs : List A) :
    M.exec s (as++bs) = (M.exec s as).bind fun t => M.exec t bs := by
  induction as generalizing s with
  | nil => rfl
  | cons a as ih => simp only [List.cons_append,System.exec,ih,Option.bind_assoc]

/-- A schedule that can be executed, as a run. -/
def System.runOf (M : System S A) (s : S) (hs : M.init s) (as : List A) (d : A)
    (h : (M.exec s as).isSome) : M.Run as.length where
  state i := (M.exec s (as.take i)).getD s
  label i := as.getD i d
  start := hs
  next i hi := by
    have hsplit := M.exec_append s (as.take i) (as.drop i)
    rw [List.take_append_drop,List.drop_eq_getElem_cons hi] at hsplit
    obtain ⟨t,ht⟩ := Option.isSome_iff_exists.mp h
    obtain ⟨u,hu,hu'⟩ := Option.bind_eq_some_iff.mp (hsplit.symm.trans ht)
    obtain ⟨v,hv,-⟩ := Option.bind_eq_some_iff.mp hu'
    have hnext := M.exec_append s (as.take i) [as[i]]
    rw [List.take_append_getElem hi,hu] at hnext
    simp only [Option.bind_some,System.exec,hv] at hnext
    simp [hu,hnext,hv,hi]

/-- Runs of two systems whose steps correspond under a map of states and labels. -/
theorem System.exec_map {N : System S' A'} {f : S → S'} {g : A → A'} {as : List A}
    (hstep : ∀ s, ∀ a ∈ as, N.fire (f s) (g a) = (M.fire s a).map f) (s : S) :
    N.exec (f s) (as.map g) = (M.exec s as).map f := by
  induction as generalizing s with
  | nil => rfl
  | cons a as ih =>
    simp only [List.map_cons,System.exec,hstep s a (by simp)]
    cases M.fire s a with
    | none => rfl
    | some t => exact ih (fun s a ha => hstep s a (List.mem_cons_of_mem _ ha)) t

/-! Sums and observations along a schedule. -/

/-- The sum of a weight over the steps of a schedule. -/
def System.tally (M : System S A) (w : S → A → ℕ) (s : S) : List A → ℕ
  | [] => 0
  | a::as => w s a + ((M.fire s a).elim 0 fun s' => M.tally w s' as)

theorem System.tally_add (w v : S → A → ℕ) (s : S) (as : List A) :
    M.tally (fun s a => w s a + v s a) s as = M.tally w s as + M.tally v s as := by
  induction as generalizing s with
  | nil => rfl
  | cons a as ih =>
    cases h : M.fire s a with
    | none => simp [System.tally,h]
    | some s' => simp only [System.tally,h,Option.elim_some,ih]; omega

theorem System.tally_mul (k : ℕ) (w : S → A → ℕ) (s : S) (as : List A) :
    M.tally (fun s a => k*w s a) s as = k*M.tally w s as := by
  induction as generalizing s with
  | nil => rfl
  | cons a as ih =>
    cases h : M.fire s a with
    | none => simp [System.tally,h]
    | some s' => simp only [System.tally,h,Option.elim_some,ih,Nat.mul_add]

theorem System.tally_append [∀ s a, Decidable (P s a)] (w : S → A → ℕ) {s t : S} {as : List A}
    (bs : List A) (h : M.execVia P s as = some t) :
    M.tally w s (as++bs) = M.tally w s as + M.tally w t bs := by
  induction as generalizing s with
  | nil =>
    obtain rfl : s = t := by simpa [System.execVia] using h
    simp [System.tally]
  | cons a as ih =>
    simp only [System.execVia] at h
    split at h
    case isTrue =>
      obtain ⟨u,hf,hu⟩ := Option.bind_eq_some_iff.mp h
      simp only [List.cons_append,System.tally,hf,Option.elim_some,ih hu]
      omega
    case isFalse => cases h

/-- The last step of a schedule that counts. -/
theorem System.exists_last [∀ s a, Decidable (P s a)] {w : S → A → ℕ} {s s' : S} {as : List A}
    (h : M.execVia P s as = some s') (hw : 0 < M.tally w s as) :
    ∃ pre a post u v, as = pre++a::post ∧ M.execVia P s pre = some u ∧ P u a ∧
      M.fire u a = some v ∧ 0 < w u a ∧ M.tally w v post = 0 := by
  induction as generalizing s with
  | nil => exact absurd hw (Nat.lt_irrefl 0)
  | cons a as ih =>
    simp only [System.execVia] at h
    split at h
    case isFalse => cases h
    case isTrue hp =>
      obtain ⟨t,hf,ht⟩ := Option.bind_eq_some_iff.mp h
      simp only [System.tally,hf,Option.elim_some] at hw
      rcases Nat.eq_zero_or_pos (M.tally w t as) with hz | hpos
      · exact ⟨[],a,as,s,t,rfl,rfl,hp,hf,by omega,hz⟩
      · obtain ⟨pre,b,post,u,v,rfl,hpre,hpu,hfu,hwu,hz⟩ := ih ht hpos
        exact ⟨a::pre,b,post,u,v,rfl,by simp [System.execVia,hp,hf,hpre],hpu,hfu,hwu,hz⟩

/-- A quantity that every step changes by what comes in and what goes out. -/
theorem System.Reachable.balance {f : S → ℕ} {i o : S → A → ℕ} {s s' : S} {as : List A}
    (hr : M.Reachable s)
    (hstep : ∀ s a s', M.Reachable s → M.fire s a = some s' → f s + i s a = o s a + f s')
    (h : M.exec s as = some s') :
    f s + M.tally i s as = M.tally o s as + f s' := by
  induction as generalizing s with
  | nil => simp [System.tally,Option.some.inj h]
  | cons a as ih =>
    obtain ⟨t,hf,ht⟩ := Option.bind_eq_some_iff.mp h
    have h1 := hstep s a t hr hf
    have h2 := ih (hr.step hf) ht
    simp only [System.tally,hf,Option.elim_some]
    omega

theorem System.ReachableVia.balance [∀ s a, Decidable (P s a)] {f : S → ℕ} {i o : S → A → ℕ}
    {s s' : S} {as : List A} (hr : M.ReachableVia P s)
    (hstep : ∀ s a s', M.ReachableVia P s → P s a → M.fire s a = some s' →
      f s + i s a = o s a + f s')
    (h : M.execVia P s as = some s') :
    f s + M.tally i s as = M.tally o s as + f s' := by
  induction as generalizing s with
  | nil =>
    obtain rfl : s = s' := by simpa [System.execVia] using h
    simp [System.tally]
  | cons a as ih =>
    simp only [System.execVia] at h
    split at h
    case isTrue hp =>
      obtain ⟨t,hf,ht⟩ := Option.bind_eq_some_iff.mp h
      have h1 := hstep s a t hr hp hf
      have h2 := ih (.step hr hp hf) ht
      simp only [System.tally,hf,Option.elim_some]
      omega
    case isFalse => cases h

/-- A potential that pays for the steps of a schedule: what a step costs is taken from it, what a
step brings in is added. -/
theorem System.ReachableVia.budget [∀ s a, Decidable (P s a)] {I : S → Prop} {f : S → ℕ}
    {i o : S → A → ℕ} {s s' : S} {as : List A} (hr : M.ReachableVia Q s)
    (hQ : ∀ s a, P s a → Q s a) (hi : I s)
    (hstep : ∀ s, ∀ a ∈ as, ∀ s', M.ReachableVia Q s → I s → P s a → M.fire s a = some s' →
      I s' ∧ f s' + o s a ≤ f s + i s a)
    (h : M.execVia P s as = some s') : I s' ∧ f s' + M.tally o s as ≤ f s + M.tally i s as := by
  induction as generalizing s with
  | nil =>
    obtain rfl : s = s' := by simpa [System.execVia] using h
    exact ⟨hi,Nat.le_refl _⟩
  | cons a as ih =>
    simp only [System.execVia] at h
    split at h
    case isTrue hp =>
      obtain ⟨t,hf,ht⟩ := Option.bind_eq_some_iff.mp h
      obtain ⟨hi',h1⟩ := hstep s a (by simp) t hr hi hp hf
      obtain ⟨hi'',h2⟩ := ih (.step hr (hQ s a hp) hf) hi'
        (fun s b hb => hstep s b (List.mem_cons_of_mem a hb)) ht
      refine ⟨hi'',?_⟩
      simp only [System.tally,hf,Option.elim_some]
      omega
    case isFalse => cases h

/-- A quantity that grows by no more than what comes in stays below the sum of that. -/
theorem System.ReachableVia.within [∀ s a, Decidable (P s a)] {f : S → ℕ} {i : S → A → ℕ} {b : ℕ}
    {s s' : S} {as : List A} (hr : M.ReachableVia P s)
    (hstep : ∀ s a s', M.ReachableVia P s → P s a → M.fire s a = some s' → f s' ≤ f s + i s a)
    (hb : f s + M.tally i s as ≤ b) (h : M.execVia P s as = some s') :
    M.execVia (fun s a => P s a ∧ f s ≤ b) s as = some s' := by
  induction as generalizing s with
  | nil => exact h
  | cons a as ih =>
    simp only [System.execVia] at h
    split at h
    case isTrue hp =>
      obtain ⟨t,hf,ht⟩ := Option.bind_eq_some_iff.mp h
      have hle := hstep s a t hr hp hf
      simp only [System.tally,hf,Option.elim_some] at hb
      have hs : P s a ∧ f s ≤ b := ⟨hp,by omega⟩
      have hrest := ih (.step hr hp hf) (by omega) ht
      simp only [System.execVia,if_pos hs,hf,Option.bind_some,hrest]
    case isFalse => cases h

/-- What is seen of the steps of a schedule. -/
def System.trace {E : Type} (M : System S A) (seen : S → A → Option E) (s : S) :
    List A → List E
  | [] => []
  | a::as => (seen s a).toList ++ ((M.fire s a).elim [] fun s' => M.trace seen s' as)

/-- What is seen of a schedule is a schedule of another system, if what is seen of a step is one. -/
theorem System.ReachableVia.trace [∀ s a, Decidable (P s a)] {E : Type} {seen : S → A → Option E}
    {N : System S' E} {f : S → S'} {s s' : S} {as : List A} (hr : M.ReachableVia P s)
    (hstep : ∀ s a s', M.ReachableVia P s → P s a → M.fire s a = some s' →
      N.exec (f s) (seen s a).toList = some (f s'))
    (h : M.execVia P s as = some s') : N.exec (f s) (M.trace seen s as) = some (f s') := by
  induction as generalizing s with
  | nil =>
    obtain rfl : s = s' := by simpa [System.execVia] using h
    rfl
  | cons a as ih =>
    simp only [System.execVia] at h
    split at h
    case isTrue hp =>
      obtain ⟨t,hf,ht⟩ := Option.bind_eq_some_iff.mp h
      have h1 := hstep s a t hr hp hf
      have h2 := ih (.step hr hp hf) ht
      simp only [System.trace,hf,Option.elim_some,System.exec_append,h1,Option.bind_some,h2]
    case isFalse => cases h

end Interleaving
end Benedias
