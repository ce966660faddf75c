import Benedias.FutexMachine
import Mathlib.Tactic.DeriveFintype

/-! The gate of `futex_rw_control`: `enter_gate`, `try_enter_gate` and `leave_gate` one
atomic step at a time, and the mutual exclusion and wakeup invariant of any threads that
use them in brackets. Gate values are 0 unlocked, 1 locked, 2 locked contended. -/
namespace Benedias
namespace Gate

open Interleaving FutexMachine

/-- Program points of `enter_gate`; `test` carries the value left in `expected` by the
compare-exchange that failed. -/
inductive EnterPc
  | fast | test (expected : ℤ) | sleep | retry
  deriving DecidableEq

inductive LeavePc
  | sub | store | wake
  deriving DecidableEq

/-- One step of `enter_gate`; `none` is the return. -/
def enterGate (gate : ℤ) : EnterPc → Effect ℤ Unit (Option EnterPc)
  | .fast => if gate = 0 then .go 1 none else .go gate (some (.test gate))
  | .test expected =>
    if expected = 2 then .go gate (some .sleep)
    else if gate = expected then .go 2 (some .sleep)
    else .go gate (some .retry)
  | .sleep => futexWait gate () gate 2 (some .retry)
  | .retry => if gate = 0 then .go 2 none else .go gate (some (.test gate))

/-- The single compare-exchange of `try_enter_gate`, with its result. -/
def tryEnterGate (gate : ℤ) : ℤ × Bool :=
  if gate = 0 then (1,true) else (gate,false)

/-- One step of `leave_gate`; the sampled value decides whether the call returns. -/
def leaveGate (gate : ℤ) : LeavePc → Effect ℤ Unit (Option LeavePc)
  | .sub => .go (gate-1) (if gate = 1 then none else some .store)
  | .store => .go 0 (some .wake)
  | .wake => .wake () none

/-- A thread that brackets its critical sections with the gate. -/
inductive Phase
  | out | trying | entering (pc : EnterPc) | inside | leaving (pc : LeavePc)
  deriving DecidableEq

def Phase.enter : Option EnterPc → Phase
  | some pc => .entering pc
  | none => .inside

def Phase.leave : Option LeavePc → Phase
  | some pc => .leaving pc
  | none => .out

def next : Phase → ℤ → List (Effect ℤ Unit Phase)
  | .out, gate => [.go gate .trying,.go gate (.entering .fast)]
  | .trying, gate =>
    let r := tryEnterGate gate
    [.go r.1 (if r.2 then .inside else .out)]
  | .entering pc, gate => [(enterGate gate pc).map id id Phase.enter]
  | .inside, gate => [.go gate .inside,.go gate (.leaving .sub)]
  | .leaving pc, gate => [(leaveGate gate pc).map id id Phase.leave]

/-- From the successful compare-exchange to the step that takes the word to 0. -/
def Phase.owns : Phase → Bool
  | .inside | .leaving .sub | .leaving .store => true
  | _ => false

/-- In the slow loop of `enter_gate`, from where the gate is only entered with the value 2. -/
def Phase.slow : Phase → Bool
  | .entering (.test _) | .entering .sleep | .entering .retry => true
  | _ => false

/-- A leaver that sampled 2 and has still to store 0 or to wake. -/
def Phase.owesWake : Phase → Bool
  | .leaving .store | .leaving .wake => true
  | _ => false

variable {T : Type}

abbrev GateConf (T : Type) := Conf T ℤ Unit Phase

/-- Some awake thread will wake a sleeper, or enter with the value 2. -/
def Rousing (c : GateConf T) : Prop :=
  ∃ t, c.asleep t = none ∧ ((c.pc t).slow ∨ (c.pc t).owesWake)

structure Inv (c : GateConf T) : Prop where
  word : c.mem = 0 ∨ c.mem = 1 ∨ c.mem = 2
  free : c.mem = 0 → ∀ t, (c.pc t).owns = false
  held : c.mem ≠ 0 → ∃ t, (c.pc t).owns
  unique : ∀ t u, (c.pc t).owns → (c.pc u).owns → t = u
  tested : ∀ t e, c.pc t = .entering (.test e) → e = 1 ∨ e = 2
  parked : ∀ t, c.asleep t ≠ none → c.pc t = .entering .retry
  covered : (∃ t, c.asleep t ≠ none) → c.mem = 2 ∨ Rousing c

theorem Phase.owns_of_slow {p : Phase} (h : p.slow) : p.owns = false := by
  rcases p with _ | _ | (_ | _ | _ | _) | _ | (_ | _ | _) <;> simp_all [Phase.slow,Phase.owns]

theorem inv_start : Inv (start 0 .out : GateConf T) where
  word := .inl rfl
  free := fun _ _ => rfl
  held := fun h => absurd rfl h
  unique := fun _ _ h => by simp [start,Phase.owns] at h
  tested := fun _ _ h => by simp [start] at h
  parked := fun _ h => absurd rfl h
  covered := fun ⟨_,h⟩ => absurd rfl h

/-- What one `go` step of a thread can do to the word and to its own phase. -/
inductive Move (g : ℤ) (p : Phase) : ℤ → Phase → Prop
  | quiet {q : Phase} (ho : q.owns = p.owns) (hw : p.owesWake = false)
      (hs : p.slow → q.slow) (ht : ∀ e, q = .entering (.test e) → g = e ∧ g ≠ 0) : Move g p g q
  | acquire {g' : ℤ} {q : Phase} (h0 : g = 0) (h1 : g' = 1 ∨ g' = 2) (hq : q = .inside)
      (hw : p.owesWake = false) (hs : p.slow → g' = 2) (ho : p.owns = false) : Move g p g' q
  | mark {q : Phase} (h : g ≠ 0) (hp : p.slow) (hq : q = .entering .sleep) : Move g p 2 q
  | release (h : g = 1) (hp : p = .leaving .sub) : Move g p 0 .out
  | contended (h : g ≠ 1) (hp : p = .leaving .sub) : Move g p (g-1) (.leaving .store)
  | clear (hp : p = .leaving .store) : Move g p 0 (.leaving .wake)

theorem go_move {g g' : ℤ} {p q : Phase} (ht : ∀ e, p = .entering (.test e) → e = 1 ∨ e = 2)
    (h : .go g' q ∈ next p g) : Move g p g' q := by
  cases p with
  | out =>
    simp only [next,List.mem_cons,Effect.go.injEq,List.not_mem_nil,or_false] at h
    rcases h with ⟨rfl,rfl⟩ | ⟨rfl,rfl⟩ <;> exact .quiet rfl rfl (by simp [Phase.slow]) (by simp)
  | trying =>
    simp only [next,tryEnterGate,List.mem_singleton,Effect.go.injEq] at h
    split at h
    · obtain ⟨rfl,rfl⟩ := h
      exact .acquire ‹_› (.inl rfl) rfl rfl (by simp [Phase.slow]) rfl
    · obtain ⟨rfl,rfl⟩ := h
      exact .quiet rfl rfl (by simp [Phase.slow]) (by simp)
  | entering pc =>
    cases pc with
    | fast =>
      simp only [next,enterGate,List.mem_singleton] at h
      split at h <;> obtain ⟨rfl,rfl⟩ := Effect.go.inj h
      · exact .acquire ‹_› (.inl rfl) rfl rfl (by simp [Phase.slow]) rfl
      · exact .quiet rfl rfl (by simp [Phase.slow]) fun e he => by
          obtain rfl : g' = e := by simpa [Phase.enter] using he
          exact ⟨rfl,‹_›⟩
    | test e =>
      simp only [next,enterGate,List.mem_singleton] at h
      split at h
      · obtain ⟨rfl,rfl⟩ := Effect.go.inj h
        exact .quiet rfl rfl (fun _ => rfl) (by simp [Phase.enter])
      · split at h <;> obtain ⟨rfl,rfl⟩ := Effect.go.inj h
        · have := ht e rfl
          exact .mark (by omega) rfl rfl
        · exact .quiet rfl rfl (fun _ => rfl) (by simp [Phase.enter])
    | sleep =>
      simp only [next,enterGate,futexWait,List.mem_singleton] at h
      split at h
      · cases h
      · obtain ⟨rfl,rfl⟩ := Effect.go.inj h
        exact .quiet rfl rfl (fun _ => rfl) (by simp [Phase.enter])
    | retry =>
      simp only [next,enterGate,List.mem_singleton] at h
      split at h <;> obtain ⟨rfl,rfl⟩ := Effect.go.inj h
      · exact .acquire ‹_› (.inr rfl) rfl rfl (fun _ => rfl) rfl
      · exact .quiet rfl rfl (fun _ => rfl) fun e he => by
          obtain rfl : g' = e := by simpa [Phase.enter] using he
          exact ⟨rfl,‹_›⟩
  | inside =>
    simp only [next,List.mem_cons,Effect.go.injEq,List.not_mem_nil,or_false] at h
    rcases h with ⟨rfl,rfl⟩ | ⟨rfl,rfl⟩ <;> exact .quiet rfl rfl (by simp [Phase.slow]) (by simp)
  | leaving pc =>
    cases pc with
    | sub =>
      simp only [next,leaveGate,List.mem_singleton] at h
      obtain ⟨rfl,rfl⟩ := Effect.go.inj h
      by_cases h1 : g = 1
      · subst h1; exact .release rfl rfl
      · simp only [h1,if_false]; exact .contended h1 rfl
    | store =>
      simp only [next,leaveGate,List.mem_singleton] at h
      obtain ⟨rfl,rfl⟩ := Effect.go.inj h
      exact .clear rfl
    | wake =>
      simp only [next,leaveGate,List.mem_singleton] at h
      cases h

theorem sleep_phase {g : ℤ} {p q : Phase} {a : Unit} (h : .sleep a q ∈ next p g) :
    g = 2 ∧ p = .entering .sleep ∧ q = .entering .retry := by
  rcases p with _ | _ | (_ | _ | _ | _) | _ | (_ | _ | _) <;>
    simp only [next,tryEnterGate,enterGate,leaveGate,futexWait,List.mem_cons,List.not_mem_nil,
      or_false] at h <;> (repeat' split at h) <;>
    simp_all [Effect.map,Phase.enter]

theorem wake_phase {g : ℤ} {p q : Phase} {a : Unit} (h : .wake a q ∈ next p g) :
    p = .leaving .wake ∧ q = .out := by
  rcases p with _ | _ | (_ | _ | _ | _) | _ | (_ | _ | _) <;>
    simp only [next,tryEnterGate,enterGate,leaveGate,futexWait,List.mem_cons,List.not_mem_nil,
      or_false] at h <;> (repeat' split at h) <;>
    simp_all [Effect.map,Phase.leave]

/-- A thread that owns the gate has owned it before, or has found it open. -/
theorem Move.owns {g g' : ℤ} {p q : Phase} (hm : Move g p g' q) (hq : q.owns) : p.owns ∨ g = 0 := by
  cases hm with
  | quiet ho => exact .inl (ho ▸ hq)
  | acquire h0 => exact .inr h0
  | contended h1 hp => exact .inl (by rw [hp]; rfl)
  | mark h hp hs =>
    rw [hs] at hq
    cases hq
  | release | clear => cases hq

/-- A step that keeps the word, who owns the gate, and what is carried in `expected`. -/
theorem Inv.same {c c' : GateConf T} (hi : Inv c) (hm : c'.mem = c.mem)
    (ho : ∀ u, (c'.pc u).owns = (c.pc u).owns)
    (ht : ∀ u e, c'.pc u = .entering (.test e) → c.pc u = .entering (.test e))
    (hp : ∀ u, c'.asleep u ≠ none → c'.pc u = .entering .retry)
    (hc : (∃ u, c'.asleep u ≠ none) → c'.mem = 2 ∨ Rousing c') : Inv c' where
  word := by rw [hm]; exact hi.word
  free := fun h u => by rw [ho]; exact hi.free (hm ▸ h) u
  held := fun h => by
    obtain ⟨u,hu⟩ := hi.held (hm ▸ h)
    exact ⟨u,by rw [ho]; exact hu⟩
  unique := fun u v hu hv => hi.unique u v (by rw [← ho]; exact hu) (by rw [← ho]; exact hv)
  tested := fun u e hu => hi.tested u e (ht u e hu)
  parked := hp
  covered := hc

variable [DecidableEq T]

theorem inv_go {c : GateConf T} (hi : Inv c) {t : T} (ha : c.asleep t = none) {g' : ℤ} {q : Phase}
    (hm : Move c.mem (c.pc t) g' q) : Inv ⟨g',Function.update c.pc t q,c.asleep⟩ where
  word := by
    cases hm with
    | quiet ho hw hs ht => exact hi.word
    | acquire h0 h1 hq hw hs ho => exact .inr h1
    | mark hg hp hq => exact .inr (.inr rfl)
    | release h1 hp => exact .inl rfl
    | contended h1 hp =>
      have hw := hi.word
      have h0 : c.mem ≠ 0 := fun h0 => by simpa [hp,Phase.owns] using hi.free h0 t
      exact .inr (.inl (by change c.mem-1 = 1; omega))
    | clear hp => exact .inl rfl
  free := by
    intro h u
    have hf := hi.free
    have hu := hi.unique u t
    cases hm <;> by_cases hut : u = t <;> simp_all [Function.update,Phase.owns]
    omega
  held := by
    intro h
    cases hm with
    | quiet ho hw hs ht =>
      obtain ⟨u,hu⟩ := hi.held h
      by_cases hut : u = t
      · subst hut; exact ⟨u,by simpa [ho] using hu⟩
      · exact ⟨u,by simpa [hut] using hu⟩
    | acquire h0 h1 hq hw hs ho => exact ⟨t,by simp [hq,Phase.owns]⟩
    | mark hg hp hq =>
      obtain ⟨u,hu⟩ := hi.held hg
      by_cases hut : u = t
      · subst hut; simp [Phase.owns_of_slow hp] at hu
      · exact ⟨u,by simpa [hut] using hu⟩
    | release h1 hp => simp at h
    | contended h1 hp => exact ⟨t,by simp [Phase.owns]⟩
    | clear hp => simp at h
  unique := by
    intro u v hu hv
    have hother : ∀ u, u ≠ t → (c.pc u).owns → ¬q.owns := by
      intro u hut hu hq
      rcases hm.owns hq with hp | h0
      · exact hut (hi.unique u t hu hp)
      · exact absurd hu (by simp [hi.free h0 u])
    by_cases hut : u = t <;> by_cases hvt : v = t
    · exact hut.trans hvt.symm
    · subst hut
      exact absurd (by simpa using hu) (hother v hvt (by simpa [hvt] using hv))
    · subst hvt
      exact absurd (by simpa using hv) (hother u hut (by simpa [hut] using hu))
    · exact hi.unique u v (by simpa [hut] using hu) (by simpa [hvt] using hv)
  tested := by
    intro u e he
    have hw := hi.word
    by_cases hut : u = t
    · cases hm <;> simp_all
      omega
    · exact hi.tested u e (by simpa [hut] using he)
  parked := by
    intro u hu
    have hut : u ≠ t := fun h => hu (h ▸ ha)
    simpa [hut] using hi.parked u hu
  covered := by
    intro hs
    cases hm with
    | quiet ho hw hs' ht =>
      refine (hi.covered hs).imp_right fun ⟨u,hu,hr⟩ => ?_
      by_cases hut : u = t
      · subst hut
        exact ⟨u,hu,.inl (by simpa using hs' (by simpa [hw] using hr))⟩
      · exact ⟨u,hu,by simpa [hut] using hr⟩
    | acquire h0 h1 hq hw hs' ho =>
      rcases hi.covered hs with h2 | ⟨u,hu,hr⟩
      · omega
      · by_cases hut : u = t
        · subst hut; exact .inl (hs' (by simpa [hw] using hr))
        · exact .inr ⟨u,hu,by simpa [hut] using hr⟩
    | mark hg hp hq => exact .inl rfl
    | release h1 hp =>
      rcases hi.covered hs with h2 | ⟨u,hu,hr⟩
      · omega
      · refine .inr ⟨u,hu,?_⟩
        have hut : u ≠ t := by rintro rfl; simp [hp,Phase.slow,Phase.owesWake] at hr
        simpa [hut] using hr
    | contended h1 hp => exact .inr ⟨t,ha,.inr (by simp [Phase.owesWake])⟩
    | clear hp => exact .inr ⟨t,ha,.inr (by simp [Phase.owesWake])⟩

theorem test_update {pc : T → Phase} {t : T} {q : Phase} (h : ∀ e, q ≠ .entering (.test e))
    (u : T) (e : ℤ) (hu : Function.update pc t q u = .entering (.test e)) :
    pc u = .entering (.test e) := by
  by_cases hut : u = t
  · subst hut; exact absurd (by simpa using hu) (h e)
  · simpa [hut] using hu

/-- Going to sleep leaves the word at 2; a wake leaves the woken thread in the slow loop. -/
theorem inv_step {c c' : GateConf T} (hi : Inv c) (h : Step next c c') : Inv c' := by
  cases h with
  | @go t m q ha he => exact inv_go hi ha (go_move (hi.tested t) he)
  | @sleep t a q ha he =>
    obtain ⟨h2,hp,rfl⟩ := sleep_phase he
    refine hi.same rfl (update_same _ (by simp [hp,Phase.owns])) (test_update (by simp))
      (fun u hu => ?_) fun _ => .inl h2
    by_cases hut : u = t
    · subst hut; simp
    · simpa [hut] using hi.parked u (by simpa [hut] using hu)
  | @wakeOne t u a q ha he hu =>
    obtain ⟨hp,rfl⟩ := wake_phase he
    have hret := hi.parked u (by simp [hu])
    have hut : u ≠ t := by rintro rfl; rw [hp] at hret; cases hret
    refine hi.same rfl (update_same _ (by simp [hp,Phase.owns])) (test_update (by simp))
      (fun v hv => ?_) fun _ => .inr ⟨u,by simp,.inl (by simp [hut,hret,Phase.slow])⟩
    have hvu : v ≠ u := by rintro rfl; simp at hv
    have hva : c.asleep v ≠ none := by simpa [hvu] using hv
    have hvt : v ≠ t := by rintro rfl; exact hva ha
    simpa [hvt] using hi.parked v hva
  | @wakeNone t a q ha he hn =>
    obtain ⟨hp,rfl⟩ := wake_phase he
    have hnone : ∀ u, c.asleep u = none := fun u => by
      cases hu : c.asleep u with
      | none => rfl
      | some b => exact absurd hu (hn u)
    exact hi.same rfl (update_same _ (by simp [hp,Phase.owns])) (test_update (by simp))
      (fun v hv => absurd (hnone v) hv) fun ⟨v,hv⟩ => absurd (hnone v) hv
  | @spurious t a ha =>
    have hret := hi.parked t (by simp [ha])
    refine hi.same rfl (fun _ => rfl) (fun _ _ h => h) (fun v hv => ?_)
      fun _ => .inr ⟨t,by simp,.inl (by simp [hret,Phase.slow])⟩
    have hvt : v ≠ t := by rintro rfl; simp at hv
    exact hi.parked v (by simpa [hvt] using hv)

variable [Fintype T]

/-- The gate on its own, used in brackets by the threads of `T`. -/
def gateSystem (T : Type) [DecidableEq T] [Fintype T] : System (GateConf T) (Label T) :=
  machine next 0 .out

theorem reachable_inv {c : GateConf T} (hr : (gateSystem T).Reachable c) : Inv c :=
  machine_invariant hr inv_start fun _ _ _ hi hs => inv_step hi hs

omit [Fintype T] in
/-- How a step changes the phase of any thread: a step on the word, or the sleep or wake of a
thread that does not own the gate. -/
theorem step_phase {c c' : GateConf T} (hi : Inv c) (h : Step next c c') (u : T) :
    c'.pc u = c.pc u ∨ Move c.mem (c.pc u) c'.mem (c'.pc u) ∨
      (c.pc u).owns = false ∧ c'.pc u ≠ .inside := by
  have hmove : ∀ (t : T) (q : Phase), u ≠ t → Function.update c.pc t q u = c.pc u :=
    fun t q hut => Function.update_of_ne hut _ _
  cases h with
  | @go t m q ha he =>
    by_cases hut : u = t
    · subst hut
      exact .inr (.inl (by simpa using go_move (hi.tested u) he))
    · exact .inl (hmove t q hut)
  | @sleep t a q ha he =>
    obtain ⟨-,hp,rfl⟩ := sleep_phase he
    by_cases hut : u = t
    · subst hut
      exact .inr (.inr ⟨by rw [hp]; rfl,by simp⟩)
    · exact .inl (hmove t _ hut)
  | @wakeOne t v a q ha he hv =>
    obtain ⟨hp,rfl⟩ := wake_phase he
    by_cases hut : u = t
    · subst hut
      exact .inr (.inr ⟨by rw [hp]; rfl,by simp⟩)
    · exact .inl (hmove t _ hut)
  | @wakeNone t a q ha he hn =>
    obtain ⟨hp,rfl⟩ := wake_phase he
    by_cases hut : u = t
    · subst hut
      exact .inr (.inr ⟨by rw [hp]; rfl,by simp⟩)
    · exact .inl (hmove t _ hut)
  | spurious ha => exact .inl rfl

theorem Move.keeps {g g' : ℤ} {p q : Phase} (hm : Move g p g' q) (hp : p.owns) :
    q.owns ∨ g' = 0 := by
  cases hm with
  | quiet ho => exact .inl (ho ▸ hp)
  | acquire h0 h1 hq => exact .inl (by rw [hq]; rfl)
  | mark h hs => simp [Phase.owns_of_slow hs] at hp
  | release => exact .inr rfl
  | contended => exact .inl rfl
  | clear => exact .inr rfl

/-- From the slow loop the gate is entered with the value 2. -/
theorem Move.contends {g g' : ℤ} {p q : Phase} (hm : Move g p g' q) (hp : p.slow)
    (hq : q = .inside) : g' = 2 := by
  cases hm with
  | quiet ho =>
    rw [hq,Phase.owns_of_slow hp] at ho
    cases ho
  | acquire h0 h1 hq' hw hs => exact hs hp
  | mark => rfl
  | release | contended | clear => cases hq

omit [Fintype T] in
theorem step_owns {c c' : GateConf T} (hi : Inv c) (h : Step next c c') {t : T}
    (ht : (c.pc t).owns) : (c'.pc t).owns ∨ c'.mem = 0 := by
  rcases step_phase hi h t with he | hm | ⟨ho,-⟩
  · exact .inl (he ▸ ht)
  · exact hm.keeps ht
  · simp [ho] at ht

omit [Fintype T] in
/-- While the gate is owned nobody else gets inside, not even by the step that opens it. -/
theorem step_excludes {c c' : GateConf T} (hi : Inv c) (h : Step next c c') {t u : T}
    (ht : (c.pc t).owns) (hut : u ≠ t) : c'.pc u ≠ .inside := by
  intro hin
  rcases step_phase hi h u with he | hm | ⟨-,hq⟩
  · exact hut (hi.unique u t (by rw [← he,hin]; rfl) ht)
  · rcases hm.owns (by rw [hin]; rfl) with ho | h0
    · exact hut (hi.unique u t ho ht)
    · simp [hi.free h0 t] at ht
  · exact hq hin

omit [Fintype T] in
theorem step_contends {c c' : GateConf T} (hi : Inv c) (h : Step next c c') {u : T}
    (hu : (c.pc u).slow) (hin : c'.pc u = .inside) : c'.mem = 2 := by
  rcases step_phase hi h u with he | hm | ⟨-,hq⟩
  · rw [← he,hin] at hu
    cases hu
  · exact hm.contends hu hin
  · exact absurd hin hq

/-- What holds of the gate in every state: `leaving .sub` is about to sample the word. -/
structure Mutex (c : GateConf T) : Prop where
  word : c.mem = 0 ∨ c.mem = 1 ∨ c.mem = 2
  exclusive : ∀ t u, (c.pc t).owns → (c.pc u).owns → t = u
  sampled : ∀ t, c.pc t = .leaving .sub → c.mem = 1 ∨ c.mem = 2
  parked : (∃ t, c.asleep t ≠ none) → c.mem = 2 ∨
    (∃ u, c.asleep u = none ∧ (c.pc u).owesWake) ∨ ∃ u, c.asleep u = none ∧ (c.pc u).slow

omit [DecidableEq T] [Fintype T] in
theorem Inv.mutex {c : GateConf T} (hi : Inv c) : Mutex c where
  word := hi.word
  exclusive := hi.unique
  sampled t ht := by
    have hw := hi.word
    have h0 : c.mem ≠ 0 := fun h0 => by simpa [ht,Phase.owns] using hi.free h0 t
    omega
  parked hp := by
    rcases hi.covered hp with h2 | ⟨u,hu,hs | hw⟩
    · exact .inl h2
    · exact .inr (.inr ⟨u,hu,hs⟩)
    · exact .inr (.inl ⟨u,hu,hw⟩)

/-- The gate is a mutex: an owner keeps it until it takes the word to 0, no step until then lets
another thread in, and whoever comes out of the slow loop leaves the value 2. -/
theorem gate_mutex {c : GateConf T} (hr : (gateSystem T).Reachable c) :
    Mutex c ∧ ∀ b c', (gateSystem T).fire c b = some c' →
      (∀ t, (c.pc t).owns → ((c'.pc t).owns ∨ c'.mem = 0) ∧ ∀ u, u ≠ t → c'.pc u ≠ .inside) ∧
      ∀ u, (c.pc u).slow → c'.pc u = .inside → c'.mem = 2 := by
  have hi := reachable_inv hr
  refine ⟨hi.mutex,fun b c' hf => ?_⟩
  have hs : Step next c c' := fire_step hf
  refine ⟨fun t ht => ⟨step_owns hi hs ht,fun u hut => step_excludes hi hs ht hut⟩,?_⟩
  exact fun u hu hin => step_contends hi hs hu hin

/-- Thread 1 sleeps on the gate; thread 0 has subtracted 1 from 2 and not yet stored 0. -/
def windowSchedule : List (Label Party) :=
  [.run 0 1 none,.run 0 0 none,.run 1 1 none,.run 1 0 none,.run 1 0 none,.run 1 0 none,
    .run 0 1 none,.run 0 0 none]

def windowConf : GateConf Party := ((gateSystem Party).exec (start 0 .out) windowSchedule).getD
  (start 0 .out)

example : (windowConf.mem,windowConf.pc 0,windowConf.asleep 1) =
    (1,.leaving .store,some ()) := by decide

theorem windowConf_reachable : (gateSystem Party).Reachable windowConf :=
  System.Reachable.execD windowSchedule (.init rfl)

theorem gate_mutex_windowConf :
    Mutex windowConf ∧ ∀ b c', (gateSystem Party).fire windowConf b = some c' →
      (∀ t, (windowConf.pc t).owns →
        ((c'.pc t).owns ∨ c'.mem = 0) ∧ ∀ u, u ≠ t → c'.pc u ≠ .inside) ∧
      ∀ u, (windowConf.pc u).slow → c'.pc u = .inside → c'.mem = 2 :=
  gate_mutex windowConf_reachable

end Gate
end Benedias
