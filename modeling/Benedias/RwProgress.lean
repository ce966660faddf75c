import Benedias.RwExclusion

/-! No lost wakeup and no deadlock on `futex_rw_control`: whenever a thread sleeps on one of
the two words, some other thread inside a call or a section is awake and can go on. -/
namespace Benedias
namespace RwControl

open Interleaving FutexMachine Gate

theorem next_ne_nil {n : ℕ} (w : IntWord n) {l : Thread} (h : l ≠ .aborted) (m : Mem) :
    next w l m ≠ [] := by
  rcases l with _ | _ | _ | ⟨k,pc⟩ | _ | ⟨k,pc⟩ | ⟨_ | _⟩ | k | _ | _ | k | ⟨k,v⟩ | k | _ | _
  case aborted => exact absurd rfl h
  all_goals simp [next]

variable {T : Type} [DecidableEq T] [Fintype T] {w : IntWord (Fintype.card T)}

theorem sleeper_pc {c : RwConf T} (hr : (rwSystem w).Reachable c) {t : T} :
    (c.asleep t = some .gate → ∃ k, c.pc t = .enter k .retry) ∧
      (c.asleep t = some .nreaders → ∃ k, c.pc t = .drainLoad k) := by
  refine ⟨fun h => ?_,(reachable_inv hr).parked t⟩
  have hp := (gate_inv hr).parked t (by
    change (c.asleep t).bind Word.asGate ≠ none
    simp [h,Word.asGate])
  change (c.pc t).phase = .entering .retry at hp
  rcases hl : c.pc t with _ | _ | _ | ⟨k,pc⟩ | _ | ⟨k,pc⟩ | k | ⟨_ | _⟩ | _ | _ | k | ⟨k,v⟩ | k | _ | _ <;>
    simp_all [Thread.phase]

theorem awake_of_counted {c : RwConf T} (hr : (rwSystem w).Reachable c) {t : T}
    (h : (c.pc t).counted) : c.asleep t = none := by
  obtain ⟨hgate,hreaders⟩ := sleeper_pc hr (t:=t)
  cases ha : c.asleep t with
  | none => rfl
  | some a =>
    cases a with
    | gate => obtain ⟨k,hk⟩ := hgate ha; simp [hk,Thread.counted] at h
    | nreaders => obtain ⟨k,hk⟩ := hreaders ha; simp [hk,Thread.counted] at h

/-- While a writer sleeps on `nreaders`, a reader is in force or a wake is on its way. -/
theorem draining_progress {c : RwConf T} (hr : (rwSystem w).Reachable c) {t : T}
    (ht : c.asleep t = some .nreaders) : ∃ u, c.asleep u = none ∧ c.pc u ≠ .outside := by
  have hi := reachable_inv hr
  obtain ⟨k,hk⟩ := hi.parked t ht
  rcases hi.covered t ht with h0 | ⟨u,hu,k',hk'⟩
  · have hw := one_le_writers (c:=c) (t:=t) (by rw [hk]; rfl)
    have hcount := hi.nreaders_eq
    obtain ⟨u,hu⟩ := exists_counted (c:=c) (by omega)
    exact ⟨u,awake_of_counted hr hu,by intro ho; simp [ho,Thread.counted] at hu⟩
  · exact ⟨u,hu,by simp [hk']⟩

/-- While a thread sleeps on the gate, its owner is awake or drains readers, or somebody will
wake the gate. -/
theorem gate_progress {c : RwConf T} (hr : (rwSystem w).Reachable c) {t : T}
    (ht : c.asleep t = some .gate) : ∃ u, c.asleep u = none ∧ c.pc u ≠ .outside := by
  have hg := gate_inv hr
  have hcov := hg.covered ⟨t,by
    change (c.asleep t).bind Word.asGate ≠ none
    simp [ht,Word.asGate]⟩
  have active {u : T} (h : c.asleep u ≠ some .gate)
      (hu : (c.pc u).phase ≠ .out) : ∃ u, c.asleep u = none ∧ c.pc u ≠ .outside := by
    cases ha : c.asleep u with
    | none => exact ⟨u,ha,by intro ho; simp [ho,Thread.phase] at hu⟩
    | some a =>
      cases a with
      | gate => exact absurd ha h
      | nreaders => exact draining_progress hr ha
  rcases hcov with h2 | ⟨u,hu,hrouse⟩
  · obtain ⟨u,hu⟩ := hg.held (by omega)
    change (c.pc u).phase.owns at hu
    refine active (u:=u) (fun ha => ?_) fun ho => by simp [ho,Phase.owns] at hu
    obtain ⟨k,hk⟩ := (sleeper_pc hr).1 ha
    simp [hk,Thread.phase,Phase.owns] at hu
  · change (c.asleep u).bind Word.asGate = none at hu
    change (c.pc u).phase.slow ∨ (c.pc u).phase.owesWake at hrouse
    refine active (u:=u) (fun ha => by simp [ha,Word.asGate] at hu) fun ho => ?_
    simp [ho,Phase.slow,Phase.owesWake] at hrouse

/-- Whenever a thread is parked, another one inside a call or a section is awake and has a
step that is no spurious wakeup. -/
theorem no_deadlock (w : IntWord (Fintype.card T)) {c : RwConf T}
    (hr : (rwSystem w).Reachable c) {t : T} (ht : c.asleep t ≠ none) :
    ∃ u, u ≠ t ∧ c.asleep u = none ∧ c.pc u ≠ .outside ∧
      ∃ woken c', (rwSystem w).fire c (.run u 0 woken) = some c' := by
  obtain ⟨u,hu,hout⟩ : ∃ u, c.asleep u = none ∧ c.pc u ≠ .outside := by
    cases ha : c.asleep t with
    | none => exact absurd ha ht
    | some a =>
      cases a with
      | gate => exact gate_progress hr ha
      | nreaders => exact draining_progress hr ha
  refine ⟨u,by rintro rfl; exact ht hu,hu,hout,?_⟩
  exact awake_fires hu (next_ne_nil w ((reachable_inv hr).alive u) c.mem)

theorem no_deadlock_writerConf : writerConf.asleep 1 = some .gate ∧
    ∃ u, u ≠ 1 ∧ writerConf.asleep u = none ∧ writerConf.pc u ≠ .outside ∧
      ∃ woken c', (rwSystem partyWord).fire writerConf (.run u 0 woken) = some c' :=
  ⟨by decide,no_deadlock partyWord writerConf_reachable (by decide)⟩

end RwControl
end Benedias
