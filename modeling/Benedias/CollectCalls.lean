import Benedias.NonBlocking

/-! A call of `Collect` as its caller sees it: when it is over and what it returns, and that only
its lock is ever waited for. -/
namespace Benedias
namespace SharedList

open Interleaving HazardPointerList

variable {T L : Type}

/-- In `Collect`, before its result is known. -/
def Pc.busy : Pc L → Bool
  | .colUnlock _ => false
  | .failed | .notFound => true
  | p => p.collecting

/-- At the first test of `Collect`, or before its lock. -/
def Pc.waits : Pc L → Bool
  | .colTest | .colLock => true
  | _ => false

/-- The result of `Collect`, when the next step decides it. -/
def Pc.returns (m : HazardPointerList) : Pc L → Option Bool
  | .colTest => if m.gcList = m.endNode then some false else none
  | .colDone => some (m.gcList = m.endNode)
  | _ => none

/-- Only a thread inside of `Collect` has `collector_client_lock`; one whose assertion fails keeps
it. -/
def Locked (c : Conf T L) : Prop :=
  ∀ t, c.lock = some t → (c.pc t).critical ∨ c.pc t = .failed ∨ c.pc t = .notFound

section Collect

variable {c : Conf T L} {p p' : Pc L} {w : Write} {n : ℕ}

theorem busy_check {b : Bool} (h : p.busy) : (check b p).busy := by
  cases b with
  | false => rfl
  | true => exact h

theorem busy_scanFrom {m : HazardPointerList} : (scanFrom m n : Pc L).busy := by
  simp only [scanFrom]
  split <;> rfl

theorem busy_gcFrom {m : HazardPointerList} : (gcFrom m n : Pc L).busy := by
  simp only [gcFrom]
  split
  · rfl
  · split <;> rfl

theorem busy_pushAfter {m : HazardPointerList} {f : PushFor} (hf : f.collects) :
    (f.after m n : Pc L).busy := by
  cases f with
  | collect nx => exact busy_gcFrom
  | _ => cases hf

theorem busy_next (h : p.next c = some (w,p')) (hp : p.busy) (hr : p.returns c.mem = none) :
    p'.busy := by
  cases p with
  | pushCas m head f =>
    simp only [Pc.next] at h
    split at h <;> cases h
    · exact busy_pushAfter hp
    · exact hp
  | colTest =>
    simp only [Pc.returns] at hr
    split at hr
    · cases hr
    next hg =>
      simp only [Pc.next,if_neg hg] at h
      cases h
      rfl
  | colLock =>
    simp only [Pc.next] at h
    split at h <;> cases h
    rfl
  | scanHead | scanLink =>
    cases h
    exact busy_scanFrom
  | gcHead =>
    cases h
    exact busy_gcFrom
  | gcPointer g nx obj =>
    cases h
    refine busy_check ?_
    split
    · exact busy_gcFrom
    · rfl
  | remCas g nx r e d =>
    simp only [Pc.next] at h
    split at h <;> cases h <;> rfl
  | gcObj | gcEnd =>
    cases h
    exact busy_check rfl
  | pushCheck =>
    cases h
    exact busy_check hp
  | pushLoad | pushStore | pushFailed =>
    cases h
    exact hp
  | scanTest | remTest | remEnd | remExit =>
    cases h
    split <;> rfl
  | colDone => cases hr
  | scanPush | sort | gcNext | gcStore | gcDelete | remNext | remExpected | remDesired | remClear
  | colClear =>
    cases h
    rfl
  | failed | notFound => cases h
  | _ => cases hp

theorem waits_check {b : Bool} (h : p.waits = false) : (check b p).waits = false := by
  cases b with
  | false => rfl
  | true => exact h

theorem waits_scanFrom {m : HazardPointerList} : (scanFrom m n : Pc L).waits = false := by
  simp only [scanFrom]
  split <;> rfl

theorem waits_gcFrom {m : HazardPointerList} : (gcFrom m n : Pc L).waits = false := by
  simp only [gcFrom]
  split
  · rfl
  · split <;> rfl

theorem waits_pushAfter {m : HazardPointerList} {f : PushFor} :
    (f.after m n : Pc L).waits = false := by
  cases f with
  | release | delete => rfl
  | prime k => cases k <;> rfl
  | collect nx => exact waits_gcFrom

/-- `Collect` waits for its lock after its first test only. -/
theorem next_waits (h : p.next c = some (w,p')) :
    p'.waits = false ∨ p = .colTest ∧ p' = .colLock := by
  cases p with
  | colTest =>
    cases h
    split
    · exact .inl rfl
    · exact .inr ⟨rfl,rfl⟩
  | scanHead | scanLink =>
    cases h
    exact .inl waits_scanFrom
  | gcHead =>
    cases h
    exact .inl waits_gcFrom
  | gcPointer g nx obj =>
    cases h
    refine .inl (waits_check ?_)
    split
    · exact waits_gcFrom
    · rfl
  | pushCas m head f =>
    simp only [Pc.next] at h
    split at h <;> cases h
    · exact .inl waits_pushAfter
    · exact .inl rfl
  | addCas m f =>
    simp only [Pc.next] at h
    split at h <;> cases h
    · cases f <;> exact .inl rfl
    · exact .inl rfl
  | popCas m d =>
    simp only [Pc.next] at h
    split at h <;> cases h
    · split <;> exact .inl rfl
    · exact .inl rfl
  | relTest | delTest | remCas | colLock =>
    simp only [Pc.next] at h
    split at h <;> cases h <;> exact .inl rfl
  | acqTest | scanTest | remTest | remEnd | remExit =>
    cases h
    split <;> exact .inl rfl
  | pushCheck | acqNext | acqGc | clrGc | relGc | relNext | relPointer | delGc | delNext | delPointer
  | delGcPointer | delLast | gcObj | gcEnd =>
    cases h
    exact .inl (waits_check rfl)
  | idle | failed | notFound => cases h
  | _ =>
    cases h
    exact .inl rfl

theorem next_ne_colTest (h : p.next c = some (w,p')) : p' ≠ .colTest := by
  rintro rfl
  rcases next_waits h with h | ⟨-,h⟩ <;> cases h

theorem returns_next {b : Bool} (h : p.next c = some (w,p')) (hr : p.returns c.mem = some b) :
    w = .none ∧ (p' = .idle ∨ ∃ b, p' = .colUnlock b) := by
  cases p with
  | colTest =>
    simp only [Pc.returns] at hr
    split at hr
    · next hg =>
      simp only [Pc.next,if_pos hg] at h
      cases h
      exact ⟨rfl,.inl rfl⟩
    · cases hr
  | colDone =>
    cases h
    exact ⟨rfl,.inr ⟨_,rfl⟩⟩
  | _ => cases hr

theorem collecting_of_critical (hp : p.critical) : p.collecting = true := by
  cases p <;> first | exact hp | rfl

theorem busy_of_collecting (hp : p.collecting) : (∃ b, p = .colUnlock b) ∨ p.busy := by
  cases p with
  | colUnlock b => exact .inl ⟨b,rfl⟩
  | _ => first | exact .inr hp | cases hp

theorem critical_of_busy (hp : p.busy) (hw : p.waits = false) :
    p.critical ∨ p = .failed ∨ p = .notFound := by
  cases p with
  | failed => exact .inr (.inl rfl)
  | notFound => exact .inr (.inr rfl)
  | colTest | colLock => cases hw
  | _ => first | exact .inl hp | cases hp

/-- Inside of `Collect` a thread keeps the lock until it gives it back. -/
theorem critical_next (h : p.next c = some (w,p')) (hp : p.critical) :
    w = .unlock ∨ p'.critical ∨ p' = .failed ∨ p' = .notFound := by
  rcases busy_of_collecting (collecting_of_critical hp) with ⟨b,rfl⟩ | hb
  · cases h
    exact .inl rfl
  · right
    cases hr : p.returns c.mem with
    | some ok =>
      cases p with
      | colDone =>
        cases h
        exact .inl rfl
      | colTest => cases hp
      | _ => cases hr
    | none =>
      refine critical_of_busy (busy_next h hb hr) ((next_waits h).resolve_right ?_)
      rintro ⟨rfl,-⟩
      cases hp

/-- Inside of `Collect` a thread can go on, but for the lock. -/
theorem busy_isSome (hp : p.busy) :
    p = .failed ∨ p = .notFound ∨ p = .colLock ∧ c.lock ≠ none ∨ (p.next c).isSome := by
  cases p with
  | failed => exact .inl rfl
  | notFound => exact .inr (.inl rfl)
  | colLock =>
    refine .inr (.inr ?_)
    cases hl : c.lock with
    | none => exact .inr (by simp [Pc.next,hl])
    | some t => exact .inl ⟨rfl,by simp⟩
  | pushCas | remCas =>
    refine .inr (.inr (.inr ?_))
    simp only [Pc.next]
    split <;> rfl
  | _ => first | exact .inr (.inr (.inr rfl)) | cases hp

end Collect

variable [DecidableEq T] [DecidableEq L] {c c' : Conf T L}

omit [DecidableEq L] in
theorem Locked.setPc {d : Conf T L} {t : T} {p : Pc L} (hl : Locked c) (hd : d.lock = c.lock)
    (hpc : d.pc = c.pc) (ht : c.pc t = .idle) : Locked (d.setPc t p) := by
  intro u h
  have hu : c.lock = some u := hd.symm.trans h
  have hut : u ≠ t := by
    rintro rfl
    have h := hl u hu
    rw [ht] at h
    rcases h with h | h | h <;> cases h
  simpa [Conf.setPc,hut,hpc] using hl u hu

theorem Locked.fire {a : Label T L} (hl : Locked c) (h : fire c a = some c') : Locked c' := by
  cases a with
  | step t =>
    simp only [SharedList.fire,Option.map_eq_some_iff] at h
    obtain ⟨⟨w,p⟩,hn,rfl⟩ := h
    intro u hu
    have hu : (c.write t w).lock = some u := hu
    rcases lock_write (c:=c) (t:=t) (w:=w) with he | rfl | rfl
    · have hold := hl u (he.symm.trans hu)
      by_cases hut : u = t
      · subst hut
        have hpc : ((c.write u w).setPc u p).pc u = p := by simp [Conf.setPc]
        rw [hpc]
        rcases hold with hold | hold | hold
        · rcases critical_next hn hold with rfl | h
          · cases hu
          · exact h
        all_goals
          rw [hold] at hn
          cases hn
      · simpa [Conf.setPc,hut] using hold
    · obtain rfl : t = u := Option.some.inj hu
      left
      generalize c.pc t = q at hn
      cases next_writes hn with
      | lock => simp [Conf.setPc,Pc.critical]
    · cases hu
  | store l obj =>
    cases h
    exact hl
  | acquire t n l | validate t n l | clear t n | release t n drop | delete t n drop =>
    simp only [SharedList.fire,Conf.call] at h
    split at h <;> cases h
    next hn => exact hl.setPc rfl rfl hn.1
  | acquireNode t | prime t k | collect t =>
    simp only [SharedList.fire] at h
    split at h <;> cases h
    next ht => exact hl.setPc rfl rfl ht

theorem reachable_locked {P : Conf T L → Label T L → Prop} (hr : (system T L).ReachableVia P c) :
    Locked c := by
  refine hr.invariant (I:=Locked) (fun s hs => ?_) fun _ _ _ _ hi _ hf => hi.fire hf
  obtain rfl : s = start := hs
  exact fun _ h => by cases h

end SharedList
end Benedias
