import Benedias.RwControl
import Mathlib.Tactic.Linarith

/-! The reader count of `futex_rw_control` over all interleavings: `nreaders` is the number
of read counts in force, less one for an announced writer, and a writer that has drained the
readers runs beside none. -/
namespace Benedias
namespace RwControl

open Interleaving FutexMachine Gate

/-- The read count of the thread is in force. -/
def Thread.counted : Thread → Bool
  | .reading | .leave .readLock _ | .drop _ | .tryEnter | .dropOwn => true
  | _ => false

/-- A writer that has done its final decrement and has not yet stored 0. -/
def Thread.announced : Thread → Bool
  | .drainWait _ _ | .drainLoad _ | .writing _ | .clearReaders => true
  | _ => false

/-- A writer that has seen the count negative and has not yet stored 0. -/
def Thread.drained : Thread → Bool
  | .writing _ | .clearReaders => true
  | _ => false

def Thread.reader (l : Thread) : ℤ := if l.counted then 1 else 0
def Thread.writer (l : Thread) : ℤ := if l.announced then 1 else 0

/-- What the thread contributes to `nreaders`. -/
def Thread.weight (l : Thread) : ℤ := l.reader - l.writer

theorem Thread.reader_nonneg (l : Thread) : 0 ≤ l.reader := by unfold Thread.reader; split <;> simp
theorem Thread.reader_le_one (l : Thread) : l.reader ≤ 1 := by unfold Thread.reader; split <;> simp
theorem Thread.writer_nonneg (l : Thread) : 0 ≤ l.writer := by unfold Thread.writer; split <;> simp
theorem Thread.writer_le_one (l : Thread) : l.writer ≤ 1 := by unfold Thread.writer; split <;> simp

/-- A writer announces itself only behind the gate. -/
theorem Thread.owns_of_announced {l : Thread} (h : l.announced) : l.phase.owns := by
  cases l <;> simp_all [Thread.announced,Thread.phase,Phase.owns]

theorem Thread.announced_of_drained {l : Thread} (h : l.drained) : l.announced := by
  cases l <;> simp_all [Thread.announced,Thread.drained]

section Counts

variable {T : Type} [Fintype T]

/-- The number of read counts in force. -/
def readers (c : RwConf T) : ℤ := total Thread.reader c.pc

def writers (c : RwConf T) : ℤ := total Thread.writer c.pc

theorem weight_total (c : RwConf T) : total Thread.weight c.pc = readers c - writers c :=
  total_sub _ _ _

theorem writers_nonneg (c : RwConf T) : 0 ≤ writers c := total_nonneg Thread.writer_nonneg c.pc

theorem readers_nonneg (c : RwConf T) : 0 ≤ readers c := total_nonneg Thread.reader_nonneg c.pc

theorem readers_le_card (c : RwConf T) : readers c ≤ Fintype.card T :=
  total_le_card Thread.reader_le_one c.pc

theorem one_le_readers {c : RwConf T} {t : T} (h : (c.pc t).counted) : 1 ≤ readers c := by
  have h1 := le_total Thread.reader_nonneg c.pc t
  simp only [Thread.reader,h,if_true] at h1
  exact h1

theorem one_le_writers {c : RwConf T} {t : T} (h : (c.pc t).announced) : 1 ≤ writers c := by
  have h1 := le_total Thread.writer_nonneg c.pc t
  simp only [Thread.writer,h,if_true] at h1
  exact h1

theorem exists_counted {c : RwConf T} (h : 0 < readers c) : ∃ t, (c.pc t).counted := by
  obtain ⟨t,ht⟩ := exists_of_total_pos h
  refine ⟨t,?_⟩
  by_contra hn
  simp [Thread.reader,hn] at ht

/-- Some awake thread has brought the count below zero and will wake the writer. -/
def WakePending (c : RwConf T) : Prop :=
  ∃ t, c.asleep t = none ∧ ∃ k, c.pc t = .wakeWriter k

structure Inv (c : RwConf T) : Prop where
  count : c.mem.nreaders = total Thread.weight c.pc
  alone : ∀ t, (c.pc t).drained → readers c = 0
  waiting : ∀ t k v, c.pc t = .drainWait k v → 0 ≤ v
  parked : ∀ t, c.asleep t = some .nreaders → ∃ k, c.pc t = .drainLoad k
  covered : ∀ t, c.asleep t = some .nreaders → 0 ≤ c.mem.nreaders ∨ WakePending c
  alive : ∀ t, c.pc t ≠ .aborted

theorem Inv.nreaders_eq {c : RwConf T} (hi : Inv c) : c.mem.nreaders = readers c - writers c :=
  hi.count.trans (weight_total c)

theorem inv_start : Inv (start ⟨0,0⟩ .outside : RwConf T) where
  count := by simp [start,total,Thread.weight,Thread.reader,Thread.writer,Thread.counted,
    Thread.announced]
  alone := fun _ h => by simp [start,Thread.drained] at h
  waiting := fun _ _ _ h => by simp [start] at h
  parked := fun _ h => by simp [start] at h
  covered := fun _ h => by simp [start] at h
  alive := fun _ => by simp [start]

/-- A step that keeps `nreaders` and everybody's share in it. -/
theorem Inv.same {c c' : RwConf T} (hi : Inv c) (hm : c'.mem = c.mem)
    (hc : ∀ u, (c'.pc u).counted = (c.pc u).counted)
    (ha : ∀ u, (c'.pc u).announced = (c.pc u).announced)
    (hd : ∀ u, (c'.pc u).drained → (c.pc u).drained)
    (hv : ∀ u k v, c'.pc u = .drainWait k v → c.pc u = .drainWait k v)
    (hp : ∀ u, c'.asleep u = some .nreaders → ∃ k, c'.pc u = .drainLoad k)
    (hw : ∀ u, c'.asleep u = some .nreaders → 0 ≤ c'.mem.nreaders ∨ WakePending c')
    (hq : ∀ u, c'.pc u ≠ .aborted) : Inv c' where
  count := by
    rw [hm,hi.count]
    exact Finset.sum_congr rfl fun u _ => by simp [Thread.weight,Thread.reader,Thread.writer,hc,ha]
  alone := fun u hu => by
    rw [← hi.alone u (hd u hu)]
    exact Finset.sum_congr rfl fun u _ => by simp [Thread.reader,hc]
  waiting := fun u k v hu => hi.waiting u k v (hv u k v hu)
  parked := hp
  covered := hw
  alive := hq

end Counts

variable {T : Type} [DecidableEq T] [Fintype T] {w : IntWord (Fintype.card T)}

theorem gate_inv {c : RwConf T} (hr : (rwSystem w).Reachable c) : Gate.Inv ((gateView w).abs c) :=
  Gate.reachable_inv ((gateView w).reachable hr)

/-- At most one thread owns the gate. -/
theorem owner_unique {c : RwConf T} (hr : (rwSystem w).Reachable c) {t u : T}
    (ht : (c.pc t).phase.owns) (hu : (c.pc u).phase.owns) : t = u :=
  (gate_inv hr).unique t u ht hu

theorem writers_le_one {c : RwConf T} (hr : (rwSystem w).Reachable c) : writers c ≤ 1 := by
  refine total_le_one Thread.writer_le_one fun t u ht hu => owner_unique hr ?_ ?_
  all_goals
    apply Thread.owns_of_announced
    by_contra hn
    simp_all [Thread.writer]

/-- Every count that a reachable configuration stands for is stored exactly. -/
theorem store_weight {c : RwConf T} (hr : (rwSystem w).Reachable c) :
    w.store (total Thread.weight c.pc) = total Thread.weight c.pc := by
  have h1 := writers_le_one hr
  have h2 := writers_nonneg c
  have h3 := readers_nonneg c
  have h4 := readers_le_card c
  rw [weight_total]
  exact w.exact _ (by omega) (by omega)

/-- What one `go` step does to `nreaders` and to the thread, one case for each of the
instructions of the source that touch the count. -/
inductive Move {n : ℕ} (w : IntWord n) (r : ℤ) : Thread → ℤ → Thread → Prop
  | quiet {p q : Thread} (hc : q.counted = p.counted) (ha : q.announced = p.announced)
      (hd : q.drained → p.drained ∨ p.announced ∧ r < 0) (hv : ∀ k v, q = .drainWait k v → 0 ≤ v)
      (hw : ∀ k, p ≠ .wakeWriter k) (hq : q ≠ .aborted) : Move w r p r q
  | add : Move w r .addReader (w.store (r+1)) (.leave .readLock .sub)
  | drop (k : Dropper) (h : 0 ≤ w.store (r-1)) : Move w r (.drop k) (w.store (r-1)) k.dropped
  | dropLast (k : Dropper) (h : w.store (r-1) < 0) :
      Move w r (.drop k) (w.store (r-1)) (.wakeWriter k)
  | fail (h : w.store (r-1) < 0) (h1 : w.store (r-1) ≠ -1) :
      Move w r (.drop .readUnlock) (w.store (r-1)) .aborted
  | dropOwn : Move w r .dropOwn (w.store (r-1)) (.announce .tryWriteModify)
  | announceWait (k : Writer) (h : 0 ≤ w.store (r-1)) :
      Move w r (.announce k) (w.store (r-1)) (.drainWait k (w.store (r-1)))
  | announceDone (k : Writer) (h : w.store (r-1) < 0) :
      Move w r (.announce k) (w.store (r-1)) (.writing k)
  | clear : Move w r .clearReaders 0 (.leave .writeUnlock .sub)

theorem go_move {n : ℕ} {w : IntWord n} {m m' : Mem} {p q : Thread} (h : .go m' q ∈ next w p m) :
    Move w m.nreaders p m'.nreaders q := by
  rcases p with _ | _ | _ | ⟨k,pc⟩ | _ | ⟨k,pc⟩ | k | k | _ | _ | k | ⟨k,v⟩ | k | _ | _
  case enter =>
    simp only [next,List.mem_singleton] at h
    cases k <;> rcases pc with _ | e | _ | _ <;> simp only [enterGate,futexWait] at h <;>
      (repeat' split at h) <;> simp only [Effect.map,Effect.go.injEq,reduceCtorEq] at h <;>
      obtain ⟨rfl,rfl⟩ := h <;> exact .quiet rfl rfl (by simp [Thread.drained,Entry.goOn,Entry.entered])
        (by simp [Entry.goOn,Entry.entered]) (by simp) (by simp [Entry.goOn,Entry.entered])
  case leave =>
    simp only [next,List.mem_singleton] at h
    cases k <;> cases pc <;> simp only [leaveGate] at h <;>
      simp only [Effect.map,Effect.go.injEq,reduceCtorEq] at h <;>
      obtain ⟨rfl,rfl⟩ := h <;> (try split) <;>
      exact .quiet rfl rfl (by simp [Thread.drained,Leaver.goOn,Leaver.left])
        (by simp [Leaver.goOn,Leaver.left]) (by simp) (by simp [Leaver.goOn,Leaver.left])
  case drop =>
    cases k <;> simp only [next,List.mem_singleton,subFetch,Effect.go.injEq] at h <;>
      obtain ⟨rfl,rfl⟩ := h
    · split
      · split
        · exact .dropLast _ ‹_›
        · exact .fail ‹_› ‹_›
      · exact .drop _ (by omega)
    · split
      · exact .dropLast _ ‹_›
      · exact .drop _ (by omega)
  case announce =>
    simp only [next,List.mem_singleton,subFetch,Effect.go.injEq] at h
    obtain ⟨rfl,rfl⟩ := h
    split
    · exact .announceWait _ ‹_›
    · exact .announceDone _ (by omega)
  case drainLoad =>
    simp only [next,List.mem_singleton,Effect.go.injEq] at h
    obtain ⟨rfl,rfl⟩ := h
    split
    · exact .quiet rfl rfl (by simp [Thread.drained])
        (fun _ _ he => by obtain ⟨-,rfl⟩ := Thread.drainWait.inj he; assumption) (by simp) (by simp)
    · exact .quiet rfl rfl (fun _ => .inr ⟨rfl,by omega⟩) (by simp) (by simp) (by simp)
  case tryEnter =>
    simp only [next,tryEnterGate,List.mem_singleton,Effect.go.injEq] at h
    obtain ⟨rfl,rfl⟩ := h
    split <;> exact .quiet rfl rfl (by simp [Thread.drained]) (by simp) (by simp) (by simp)
  case drainWait =>
    simp only [next,List.mem_singleton,futexWait] at h
    split at h
    · cases h
    · obtain ⟨rfl,rfl⟩ := Effect.go.inj h
      exact .quiet rfl rfl (by simp [Thread.drained]) (by simp) (by simp) (by simp)
  case addReader =>
    simp only [next,List.mem_singleton,Effect.go.injEq] at h
    obtain ⟨rfl,rfl⟩ := h
    exact .add
  case dropOwn =>
    simp only [next,List.mem_singleton,subFetch,Effect.go.injEq] at h
    obtain ⟨rfl,rfl⟩ := h
    exact .dropOwn
  case clearReaders =>
    simp only [next,List.mem_singleton,Effect.go.injEq] at h
    obtain ⟨rfl,rfl⟩ := h
    exact .clear
  case wakeWriter => simp [next] at h
  case aborted => simp [next] at h
  case outside =>
    simp only [next,List.mem_cons,Effect.go.injEq,List.not_mem_nil,or_false] at h
    rcases h with ⟨rfl,rfl⟩ | ⟨rfl,rfl⟩ <;>
      exact .quiet rfl rfl (by simp [Thread.drained,readLock,writeLock])
        (by simp [readLock,writeLock]) (by simp) (by simp [readLock,writeLock])
  case reading =>
    simp only [next,List.mem_cons,Effect.go.injEq,List.not_mem_nil,or_false] at h
    rcases h with ⟨rfl,rfl⟩ | ⟨rfl,rfl⟩ | ⟨rfl,rfl⟩ <;>
      exact .quiet rfl rfl (by simp [Thread.drained,readUnlock,tryWriteModify,writeModify])
        (by simp [readUnlock,tryWriteModify,writeModify]) (by simp)
        (by simp [readUnlock,tryWriteModify,writeModify])
  case writing =>
    simp only [next,List.mem_singleton,Effect.go.injEq] at h
    obtain ⟨rfl,rfl⟩ := h
    exact .quiet rfl rfl (fun _ => .inl rfl) (by simp [writeUnlock]) (by simp) (by simp [writeUnlock])

section Preservation

variable {c : RwConf T} {t : T} {q : Thread} {m : Mem}

/-- The configuration after thread `t` has gone on to `q` with memory `m`. -/
abbrev goConf (c : RwConf T) (t : T) (m : Mem) (q : Thread) : RwConf T :=
  ⟨m,Function.update c.pc t q,c.asleep⟩

theorem readers_go : readers (goConf c t m q) = readers c - (c.pc t).reader + q.reader :=
  total_update _ _ _ _

theorem writers_go : writers (goConf c t m q) = writers c - (c.pc t).writer + q.writer :=
  total_update _ _ _ _

/-- A writer at `clearReaders` has drained the readers, so it finds exactly -1. -/
theorem Inv.drained_count (hr : (rwSystem w).Reachable c) (hi : Inv c) (h : (c.pc t).drained) :
    c.mem.nreaders = -1 := by
  have h0 := hi.alone t h
  have h1 := one_le_writers (Thread.announced_of_drained h)
  have h2 := writers_le_one hr
  have h3 := hi.nreaders_eq
  omega

theorem Inv.count_go (hr : (rwSystem w).Reachable c) (hi : Inv c)
    (hr' : (rwSystem w).Reachable (goConf c t m q))
    (hm : Move w c.mem.nreaders (c.pc t) m.nreaders q) :
    m.nreaders = total Thread.weight (goConf c t m q).pc := by
  have hs := store_weight hr'
  have hu : total Thread.weight (goConf c t m q).pc =
      c.mem.nreaders - (c.pc t).weight + q.weight := by rw [hi.count]; exact total_update _ _ _ _
  rw [hu] at hs ⊢
  generalize hp : c.pc t = p at *
  generalize hv : m.nreaders = v at *
  cases hm with
  | quiet hc ha => simp [Thread.weight,Thread.reader,Thread.writer,hc,ha]
  | clear =>
    have h1 := hi.drained_count hr (t:=t) (by rw [hp]; rfl)
    simp [h1,Thread.weight,Thread.reader,Thread.writer,Thread.counted,Thread.announced]
  | drop k h =>
    cases k <;> simp_all [Thread.weight,Thread.reader,Thread.writer,Thread.counted,
      Thread.announced,Dropper.dropped]
  | _ =>
    simp_all [Thread.weight,Thread.reader,Thread.writer,Thread.counted,Thread.announced,
      sub_eq_add_neg]

theorem Inv.alone_go (hr : (rwSystem w).Reachable c) (hi : Inv c)
    (hr' : (rwSystem w).Reachable (goConf c t m q))
    (hm : Move w c.mem.nreaders (c.pc t) m.nreaders q) (u : T)
    (hu : ((goConf c t m q).pc u).drained) : readers (goConf c t m q) = 0 := by
  have hc' := hi.count_go hr hr' hm
  rw [weight_total] at hc'
  have hw1 := writers_le_one hr
  have hw1' := writers_le_one hr'
  have hn := readers_nonneg c
  have hn' := readers_nonneg (goConf c t m q)
  have hcount := hi.nreaders_eq
  have hgo := readers_go (c:=c) (t:=t) (m:=m) (q:=q)
  by_cases hut : u = t
  · subst hut
    have hq : q.drained := by simpa using hu
    generalize hp : c.pc u = p at *
    generalize hv : m.nreaders = v at *
    cases hm with
    | quiet hc ha hd =>
      have hsame : p.reader = q.reader := by simp [Thread.reader,hc]
      rcases hd hq with hd | ⟨-,hneg⟩
      · have := hi.alone u (by rw [hp]; exact hd)
        omega
      · omega
    | announceDone k h => omega
    | drop k h => cases k <;> simp [Dropper.dropped,Thread.drained] at hq
    | _ => simp [Thread.drained] at hq
  · have hu' : (c.pc u).drained := by simpa [hut] using hu
    have h0 := hi.alone u hu'
    have hle : q.reader ≤ (c.pc t).reader := by
      generalize hp : c.pc t = p at *
      generalize hv : m.nreaders = v at *
      cases hm with
      | quiet hc => simp [Thread.reader,hc]
      | add =>
        refine absurd (owner_unique hr ?_ ?_) hut
        · exact Thread.owns_of_announced (Thread.announced_of_drained hu')
        · rw [hp]; rfl
      | drop k h => cases k <;> simp [Thread.reader,Thread.counted,Dropper.dropped]
      | _ => simp [Thread.reader,Thread.counted]
    omega

theorem Inv.covered_go (hr : (rwSystem w).Reachable c) (hi : Inv c)
    (hr' : (rwSystem w).Reachable (goConf c t m q)) (ha : c.asleep t = none)
    (hm : Move w c.mem.nreaders (c.pc t) m.nreaders q) (u : T)
    (hu : c.asleep u = some .nreaders) : 0 ≤ m.nreaders ∨ WakePending (goConf c t m q) := by
  have hc' := hi.count_go hr hr' hm
  rw [weight_total,readers_go,writers_go] at hc'
  have hcount := hi.nreaders_eq
  obtain ⟨k,hk⟩ := hi.parked u hu
  have hut : u ≠ t := by rintro rfl; rw [ha] at hu; cases hu
  have howns : (c.pc u).phase.owns := by rw [hk]; rfl
  have hlocked : ¬ (c.pc t).phase.owns := fun h => hut (owner_unique hr howns h)
  rcases hi.covered u hu with h0 | ⟨v,hv,k',hk'⟩
  · generalize hp : c.pc t = p at *
    generalize hr1 : m.nreaders = r at *
    cases hm with
    | quiet => exact .inl h0
    | drop k h => exact .inl h
    | dropLast k h => exact .inr ⟨t,ha,k,by simp⟩
    | fail h h1 =>
      simp only [Thread.reader,Thread.writer,Thread.counted,Thread.announced] at hc'
      have := hi.count
      simp at hc'
      omega
    | _ => exact absurd rfl hlocked
  · refine .inr ⟨v,hv,k',?_⟩
    have hvt : v ≠ t := by
      rintro rfl
      rw [hk'] at hm
      generalize m.nreaders = r at hm
      cases hm with
      | quiet _ _ _ _ hw => exact hw k' rfl
    simpa [hvt] using hk'

theorem Inv.alive_go (hr : (rwSystem w).Reachable c) (hi : Inv c)
    (hr' : (rwSystem w).Reachable (goConf c t m q))
    (hm : Move w c.mem.nreaders (c.pc t) m.nreaders q) : q ≠ .aborted := by
  have hc' := hi.count_go hr hr' hm
  rw [weight_total] at hc'
  have hw1' := writers_le_one hr'
  have hn' := readers_nonneg (goConf c t m q)
  generalize hp : c.pc t = p at *
  generalize hv : m.nreaders = v at *
  cases hm with
  | quiet _ _ _ _ _ hq => exact hq
  | fail h h1 => omega
  | drop k h => cases k <;> simp [Dropper.dropped]
  | _ => simp

theorem Inv.go (hr : (rwSystem w).Reachable c) (hi : Inv c)
    (hr' : (rwSystem w).Reachable (goConf c t m q)) (ha : c.asleep t = none)
    (hm : Move w c.mem.nreaders (c.pc t) m.nreaders q) : Inv (goConf c t m q) where
  count := hi.count_go hr hr' hm
  alone := fun u hu => hi.alone_go hr hr' hm u hu
  waiting := fun u k v hu => by
    by_cases hut : u = t
    · subst hut
      have hq : q = .drainWait k v := by simpa using hu
      generalize c.pc u = p at *
      generalize m.nreaders = r at *
      cases hm with
      | quiet _ _ _ hv => exact hv k v hq
      | announceWait k' h => obtain ⟨-,rfl⟩ := Thread.drainWait.inj hq; exact h
      | drop k' h => cases k' <;> simp [Dropper.dropped] at hq
      | _ => simp at hq
    · exact hi.waiting u k v (by simpa [hut] using hu)
  parked := fun u hu => by
    have hut : u ≠ t := by rintro rfl; rw [ha] at hu; cases hu
    simpa [hut] using hi.parked u hu
  covered := fun u hu => hi.covered_go hr hr' ha hm u hu
  alive := fun u => by
    by_cases hut : u = t
    · subst hut; simpa using hi.alive_go hr hr' hm
    · simpa [hut] using hi.alive u

end Preservation

/-- `futex_wait` parks a thread at the gate in `enter_gate`, or a draining writer. -/
theorem sleep_thread {n : ℕ} {w : IntWord n} {m : Mem} {p q : Thread} {a : Word}
    (h : .sleep a q ∈ next w p m) :
    (∃ k, a = .gate ∧ p = .enter k .sleep ∧ q = .enter k .retry) ∨
      ∃ k, a = .nreaders ∧ p = .drainWait k m.nreaders ∧ q = .drainLoad k := by
  rcases p with _ | _ | _ | ⟨k,_ | e | _ | _⟩ | _ | ⟨k,_ | _ | _⟩ | ⟨_ | _⟩ | k | _ | _ | k | ⟨k,v⟩ |
      k | _ | _ <;>
    simp only [next,enterGate,leaveGate,futexWait,subFetch,List.mem_cons,List.not_mem_nil,
      or_false] at h <;> (repeat' split at h) <;> simp_all [Effect.map,Entry.goOn]

/-- `futex_wake` is the last step of `leave_gate`, or wakes the writer after the last reader. -/
theorem wake_thread {n : ℕ} {w : IntWord n} {m : Mem} {p q : Thread} {a : Word}
    (h : .wake a q ∈ next w p m) :
    (∃ k : Leaver, a = .gate ∧ p = .leave k .wake ∧ q = k.left) ∨
      ∃ k : Dropper, a = .nreaders ∧ p = .wakeWriter k ∧ q = k.dropped := by
  rcases p with _ | _ | _ | ⟨k,_ | e | _ | _⟩ | _ | ⟨k,_ | _ | _⟩ | ⟨_ | _⟩ | k | _ | _ | k | ⟨k,v⟩ |
      k | _ | _ <;>
    simp only [next,enterGate,leaveGate,futexWait,subFetch,List.mem_cons,List.not_mem_nil,
      or_false] at h <;> (repeat' split at h) <;> simp_all [Effect.map,Leaver.goOn]

/-- A futex call of thread `t`: the words stay, `t` goes on to `q`, and `s` says who sleeps. -/
theorem Inv.wait {c : RwConf T} (hi : Inv c) {t : T} {q : Thread} {s : T → Option Word}
    (hc : q.counted = (c.pc t).counted) (ha : q.announced = (c.pc t).announced)
    (hd : q.drained = (c.pc t).drained) (hv : ∀ k v, q ≠ .drainWait k v) (hq : q ≠ .aborted)
    (hs : ∀ u, s u = some .nreaders →
      c.asleep u = some .nreaders ∧ u ≠ t ∨ u = t ∧ ∃ k, q = .drainLoad k)
    (hw : ∀ u, s u = some .nreaders →
      0 ≤ c.mem.nreaders ∨ WakePending ⟨c.mem,Function.update c.pc t q,s⟩) :
    Inv ⟨c.mem,Function.update c.pc t q,s⟩ := by
  refine hi.same rfl (update_same _ hc) (update_same _ ha) (fun u hu => ?_) (fun u k v hu => ?_)
    (fun u hu => ?_) hw fun u => ?_
  · rwa [update_same Thread.drained hd] at hu
  · by_cases hut : u = t
    · subst hut; exact absurd (by simpa using hu) (hv k v)
    · simpa [hut] using hu
  · rcases hs u hu with ⟨hu,hut⟩ | ⟨rfl,hk⟩
    · simpa [hut] using hi.parked u hu
    · simpa using hk
  · by_cases hut : u = t
    · subst hut; simpa using hq
    · simpa [hut] using hi.alive u

omit [Fintype T] in
/-- A pending wake of the writer stays pending while other threads sleep and wake. -/
theorem WakePending.keep {c : RwConf T} (hp : WakePending c) {t : T} {q : Thread}
    {s : T → Option Word} (hs : ∀ v, c.asleep v = none → v ≠ t → s v = none)
    (ht : ∀ k, c.pc t ≠ .wakeWriter k) : WakePending ⟨c.mem,Function.update c.pc t q,s⟩ := by
  obtain ⟨v,hv,k,hk⟩ := hp
  have hvt : v ≠ t := by rintro rfl; exact ht k hk
  exact ⟨v,hs v hv hvt,k,by simpa [hvt] using hk⟩

theorem Inv.sleeper_unique {c : RwConf T} (hr : (rwSystem w).Reachable c) (hi : Inv c) {u v : T}
    (hu : c.asleep u = some .nreaders) (hv : c.asleep v = some .nreaders) : u = v := by
  obtain ⟨k,hk⟩ := hi.parked u hu
  obtain ⟨k',hk'⟩ := hi.parked v hv
  exact owner_unique hr (by rw [hk]; rfl) (by rw [hk']; rfl)

theorem Leaver.left_spec (k : Leaver) : k.left.counted = Thread.counted (.leave k .wake) ∧
    k.left.announced = false ∧ k.left.drained = false ∧ (∀ k' v, k.left ≠ .drainWait k' v) ∧
    k.left ≠ .aborted := by
  cases k <;> simp [Leaver.left,Thread.counted,Thread.announced,Thread.drained]

theorem Dropper.dropped_spec (k : Dropper) : k.dropped.counted = false ∧
    k.dropped.announced = false ∧ k.dropped.drained = false ∧
    (∀ k' v, k.dropped ≠ .drainWait k' v) ∧ k.dropped ≠ .aborted := by
  cases k <;> simp [Dropper.dropped,Thread.counted,Thread.announced,Thread.drained]

theorem inv_step {c c' : RwConf T} (hr : (rwSystem w).Reachable c) (hi : Inv c)
    (h : Step (next w) c c') : Inv c' := by
  cases h with
  | @go t m q ha he =>
    obtain ⟨b,hb⟩ := step_fire (Step.go ha he)
    exact hi.go hr (hr.step hb) ha (go_move he)
  | @sleep t a q ha he =>
    rcases sleep_thread he with ⟨k,rfl,hp,rfl⟩ | ⟨k,rfl,hp,rfl⟩
    · have hs : ∀ u, Function.update c.asleep t (some .gate) u = some .nreaders →
          c.asleep u = some .nreaders ∧ u ≠ t := fun u hu => by
        have hut : u ≠ t := by rintro rfl; simp at hu
        exact ⟨by simpa [hut] using hu,hut⟩
      refine hi.wait (by rw [hp]; rfl) (by rw [hp]; rfl) (by rw [hp]; rfl) (by simp) (by simp)
        (fun u hu => .inl (hs u hu)) fun u hu => ?_
      exact (hi.covered u (hs u hu).1).imp_right fun hp' =>
        hp'.keep (fun v hv hvt => by simpa [hvt] using hv) (by simp [hp])
    · refine hi.wait (by rw [hp]; rfl) (by rw [hp]; rfl) (by rw [hp]; rfl) (by simp) (by simp)
        (fun u hu => ?_) fun u hu => .inl (hi.waiting t k _ hp)
      by_cases hut : u = t
      · exact .inr ⟨hut,k,rfl⟩
      · exact .inl ⟨by simpa [hut] using hu,hut⟩
  | @wakeOne t u a q ha he hu =>
    have hsleep : ∀ v, Function.update c.asleep u none v = some .nreaders →
        c.asleep v = some .nreaders ∧ v ≠ t ∧ v ≠ u := fun v hv => by
      have hvu : v ≠ u := by rintro rfl; simp at hv
      have hva : c.asleep v = some .nreaders := by simpa [hvu] using hv
      exact ⟨hva,by rintro rfl; simp [ha] at hva,hvu⟩
    rcases wake_thread he with ⟨k,rfl,hp,rfl⟩ | ⟨k,rfl,hp,rfl⟩
    · obtain ⟨h1,h2,h3,h4,h5⟩ := k.left_spec
      refine hi.wait (by rw [hp,h1]) (by rw [hp,h2]; rfl) (by rw [hp,h3]; rfl) h4 h5
        (fun v hv => .inl ⟨(hsleep v hv).1,(hsleep v hv).2.1⟩) fun v hv => ?_
      refine (hi.covered v (hsleep v hv).1).imp_right fun hp' => hp'.keep (fun x hx _ => ?_) (by simp [hp])
      by_cases hxu : x = u <;> simp [Function.update,hxu,hx]
    · obtain ⟨h1,h2,h3,h4,h5⟩ := k.dropped_spec
      have hnone : ∀ v, Function.update c.asleep u none v ≠ some .nreaders := fun v hv =>
        (hsleep v hv).2.2 (hi.sleeper_unique hr (hsleep v hv).1 hu)
      exact hi.wait (by rw [hp,h1]; rfl) (by rw [hp,h2]; rfl) (by rw [hp,h3]; rfl) h4 h5
        (fun v hv => absurd hv (hnone v)) fun v hv => absurd hv (hnone v)
  | @wakeNone t a q ha he hn =>
    have hsleep : ∀ v, c.asleep v = some .nreaders → v ≠ t := fun v hv => by
      rintro rfl; simp [ha] at hv
    rcases wake_thread he with ⟨k,rfl,hp,rfl⟩ | ⟨k,rfl,hp,rfl⟩
    · obtain ⟨h1,h2,h3,h4,h5⟩ := k.left_spec
      exact hi.wait (by rw [hp,h1]) (by rw [hp,h2]; rfl) (by rw [hp,h3]; rfl) h4 h5
        (fun v hv => .inl ⟨hv,hsleep v hv⟩) fun v hv =>
          (hi.covered v hv).imp_right fun hp' => hp'.keep (fun _ hx _ => hx) (by simp [hp])
    · obtain ⟨h1,h2,h3,h4,h5⟩ := k.dropped_spec
      exact hi.wait (by rw [hp,h1]; rfl) (by rw [hp,h2]; rfl) (by rw [hp,h3]; rfl) h4 h5
        (fun v hv => absurd hv (hn v)) fun v hv => absurd hv (hn v)
  | @spurious t a ha =>
    have hsleep : ∀ v, Function.update c.asleep t none v = some .nreaders →
        c.asleep v = some .nreaders := fun v hv => by
      have hvt : v ≠ t := by rintro rfl; simp at hv
      simpa [hvt] using hv
    refine hi.same rfl (fun _ => rfl) (fun _ => rfl) (fun _ h => h) (fun _ _ _ h => h)
      (fun v hv => hi.parked v (hsleep v hv)) (fun v hv => ?_) hi.alive
    refine (hi.covered v (hsleep v hv)).imp_right fun ⟨x,hx,k,hk⟩ => ⟨x,?_,k,hk⟩
    by_cases hxt : x = t <;> simp [Function.update,hxt,hx]

theorem reachable_inv {c : RwConf T} (hr : (rwSystem w).Reachable c) : Inv c :=
  machine_invariant hr inv_start fun _ _ hr hi hs => inv_step hr hi hs

end RwControl
end Benedias
