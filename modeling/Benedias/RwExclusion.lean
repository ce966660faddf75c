import Benedias.RwInvariant
import Mathlib.Algebra.BigOperators.Ring.Finset

/-! What `futex_rw_control` promises its users about exclusion: writers run alone, the reader
count is exact, and a read section that `try_write_modify` upgrades was never written under. -/
namespace Benedias
namespace RwControl

open Interleaving FutexMachine Gate

/-- `read_lock` has returned, and neither `read_unlock` nor `write_modify` has begun; a
`try_write_modify` that has not returned leaves the section a read section. -/
def Thread.inRead : Thread → Bool
  | .reading | .tryEnter | .dropOwn | .announce .tryWriteModify
  | .drainWait .tryWriteModify _ | .drainLoad .tryWriteModify => true
  | _ => false

/-- The call that made the thread a writer has returned and `write_unlock` has not begun. -/
def Thread.inWrite : Thread → Bool
  | .writing _ => true
  | _ => false

/-- A writer from its entry of the gate until its `write_unlock` begins. -/
def Thread.gateWriter : Thread → Bool
  | .dropOwn | .announce _ | .drainWait _ _ | .drainLoad _ | .writing _ => true
  | _ => false

theorem Thread.drained_of_inWrite {l : Thread} (h : l.inWrite) : l.drained := by
  cases l <;> simp_all [Thread.inWrite,Thread.drained]

theorem Thread.owns_of_inWrite {l : Thread} (h : l.inWrite) : l.phase.owns := by
  cases l <;> simp_all [Thread.inWrite,Thread.phase,Phase.owns]

theorem Thread.owns_of_gateWriter {l : Thread} (h : l.gateWriter) : l.phase.owns := by
  cases l <;> simp_all [Thread.gateWriter,Thread.phase,Phase.owns]

/-- A reader is counted, or has entered the gate to upgrade. -/
theorem Thread.inRead_cases {l : Thread} (h : l.inRead) : l.counted ∨ l.phase.owns := by
  rcases l with _ | _ | _ | _ | _ | _ | _ | _ | _ | _ | ⟨_ | _ | _⟩ | ⟨⟨_ | _ | _⟩,_⟩ | ⟨_ | _ | _⟩ |
    _ | _ <;> simp_all [Thread.inRead,Thread.counted,Thread.phase,Phase.owns]

variable {T : Type} [DecidableEq T] [Fintype T]

/-- While a thread is inside a write section no other is inside a read or write section. -/
theorem exclusion (w : IntWord (Fintype.card T)) {c : RwConf T} (hr : (rwSystem w).Reachable c)
    {t u : T} (htu : t ≠ u) (ht : (c.pc t).inWrite) :
    (c.pc u).inRead = false ∧ (c.pc u).inWrite = false := by
  have hi := reachable_inv hr
  have halone := hi.alone t (Thread.drained_of_inWrite ht)
  have howner : (c.pc u).phase.owns → False := fun h =>
    htu (owner_unique hr (Thread.owns_of_inWrite ht) h)
  constructor
  · by_contra hu
    rcases Thread.inRead_cases (by simpa using hu) with hu | hu
    · have := one_le_readers hu
      omega
    · exact howner hu
  · by_contra hu
    exact howner (Thread.owns_of_inWrite (by simpa using hu))

/-- Three threads with 32 bit words. -/
def partyWord : IntWord (Fintype.card Party) := .int32 _ (by decide)

/-- One thread writes while another is parked at the gate. -/
def writerSchedule : List (Label Party) :=
  [.run 0 1 none,.run 0 0 none,.run 0 0 none,.run 1 0 none,.run 1 0 none,.run 1 0 none,
    .run 1 0 none]

def writerConf : RwConf Party :=
  ((rwSystem partyWord).exec (start ⟨0,0⟩ .outside) writerSchedule).getD
    (start ⟨0,0⟩ .outside)

theorem writerConf_reachable : (rwSystem partyWord).Reachable writerConf :=
  (System.Reachable.init rfl).execD writerSchedule

theorem exclusion_writerConf : (writerConf.pc 0).inWrite = true ∧
    writerConf.asleep 1 = some .gate ∧ (writerConf.pc 1).inRead = false ∧
      (writerConf.pc 1).inWrite = false :=
  ⟨by decide,by decide,
    exclusion partyWord writerConf_reachable (t:=0) (by decide) (by decide)⟩

/-! The reader count. -/

omit [DecidableEq T] in
theorem readers_eq_card (c : RwConf T) :
    readers c = (Finset.univ.filter fun t => (c.pc t).counted).card := by
  simp only [readers,total,Thread.reader]
  exact Finset.sum_boole _ _

theorem writers_eq (w : IntWord (Fintype.card T)) {c : RwConf T}
    (hr : (rwSystem w).Reachable c) :
    writers c = if ∃ t, (c.pc t).announced then 1 else 0 := by
  have h1 := writers_le_one hr
  have h0 := writers_nonneg c
  split
  · rename_i h
    obtain ⟨t,ht⟩ := h
    have := one_le_writers ht
    omega
  · rename_i h
    by_contra hn
    have hpos : 0 < total Thread.writer c.pc := by change 0 < writers c; omega
    obtain ⟨t,ht⟩ := exists_of_total_pos hpos
    refine h ⟨t,?_⟩
    by_contra hn
    simp [Thread.writer,hn] at ht

/-- The only step that counts another thread is the increment of `read_lock`. -/
theorem Move.counted {n : ℕ} {w : IntWord n} {r r' : ℤ} {p q : Thread} (h : Move w r p r' q)
    (hp : p ≠ .addReader) (hq : q.counted) : p.counted := by
  cases h with
  | quiet hc => rwa [← hc]
  | add => exact absurd rfl hp
  | drop k => cases k <;> simp [Dropper.dropped,Thread.counted] at hq
  | _ => simp [Thread.counted] at hq

/-- The only step that takes back an announcement is the store of `write_unlock`. -/
theorem Move.announced {n : ℕ} {w : IntWord n} {r r' : ℤ} {p q : Thread} (h : Move w r p r' q)
    (hp : p ≠ .clearReaders) (ha : p.announced) : q.announced := by
  cases h with
  | quiet _ hc => rwa [hc]
  | clear => exact absurd rfl hp
  | _ => simp [Thread.announced] at ha

/-- Going to sleep and waking others changes neither. -/
theorem wait_same {n : ℕ} {w : IntWord n} {m : Mem} {p q : Thread} {a : Word}
    (h : .sleep a q ∈ next w p m ∨ .wake a q ∈ next w p m) :
    q.counted = p.counted ∧ q.announced = p.announced := by
  rcases h with h | h
  · rcases sleep_thread h with ⟨k,-,rfl,rfl⟩ | ⟨k,-,rfl,rfl⟩ <;> exact ⟨rfl,rfl⟩
  · rcases wake_thread h with ⟨k,-,rfl,rfl⟩ | ⟨k,-,rfl,rfl⟩
    · exact ⟨k.left_spec.1,k.left_spec.2.1⟩
    · exact ⟨k.dropped_spec.1,k.dropped_spec.2.1⟩

/-- While a writer owns the gate no thread is at the increment of `read_lock`. -/
theorem no_increment (w : IntWord (Fintype.card T)) {c : RwConf T}
    (hr : (rwSystem w).Reachable c) {t : T} (ht : (c.pc t).gateWriter) (u : T) :
    c.pc u ≠ .addReader ∧ c.pc u ≠ .clearReaders := by
  constructor <;> intro hu <;>
    (obtain rfl := owner_unique hr (Thread.owns_of_gateWriter ht) (u:=u) (by rw [hu]; rfl)
     simp [hu,Thread.gateWriter] at ht)

/-- While a writer owns the gate, a step counts no other thread and takes back no
announcement. -/
theorem shares_shrink (w : IntWord (Fintype.card T)) {c c' : RwConf T}
    (hr : (rwSystem w).Reachable c) {t : T} (ht : (c.pc t).gateWriter)
    (hs : Step (next w) c c') (u : T) :
    ((c'.pc u).counted → (c.pc u).counted) ∧ ((c.pc u).announced → (c'.pc u).announced) := by
  have wait {v : T} {q : Thread} {a : Word}
      (he : .sleep a q ∈ next w (c.pc v) c.mem ∨ .wake a q ∈ next w (c.pc v) c.mem) :
      ((Function.update c.pc v q u).counted → (c.pc u).counted) ∧
        ((c.pc u).announced → (Function.update c.pc v q u).announced) := by
    obtain ⟨h1,h2⟩ := wait_same he
    rw [update_same Thread.counted h1,update_same Thread.announced h2]
    exact ⟨id,id⟩
  obtain ⟨hadd,hclear⟩ := no_increment w hr ht u
  cases hs with
  | @go v m q ha he =>
    by_cases huv : u = v
    · subst huv
      exact ⟨fun h => (go_move he).counted hadd (by simpa using h),
        fun h => by simpa using (go_move he).announced hclear h⟩
    · simp [huv]
  | sleep ha he => exact wait (.inl he)
  | wakeOne ha he hx => exact wait (.inr he)
  | wakeNone ha he hn => exact wait (.inr he)
  | spurious ha => exact ⟨id,id⟩

theorem nreaders_shrinks (w : IntWord (Fintype.card T)) {c c' : RwConf T}
    (hr : (rwSystem w).Reachable c) {t : T} (ht : (c.pc t).gateWriter)
    (hs : Step (next w) c c') : c'.mem.nreaders ≤ c.mem.nreaders := by
  obtain ⟨b,hb⟩ := step_fire hs
  rw [(reachable_inv hr).count,(reachable_inv (hr.step hb)).count]
  refine Finset.sum_le_sum fun u _ => ?_
  obtain ⟨h1,h2⟩ := shares_shrink w hr ht hs u
  simp only [Thread.weight,Thread.reader,Thread.writer]
  grind

/-- Outside all sections and calls both words are 0. -/
theorem quiescent_mem (w : IntWord (Fintype.card T)) {c : RwConf T}
    (hr : (rwSystem w).Reachable c) (h : ∀ t, c.pc t = .outside) : c.mem = ⟨0,0⟩ := by
  have hn : c.mem.nreaders = 0 := by
    rw [(reachable_inv hr).count]
    exact Finset.sum_eq_zero fun t _ => by simp [h t,Thread.weight,Thread.reader,Thread.writer,
      Thread.counted,Thread.announced]
  have hg : c.mem.gate = 0 := by
    by_contra hg
    obtain ⟨t,ht⟩ := (gate_inv hr).held hg
    change (c.pc t).phase.owns at ht
    simp [h t,Thread.phase,Phase.owns] at ht
  cases hm : c.mem
  simp_all

/-- `nreaders` counts the read counts in force, less one for an announced writer. The
assertion of `read_unlock` holds, the store of `write_unlock` discards no reader, a writer
behind the gate waits only for readers counted before it, and the destructor does not abort
when no section or call is in progress. -/
theorem reader_count (w : IntWord (Fintype.card T)) {c : RwConf T}
    (hr : (rwSystem w).Reachable c) :
    (c.mem.nreaders = ((Finset.univ.filter fun t => (c.pc t).counted).card : ℤ) -
      (if ∃ t, (c.pc t).announced then 1 else 0)) ∧
    -1 ≤ c.mem.nreaders ∧
    (∀ t, c.pc t ≠ .aborted) ∧
    (∀ t, c.pc t = .clearReaders → c.mem.nreaders = -1 ∧ ∀ u, (c.pc u).counted = false) ∧
    (∀ t, (c.pc t).gateWriter → (∀ u, c.pc u ≠ .addReader) ∧
      ∀ c', Step (next w) c c' → c'.mem.nreaders ≤ c.mem.nreaders ∧
        ∀ u, (c'.pc u).counted → (c.pc u).counted) ∧
    ((∀ t, c.pc t = .outside) → c.mem = ⟨0,0⟩ ∧ (destroy c.mem).isSome) := by
  have hi := reachable_inv hr
  have hcount := hi.nreaders_eq
  refine ⟨?_,?_,hi.alive,fun t ht => ?_,fun t ht => ?_,fun h => ?_⟩
  · rw [hcount,readers_eq_card,writers_eq w hr]
  · have h1 := writers_le_one hr
    have h2 := readers_nonneg c
    omega
  · have hd : (c.pc t).drained := by rw [ht]; rfl
    refine ⟨hi.drained_count hr hd,fun u => ?_⟩
    by_contra hu
    have h1 := one_le_readers (c:=c) (t:=u) (by simpa using hu)
    have h0 := hi.alone t hd
    omega
  · exact ⟨fun u => (no_increment w hr ht u).1,fun c' hs =>
      ⟨nreaders_shrinks w hr ht hs,fun u => (shares_shrink w hr ht hs u).1⟩⟩
  · have hm := quiescent_mem w hr h
    exact ⟨hm,by rw [hm]; rfl⟩

theorem reader_count_writerConf : writerConf.mem.nreaders = -1 ∧
    writerConf.mem.nreaders = ((Finset.univ.filter fun t => (writerConf.pc t).counted).card : ℤ) -
      (if ∃ t, (writerConf.pc t).announced then 1 else 0) :=
  ⟨by decide,(reader_count partyWord writerConf_reachable).1⟩

/-! Upgrading a read section. -/

section Upgrade

variable {w : IntWord (Fintype.card T)} {n : ℕ}

/-- Step `i` of the run is the return of a `read_lock` of thread `t`. -/
def ReadLockReturns (r : (rwSystem w).Run n) (t : T) (i : ℕ) : Prop :=
  (∃ pc, (r.state i).pc t = .leave .readLock pc) ∧ (r.state (i+1)).pc t = .reading

/-- Thread `t` returns from `read_lock` at step `i` and its next read section is the one that
`try_write_modify` upgrades, returning true at step `k`. -/
structure Upgrades (r : (rwSystem w).Run n) (t : T) (i k : ℕ) : Prop where
  order : i < k
  inRun : k < n
  locked : ReadLockReturns r t i
  latest : ∀ m, i < m → m < k → ¬ ReadLockReturns r t m
  before : (r.state k).pc t ≠ .writing .tryWriteModify
  after : (r.state (k+1)).pc t = .writing .tryWriteModify

/-- A read section, also one being upgraded, is entered from `read_lock` or gone on with. -/
theorem go_inRead {n : ℕ} {w : IntWord n} {m m' : Mem} {p q : Thread} (h : .go m' q ∈ next w p m)
    (hq : q.inRead ∨ q = .writing .tryWriteModify) :
    p.inRead ∨ (∃ pc, p = .leave .readLock pc) ∧ q = .reading := by
  rcases p with _ | _ | _ | ⟨⟨_ | _ | _⟩,_ | e | _ | _⟩ | _ | ⟨⟨_ | _⟩,_ | _ | _⟩ | ⟨_ | _⟩ | k | _ | _ |
      ⟨_ | _ | _⟩ | ⟨⟨_ | _ | _⟩,v⟩ | ⟨_ | _ | _⟩ | _ | _
  case outside =>
    simp only [next,List.mem_cons,Effect.go.injEq,List.not_mem_nil,or_false] at h
    rcases h with ⟨-,rfl⟩ | ⟨-,rfl⟩ <;> simp [Thread.inRead,readLock,writeLock] at hq
  case aborted => simp [next] at h
  all_goals
    simp only [next,enterGate,leaveGate,tryEnterGate,futexWait,subFetch,List.mem_cons,
      List.not_mem_nil,or_false] at h
    (repeat' split at h) <;>
      simp_all [Effect.map,Entry.goOn,Entry.entered,Leaver.goOn,Leaver.left,Thread.inRead,
        readUnlock,writeUnlock,tryWriteModify,writeModify,Dropper.dropped]

theorem wait_inRead {n : ℕ} {w : IntWord n} {m : Mem} {p q : Thread} {a : Word}
    (h : .sleep a q ∈ next w p m ∨ .wake a q ∈ next w p m)
    (hq : q.inRead ∨ q = .writing .tryWriteModify) :
    p.inRead ∨ (∃ pc, p = .leave .readLock pc) ∧ q = .reading := by
  rcases h with h | h
  · rcases sleep_thread h with ⟨k,-,rfl,rfl⟩ | ⟨k,-,rfl,rfl⟩
    · simp [Thread.inRead] at hq
    · cases k <;> simp_all [Thread.inRead]
  · rcases wake_thread h with ⟨k,-,rfl,rfl⟩ | ⟨k,-,rfl,rfl⟩ <;>
      cases k <;> simp_all [Thread.inRead,Leaver.left,Dropper.dropped]

theorem step_inRead {c c' : RwConf T} (hs : Step (next w) c c') {t : T}
    (hq : (c'.pc t).inRead ∨ c'.pc t = .writing .tryWriteModify ∧ c.pc t ≠ .writing .tryWriteModify) :
    (c.pc t).inRead ∨ (∃ pc, c.pc t = .leave .readLock pc) ∧ c'.pc t = .reading := by
  have other {v : T} {q : Thread} (htv : t ≠ v) (hq : (Function.update c.pc v q t).inRead ∨
      Function.update c.pc v q t = .writing .tryWriteModify ∧ c.pc t ≠ .writing .tryWriteModify) :
      (c.pc t).inRead := by
    simp only [Function.update_of_ne htv] at hq
    exact hq.resolve_right fun h => h.2 h.1
  cases hs with
  | @go v m q ha he =>
    by_cases htv : t = v
    · subst htv; simpa using go_inRead he (by simpa using hq.imp_right And.left)
    · exact .inl (other htv hq)
  | @sleep v a q ha he =>
    by_cases htv : t = v
    · subst htv; simpa using wait_inRead (.inl he) (by simpa using hq.imp_right And.left)
    · exact .inl (other htv hq)
  | @wakeOne v u a q ha he hu =>
    by_cases htv : t = v
    · subst htv; simpa using wait_inRead (.inr he) (by simpa using hq.imp_right And.left)
    · exact .inl (other htv hq)
  | @wakeNone v a q ha he hu =>
    by_cases htv : t = v
    · subst htv; simpa using wait_inRead (.inr he) (by simpa using hq.imp_right And.left)
    · exact .inl (other htv hq)
  | spurious ha => exact .inl (hq.resolve_right fun h => h.2 h.1)

theorem run_step (r : (rwSystem w).Run n) {i : ℕ} (hi : i < n) :
    Step (next w) (r.state i) (r.state (i+1)) := fire_step (r.next i hi)

/-- From the return of `read_lock` to that of `try_write_modify` the thread is a reader,
by going back from the latter. -/
theorem Upgrades.inRead_back {r : (rwSystem w).Run n} {t : T} {i k : ℕ} (h : Upgrades r t i k)
    (d : ℕ) (hd : d + i < k) : ((r.state (k-d)).pc t).inRead := by
  induction d with
  | zero =>
    rcases step_inRead (run_step r h.inRun) (.inr ⟨h.after,h.before⟩) with hp | ⟨-,hp⟩
    · exact hp
    · rw [h.after] at hp; cases hp
  | succ d ih =>
    have hnext := ih (by omega)
    obtain ⟨m,hm⟩ : ∃ m, k - d = m+1 := ⟨k-d-1,by omega⟩
    rw [show k-(d+1) = m by omega]
    rw [hm] at hnext
    have hin := h.inRun
    rcases step_inRead (run_step r (i:=m) (by omega)) (.inl hnext) with hp | hp
    · exact hp
    · exact absurd hp (h.latest m (by omega) (by omega))

theorem Upgrades.inRead {r : (rwSystem w).Run n} {t : T} {i k m : ℕ} (h : Upgrades r t i k)
    (hi : i < m) (hm : m ≤ k) : ((r.state m).pc t).inRead := by
  have := h.inRead_back (k-m) (by omega)
  rwa [show k-(k-m) = m by omega] at this

/-- The whole upgraded section, up to any moment before its write section ends. -/
theorem Upgrades.undisturbed {r : (rwSystem w).Run n} {t : T} {i k j : ℕ} (h : Upgrades r t i k)
    (hj : j ≤ n) (hsec : ∀ m, k < m → m ≤ j → (r.state m).pc t = .writing .tryWriteModify) {m : ℕ}
    (hi : i < m) (hm : m ≤ j) {u : T} (hu : u ≠ t) : ((r.state m).pc u).inWrite = false := by
  have hr := r.reachable (hm.trans hj)
  by_contra hn
  obtain ⟨h1,h2⟩ := exclusion w hr hu (by simpa using hn)
  rcases Nat.lt_or_ge k m with hk | hk
  · rw [hsec m hk hm] at h2
    cases h2
  · rw [h.inRead hi hk] at h1
    cases h1

/-- Two upgrades cannot both return at one step. -/
theorem Upgrades.step_ne {r : (rwSystem w).Run n} {t u : T} {i k i' k' : ℕ} (htu : t ≠ u)
    (h : Upgrades r t i k) (h' : Upgrades r u i' k') : k ≠ k' := by
  rintro rfl
  have hr := r.reachable (i:=k+1) (by have := h.inRun; omega)
  have := (exclusion w hr htu (by rw [h.after]; rfl)).2
  rw [h'.after] at this
  cases this

/-- An upgrade that returns inside another thread's read section keeps that one from
upgrading. -/
theorem Upgrades.not_inside {r : (rwSystem w).Run n} {t u : T} {i k i' k' : ℕ} (htu : t ≠ u)
    (h : Upgrades r t i k) (h' : Upgrades r u i' k') (hi : i' ≤ k) (hk : k < k') : False := by
  have h1 := h'.undisturbed (j:=k') h'.inRun.le (fun m h1 h2 => by omega) (m:=k+1) (by omega)
    (by omega) htu
  rw [h.after] at h1
  cases h1

/-- If `try_write_modify` returns true, no other thread was inside a write section from the
return of `read_lock` to the end of the write section. If its compare-exchange fails, both
words are as they were and the caller is back, counted once, where `read_lock` left it. Of
two overlapping read sections at most one is upgraded. -/
theorem upgrade_atomic (w : IntWord (Fintype.card T)) {n : ℕ} (r : (rwSystem w).Run n) :
    (∀ t i k j, Upgrades r t i k → j ≤ n →
      (∀ m, k < m → m ≤ j → (r.state m).pc t = .writing .tryWriteModify) →
      ∀ m, i < m → m ≤ j → ∀ u, u ≠ t → ((r.state m).pc u).inWrite = false) ∧
    (∀ t k, k < n → (r.state k).pc t = tryWriteModify →
      (r.state (k+1)).pc t ≠ tryWriteModify → (r.state (k+1)).pc t ≠ .dropOwn →
      (r.state (k+1)).pc t = .reading ∧ (r.state (k+1)).mem = (r.state k).mem ∧
        (∀ u, u ≠ t → (r.state (k+1)).pc u = (r.state k).pc u) ∧
        (r.state (k+1)).asleep = (r.state k).asleep ∧
        ((r.state k).pc t).reader = 1 ∧ ((r.state (k+1)).pc t).reader = 1) ∧
    (∀ t u i k i' k' m, t ≠ u → Upgrades r t i k → Upgrades r u i' k' →
      ¬ (i < m ∧ m ≤ k ∧ i' < m ∧ m ≤ k')) := by
  refine ⟨fun t i k j h hj hsec m hi hm u hu => h.undisturbed hj hsec hi hm hu,
    fun t k hk ht hne hdrop => ?_,fun t u i k i' k' m htu h h' ⟨h1,h2,h3,h4⟩ => ?_⟩
  · have hs := run_step r hk
    generalize r.state (k+1) = c' at *
    generalize r.state k = c at *
    have other {v : T} {q : Thread} (h : Function.update c.pc v q t ≠ tryWriteModify) : v = t := by
      by_contra htv
      exact h (by simp [Ne.symm htv,ht])
    cases hs with
    | @go v m q ha he =>
      obtain rfl := other hne
      simp only [ht,tryWriteModify,next,tryEnterGate,List.mem_singleton,Effect.go.injEq] at he
      obtain ⟨rfl,rfl⟩ := he
      split at hdrop
      · simp at hdrop
      · rename_i hg
        simp only [hg,if_false,Mem.setGate_self,Function.update_self]
        exact ⟨rfl,trivial,fun u hu => by simp [hu],trivial,by rw [ht]; rfl,rfl⟩
    | sleep ha he => obtain rfl := other hne; simp [ht,tryWriteModify,next] at he
    | wakeOne ha he => obtain rfl := other hne; simp [ht,tryWriteModify,next] at he
    | wakeNone ha he => obtain rfl := other hne; simp [ht,tryWriteModify,next] at he
    | spurious ha => exact absurd ht hne
  · rcases Nat.lt_trichotomy k k' with hlt | heq | hlt
    · exact h.not_inside htu h' (by omega) hlt
    · exact h.step_ne htu h' heq
    · exact h'.not_inside htu.symm h (by omega) hlt

end Upgrade

/-- A thread reads, upgrades, and writes, with nobody else in the way. -/
def upgradeSchedule : List (Label Party) :=
  [.run 0 0 none,.run 0 0 none,.run 0 0 none,.run 0 0 none,.run 0 1 none,.run 0 0 none,
    .run 0 0 none,.run 0 0 none,.run 1 1 none]

def upgradeRun : (rwSystem partyWord).Run upgradeSchedule.length :=
  System.runOf _ (start ⟨0,0⟩ .outside) rfl upgradeSchedule (.run 0 0 none) (by decide)

theorem upgradeRun_upgrades : Upgrades upgradeRun 0 3 7 where
  order := by decide
  inRun := by decide
  locked := ⟨⟨.sub,by decide⟩,by decide⟩
  latest := by
    rintro m h1 h2 ⟨⟨pc,h3⟩,-⟩
    have hm : m = 4 ∨ m = 5 ∨ m = 6 := by omega
    rcases hm with rfl | rfl | rfl <;> cases h3
  before := by decide
  after := by decide

theorem upgrade_atomic_upgradeRun :
    ∀ m, 3 < m → m ≤ 9 → ∀ u, u ≠ 0 → ((upgradeRun.state m).pc u).inWrite = false :=
  (upgrade_atomic partyWord upgradeRun).1 0 3 7 9 upgradeRun_upgrades (by decide) fun m h1 h2 => by
    have hm : m = 8 ∨ m = 9 := by omega
    rcases hm with rfl | rfl <;> decide

end RwControl
end Benedias
