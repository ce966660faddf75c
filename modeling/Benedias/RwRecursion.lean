import Benedias.RwObject

/-! What happens when one thread takes the lock twice. A section stands for one use of the lock
and `thread` tells whose it is; a thread is in one call at a time, so while it waits in the call
of one section its other sections stand still. -/
namespace Benedias
namespace RwControl

open Interleaving FutexMachine Gate AtomicObject

variable {T U : Type} [DecidableEq T]

/-- A section takes a step only if no other section of its thread is in a call. -/
def OneCall (thread : U → T) (c : RwConf U) : Label U → Prop
  | .run u _ _ => ∀ v, v ≠ u → thread v = thread u → (c.pc v).status = .idle
  | .spurious _ => True

instance [DecidableEq U] [Fintype U] (thread : U → T) (c : RwConf U) (b : Label U) :
    Decidable (OneCall thread c b) :=
  match b with
  | .run u _ _ => inferInstanceAs
      (Decidable (∀ v, v ≠ u → thread v = thread u → (c.pc v).status = .idle))
  | .spurious _ => .isTrue trivial

/-- In a call that waits for the lock. -/
def Thread.waits (p : Thread) : Prop := p.status = .pending .readLock ∨ p.status = .pending .writeLock

/-- The uses that the rules of the lock forbid: section `v` waits for the lock and section `u` of
the same thread writes; or `u` reads and `v` is in `write_lock`; or `u` reads, a writer has started
and `v` is in `read_lock`. -/
inductive Recursive (c : RwConf U) (u v : U) : Prop
  | writing (hu : (c.pc u).inWrite) (hv : (c.pc v).waits)
  | readWrite (hu : c.pc u = .reading) (hv : (c.pc v).status = .pending .writeLock)
  | readRead (hu : c.pc u = .reading) (hv : (c.pc v).status = .pending .readLock) (x : U)
      (hx : (c.pc x).gateWriter)

theorem Thread.inWrite_idle {p : Thread} (h : p.inWrite) : p.status = .idle := by
  cases p <;> simp_all [Thread.inWrite,Thread.status]

theorem Thread.waits.ne_idle {p : Thread} (h : p.waits) : p.status ≠ .idle := by
  rcases h with h | h <;> simp [h]

theorem Recursive.ne_idle {c : RwConf U} {u v : U} (h : Recursive c u v) :
    (c.pc v).status ≠ .idle := by
  cases h with
  | writing _ hv => exact hv.ne_idle
  | readWrite _ hv | readRead _ hv => simp [hv]

/-- A call that waits for the lock goes on waiting, or has got it. -/
theorem Shift.waits {m : Mem} {p q : Thread} (h : Shift m p q) (hp : p.waits) :
    q.status = p.status ∨ p = .addReader ∨ q.inWrite ∨ q = .aborted := by
  have pend {o : Op} (hs : p.status = .pending o) (ho : o ≠ .readLock) (ho' : o ≠ .writeLock) :
      False := by rcases hp with hp | hp <;> simp_all
  cases h with
  | hidden hm hs => exact .inl hs
  | call hi => exact absurd hi hp.ne_idle
  | ret hd => rcases hp with hp | hp <;> simp [hd] at hp
  | addReader => exact .inr (.inl rfl)
  | dropLast | drop => exact (pend (o:=.readUnlock) rfl (by simp) (by simp)).elim
  | dropModify => exact (pend (o:=.writeModify) rfl (by simp) (by simp)).elim
  | acquire => exact .inr (.inr (.inl rfl))
  | upgrade hs => exact (pend hs (by simp) (by simp)).elim
  | refuse => exact (pend (o:=.tryWriteModify) rfl (by simp) (by simp)).elim
  | clear => exact (pend (o:=.writeUnlock) rfl (by simp) (by simp)).elim
  | abort => exact .inr (.inr (.inr rfl))

/-- A writer behind the gate stays there until it has got the lock. -/
theorem next_gateWriter {n : ℕ} {w : IntWord n} {m : Mem} {p : Thread}
    {e : Effect Mem Word Thread} (h : e ∈ next w p m) (hp : p.gateWriter)
    (hw : p.inWrite = false) : e.pc.gateWriter := by
  cases p with
  | dropOwn | announce _ | drainWait _ _ | drainLoad _ =>
    simp only [next,subFetch,futexWait,List.mem_singleton] at h
    (repeat' split at h) <;> subst h <;> simp only [Effect.pc] <;> rfl
  | writing k => simp [Thread.inWrite] at hw
  | _ => simp [Thread.gateWriter] at hp

variable [DecidableEq U] [Fintype U] {w : IntWord (Fintype.card U)}

/-- Beside a reader nobody writes, and no waiting writer is done. -/
theorem not_drained {c : RwConf U} (hr : (rwSystem w).Reachable c) {u v : U}
    (hu : c.pc u = .reading) (hv : (c.pc v).drained) : False := by
  have h0 := (reachable_inv hr).alone v hv
  have h1 := one_le_readers (c:=c) (t:=u) (by rw [hu]; rfl)
  omega

/-- A call that waits for the lock does not get it in a step beside a section `u` that stands
still, if it is not about to count itself. -/
theorem step_waits {c c' : RwConf U} {b : Label U} (hr : (rwSystem w).Reachable c)
    (hf : (rwSystem w).fire c b = some c') {u v : U} (hu : c.pc u = .reading ∨ (c.pc u).inWrite)
    (hpu : c'.pc u = c.pc u) (hv : (c.pc v).waits) (hadd : c.pc v ≠ .addReader) :
    (c'.pc v).status = (c.pc v).status := by
  have hr' := hr.step hf
  have hwrite : ¬ (c'.pc v).inWrite := fun hn => by
    rcases hu with hu | hu
    · exact not_drained hr' (hpu.trans hu) (Thread.drained_of_inWrite hn)
    · obtain rfl := owner_unique hr' (t:=u) (hpu ▸ Thread.owns_of_inWrite hu)
        (Thread.owns_of_inWrite hn)
      exact hv.ne_idle (Thread.inWrite_idle hu)
  have hf' : fire (next w) c b = some c' := hf
  cases b with
  | spurious t =>
    obtain ⟨-,-,hp⟩ := fire_spurious hf'
    rw [hp]
  | run t choice woken =>
    obtain ⟨e,he,-,hp⟩ := fire_run hf'
    by_cases hvt : v = t
    · subst hvt
      have hq : c'.pc v = e.pc := by rw [hp,Function.update_self]
      rcases (next_shift (List.mem_of_getElem? he)).waits hv with h | h | h | h
      · rw [hq]; exact h
      · exact absurd h hadd
      · exact absurd (hq ▸ h) hwrite
      · exact absurd (hq.trans h) ((reachable_inv hr').alive v)
    · rw [hp,Function.update_of_ne hvt]

/-- A writer behind the gate stays behind it beside a section that stands still. -/
theorem step_gateWriter {c c' : RwConf U} {b : Label U} (hr : (rwSystem w).Reachable c)
    (hf : (rwSystem w).fire c b = some c') {u x : U} (hu : c.pc u = .reading ∨ (c.pc u).inWrite)
    (hpu : c'.pc u = c.pc u) (hx : (c.pc x).gateWriter) : (c'.pc x).gateWriter := by
  have hf' : fire (next w) c b = some c' := hf
  rcases hu with hu | hu
  · cases b with
    | spurious t =>
      obtain ⟨-,-,hp⟩ := fire_spurious hf'
      rw [hp]; exact hx
    | run t choice woken =>
      obtain ⟨e,he,-,hp⟩ := fire_run hf'
      by_cases hxt : x = t
      · subst hxt
        rw [hp,Function.update_self]
        refine next_gateWriter (List.mem_of_getElem? he) hx ?_
        by_contra hn
        exact not_drained hr hu (Thread.drained_of_inWrite (by simpa using hn))
      · rw [hp,Function.update_of_ne hxt]; exact hx
  · obtain rfl := owner_unique hr (Thread.owns_of_inWrite hu) (Thread.owns_of_gateWriter hx)
    rw [hpu]; exact hx

omit [DecidableEq U] [Fintype U] in
/-- The section that the thread of `v` cannot go on with. -/
theorem Recursive.held {c : RwConf U} {u v : U} (h : Recursive c u v) :
    c.pc u = .reading ∨ (c.pc u).inWrite := by
  cases h with
  | writing hu => exact .inr hu
  | readWrite hu | readRead hu => exact .inl hu

omit [DecidableEq T] in
theorem Recursive.step {thread : U → T} {c c' : RwConf U} {b : Label U} {u v : U}
    (hr : (rwSystem w).Reachable c) (huv : u ≠ v) (hsame : thread u = thread v)
    (h : Recursive c u v) (hb : OneCall thread c b) (hf : (rwSystem w).fire c b = some c') :
    Recursive c' u v ∧ c'.pc u = c.pc u ∧ (c'.pc v).status = (c.pc v).status := by
  -- the thread waits in the call of `v`, so `u` stands still
  have hpu : c'.pc u = c.pc u := by
    have hf' : fire (next w) c b = some c' := hf
    cases b with
    | spurious t => rw [(fire_spurious hf').2.2]
    | run t choice woken =>
      obtain ⟨e,-,-,hp⟩ := fire_run hf'
      refine hp ▸ Function.update_of_ne ?_ _ _
      rintro rfl
      exact h.ne_idle (hb v huv.symm hsame.symm)
  have hheld := h.held
  cases h with
  | writing hu hv =>
    have hs := step_waits hr hf hheld hpu hv fun ha =>
      huv (owner_unique hr (Thread.owns_of_inWrite hu) (by rw [ha]; rfl))
    exact ⟨.writing (hpu ▸ hu) (by simpa only [Thread.waits,hs] using hv),hpu,hs⟩
  | readWrite hu hv =>
    have hs := step_waits hr hf hheld hpu (.inr hv) fun ha => by simp [ha,Thread.status] at hv
    exact ⟨.readWrite (hpu.trans hu) (hs.trans hv),hpu,hs⟩
  | readRead hu hv x hx =>
    have hs := step_waits hr hf hheld hpu (.inl hv) (no_increment w hr hx v).1
    exact ⟨.readRead (hpu.trans hu) (hs.trans hv) x (step_gateWriter hr hf hheld hpu hx),hpu,hs⟩

/-- With a writer behind the gate nobody gets the lock any more. -/
theorem hang_step {c c' : RwConf U} {b : Label U} {u x y : U} (hr : (rwSystem w).Reachable c)
    (hf : (rwSystem w).fire c b = some c') (hu : c.pc u = .reading ∨ (c.pc u).inWrite)
    (hpu : c'.pc u = c.pc u) (hx : (c.pc x).gateWriter) (hy : (c.pc y).waits) :
    (c'.pc y).waits ∧ (c'.pc y).status = (c.pc y).status := by
  have hs := step_waits hr hf hu hpu hy (no_increment w hr hx y).1
  exact ⟨by simpa only [Thread.waits,hs] using hy,hs⟩

/-- The locks are non-recursive: a thread that waits for the lock beside a section of its own, as
the rules forbid, never comes back from that call, whatever the others do; and once a writer is
behind the gate, nobody else who waits for the lock comes back either. -/
theorem recursion_deadlocks (w : IntWord (Fintype.card U)) (thread : U → T) {c c' : RwConf U}
    {as : List (Label U)} {u v : U} (hr : (rwSystem w).Reachable c) (huv : u ≠ v)
    (hsame : thread u = thread v) (h : Recursive c u v)
    (he : (rwSystem w).execVia (OneCall thread) c as = some c') :
    c'.pc u = c.pc u ∧ (c'.pc v).status = (c.pc v).status ∧ (c'.pc v).status ≠ .idle ∧
      ∀ x y, (c.pc x).gateWriter → (c.pc y).waits →
        (c'.pc x).gateWriter ∧ (c'.pc y).status = (c.pc y).status := by
  have hrun := hr.execVia_invariant
    (I:=fun c' => Recursive c' u v ∧ c'.pc u = c.pc u ∧ (c'.pc v).status = (c.pc v).status ∧
      ∀ x y, (c.pc x).gateWriter → (c.pc y).waits →
        (c'.pc x).gateWriter ∧ (c'.pc y).waits ∧ (c'.pc y).status = (c.pc y).status)
    ⟨h,rfl,rfl,fun x y hx hy => ⟨hx,hy,rfl⟩⟩ (fun s a s' hrs hi hp hf => by
      obtain ⟨h1,h2,h3⟩ := hi.1.step hrs huv hsame hp hf
      refine ⟨h1,h2.trans hi.2.1,h3.trans hi.2.2.1,fun x y hx hy => ?_⟩
      obtain ⟨hx',hy',hs⟩ := hi.2.2.2 x y hx hy
      obtain ⟨hy'',hs'⟩ := hang_step hrs hf hi.1.held h2 hx' hy'
      exact ⟨step_gateWriter hrs hf hi.1.held h2 hx',hy'',hs'.trans hs⟩) he
  exact ⟨hrun.2.1,hrun.2.2.1,hrun.1.ne_idle,fun x y hx hy =>
    ⟨(hrun.2.2.2 x y hx hy).1,(hrun.2.2.2 x y hx hy).2.2⟩⟩

/-- Sections 0 and 1 are of one thread, section 2 of another: a read lock, a write lock that waits
for it, and a second read lock. -/
def ownerOf (u : Party) : Bool := u = 2

def recursiveSchedule : List (Label Party) :=
  [.run 0 0 none,.run 0 0 none,.run 0 0 none,.run 0 0 none,.run 2 1 none,.run 2 0 none,
    .run 2 0 none,.run 1 0 none]

def recursiveConf : RwConf Party :=
  ((rwSystem partyWord).execVia (OneCall ownerOf) (start ⟨0,0⟩ .outside) recursiveSchedule).getD
    (start ⟨0,0⟩ .outside)

theorem recursiveConf_reachable : (rwSystem partyWord).Reachable recursiveConf :=
  (System.ReachableVia.execViaD recursiveSchedule (.init rfl)).reachable

/-- The second read lock parks at the gate. -/
def hangSchedule : List (Label Party) :=
  [.run 1 0 none,.run 1 0 none,.run 2 0 none,.run 1 0 none]

def deadConf : RwConf Party :=
  ((rwSystem partyWord).execVia (OneCall ownerOf) recursiveConf hangSchedule).getD recursiveConf

theorem deadConf_exec :
    (rwSystem partyWord).execVia (OneCall ownerOf) recursiveConf hangSchedule = some deadConf := by
  rfl

theorem recursion_deadlocks_deadConf : deadConf.asleep 1 = some .gate ∧
    deadConf.asleep 2 = some .nreaders ∧ deadConf.pc 0 = recursiveConf.pc 0 ∧
    (deadConf.pc 1).status = (recursiveConf.pc 1).status ∧ (deadConf.pc 1).status ≠ .idle ∧
      ∀ x y, (recursiveConf.pc x).gateWriter → (recursiveConf.pc y).waits →
        (deadConf.pc x).gateWriter ∧ (deadConf.pc y).status = (recursiveConf.pc y).status :=
  ⟨by decide,by decide,recursion_deadlocks partyWord ownerOf recursiveConf_reachable (u:=0) (v:=1)
    (by decide) (by decide) (.readRead (by decide) (by decide) 2 (by decide))
    deadConf_exec⟩

end RwControl
end Benedias
