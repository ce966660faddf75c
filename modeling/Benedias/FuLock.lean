import Benedias.Interleaving
import Mathlib.Logic.Function.Basic

/-! `fu_lock` in its three layers: `fu_lock::lock` and `unlock`, `futex_lock_pi` and
`futex_unlock_pi`, and what the kernel does with a word in `FUTEX_LOCK_PI` and
`FUTEX_UNLOCK_PI`. -/
namespace Benedias
namespace FuLock

open Interleaving

/-! The fields of a word: `FUTEX_WAITERS` and the bits of the thread id. -/

def futexWaiters : BitVec 32 := 0x80000000#32
def futexTidMask : BitVec 32 := 0x3fffffff#32
def maskOutFutexWaiters : BitVec 32 := ~~~futexWaiters

def tidPart (word : BitVec 32) : BitVec 32 := word &&& futexTidMask

/-- The kernel's rewriting of a word: the flags may change, the owner does not. -/
def setFlags (word flags : BitVec 32) : BitVec 32 :=
  (word &&& futexTidMask) ||| (flags &&& ~~~futexTidMask)

@[simp] theorem tidPart_setFlags (word flags : BitVec 32) :
    tidPart (setFlags word flags) = tidPart word := by
  ext i hi
  simp only [tidPart,setFlags,BitVec.getElem_and,BitVec.getElem_or,BitVec.getElem_not]
  cases word[i] <;> cases futexTidMask[i] <;> simp

@[simp] theorem tidPart_zero : tidPart 0#32 = 0#32 := by decide

/-- The ids that `gettid` returns: positive, below the flags, each for one thread. -/
structure Tids (T : Type) where
  tid : T → BitVec 32
  injective : Function.Injective tid
  nonzero : ∀ t, tid t ≠ 0#32
  masked : ∀ t, tidPart (tid t) = tid t

/-- `exchange` and `syscall` are steps of `futex_lock_pi`, whose test of `FUTEX_OWNER_DIED`
has no effect; `kernel` waits inside the call, `granted` has been made the owner there. -/
inductive LockPc
  | exchange | syscall | kernel | granted
  deriving DecidableEq

/-- `test` carries the value left in `expected` by the failed compare-exchange. -/
inductive UnlockPc
  | exchange | test (expected : BitVec 32) | syscall
  deriving DecidableEq

/-- `holding` is between a normal return of `lock` and the start of `unlock`; `threw` is
`futex_op_invalid`, `aborted` the critical error. -/
inductive Thread
  | outside | locking (pc : LockPc) | holding | unlocking (pc : UnlockPc) | threw | aborted
  deriving DecidableEq

/-- The results of `FUTEX_LOCK_PI` without an acquisition that `futex_lock_pi` takes for not
fatal. -/
inductive Errno
  | EINTR | EAGAIN
  deriving DecidableEq

structure Conf (T : Type) where
  gate : BitVec 32
  pc : T → Thread

/-- A step of a thread's own code, or of the kernel for a thread in a system call. -/
inductive Label (T : Type)
  | run (t : T)
  | queue (t : T) (flags : BitVec 32)
  | acquire (t : T) (flags : BitVec 32)
  | interrupt (t : T) (errno : Errno)
  | unlockPi (t : T) (waiter : Option T) (flags : BitVec 32)

variable {T : Type}

def start : Conf T := ⟨0#32,fun _ => .outside⟩

/-- The thread owns the word, as far as the code and the kernel brought it there. -/
def Thread.owns : Thread → Bool
  | .locking .granted | .holding | .unlocking _ => true
  | _ => false

/-- The thread does not own the word: it may have kept it only where `unlock` threw. -/
def Thread.away : Thread → Bool
  | .outside | .locking .exchange | .locking .syscall | .locking .kernel => true
  | _ => false

def Inv (ids : Tids T) (c : Conf T) : Prop :=
  ∀ t, ((c.pc t).owns → tidPart c.gate = ids.tid t) ∧
    ((c.pc t).away → tidPart c.gate ≠ ids.tid t)

/-- The step is not a return of `FUTEX_LOCK_PI` with `EINTR` or `EAGAIN`. -/
def Uninterrupted (_ : Conf T) : Label T → Prop
  | .interrupt _ _ => False
  | _ => True

instance (c : Conf T) (b : Label T) : Decidable (Uninterrupted c b) := by
  cases b <;> simp only [Uninterrupted] <;> infer_instance

/-- At most one thread is in its section, and the word has its id. -/
def Exclusive (ids : Tids T) (c : Conf T) : Prop :=
  (∀ t u, c.pc t = .holding → c.pc u = .holding → t = u) ∧
    ∀ t, c.pc t = .holding → tidPart c.gate = ids.tid t

/-- The word is cleared. -/
theorem Inv.clear {ids : Tids T} {c : Conf T} (hg : tidPart c.gate = 0#32)
    (ho : ∀ u, (c.pc u).owns = false) : Inv ids c := by
  intro u
  refine ⟨fun h => by simp [ho u] at h,fun _ he => ids.nonzero u ?_⟩
  rw [← he,hg]

theorem Inv.owner_unique {ids : Tids T} {c : Conf T} (hi : Inv ids c) {t u : T}
    (ht : tidPart c.gate = ids.tid t) (hu : (c.pc u).owns) : u = t :=
  ids.injective (((hi u).1 hu).symm.trans ht)

theorem Inv.unowned {ids : Tids T} {c : Conf T} (hi : Inv ids c) (h0 : tidPart c.gate = 0#32)
    (u : T) : (c.pc u).owns = false := by
  cases hu : (c.pc u).owns with
  | false => rfl
  | true => exact absurd (((hi u).1 hu).symm.trans h0) (ids.nonzero u)

variable [DecidableEq T]

def Conf.goto (c : Conf T) (t : T) (p : Thread) : Conf T := ⟨c.gate,Function.update c.pc t p⟩

/-- The thread's own code. -/
def run (ids : Tids T) (c : Conf T) (t : T) : Option (Conf T) :=
  match c.pc t with
  | .outside => some (c.goto t (.locking .exchange))
  | .locking .exchange =>
    if c.gate = 0#32 then some ⟨ids.tid t,Function.update c.pc t .holding⟩
    else some (c.goto t (.locking .syscall))
  | .locking .syscall => some (c.goto t (.locking .kernel))
  | .locking .granted => some (c.goto t .holding)
  | .holding => some (c.goto t (.unlocking .exchange))
  | .unlocking .exchange =>
    if c.gate = ids.tid t then some ⟨0#32,Function.update c.pc t .outside⟩
    else some (c.goto t (.unlocking (.test c.gate)))
  | .unlocking (.test expected) =>
    if expected &&& maskOutFutexWaiters ≠ ids.tid t then some (c.goto t .threw)
    else some (c.goto t (.unlocking .syscall))
  | .locking .kernel | .unlocking .syscall | .threw | .aborted => none

def fire (ids : Tids T) (c : Conf T) : Label T → Option (Conf T)
  | .run t => run ids c t
  | .queue t flags =>
    if c.pc t = .locking .kernel then some ⟨setFlags c.gate flags,c.pc⟩ else none
  | .acquire t flags =>
    if c.pc t = .locking .kernel ∧ tidPart c.gate = 0#32 then
      some ⟨setFlags (ids.tid t) flags,Function.update c.pc t (.locking .granted)⟩
    else none
  -- `futex_lock_pi` returns 0 and `lock` returns
  | .interrupt t _ =>
    if c.pc t = .locking .kernel then some (c.goto t .holding) else none
  | .unlockPi t waiter flags =>
    if c.pc t = .unlocking .syscall then
      if tidPart c.gate = ids.tid t then
        match waiter with
        | none => some ⟨0#32,Function.update c.pc t .outside⟩
        | some u =>
          if c.pc u = .locking .kernel then
            some ⟨setFlags (ids.tid u) flags,
              Function.update (Function.update c.pc u (.locking .granted)) t .outside⟩
          else none
      else some (c.goto t .aborted)
    else none

/-- Any threads of `T` on one `fu_lock`. -/
def fuLock (ids : Tids T) : System (Conf T) (Label T) where
  init c := c = start
  fire := fire ids

/-- A thread moves on without a change of hands. -/
theorem Inv.same {ids : Tids T} {c c' : Conf T} (hi : Inv ids c) {t : T} {q : Thread}
    (hg : tidPart c'.gate = tidPart c.gate) (hp : c'.pc = Function.update c.pc t q)
    (ho : q.owns → (c.pc t).owns) (ha : q.away → (c.pc t).away) : Inv ids c' := by
  intro u
  rw [hg,hp]
  by_cases hut : u = t
  · subst hut
    simp only [Function.update_self]
    exact ⟨fun h => (hi u).1 (ho h),fun h => (hi u).2 (ha h)⟩
  · simpa [hut] using hi u

/-- The word has passed to `t`. -/
theorem Inv.pass {ids : Tids T} {c : Conf T} {t : T} (hg : tidPart c.gate = ids.tid t)
    (hq : (c.pc t).away = false) (ho : ∀ u, u ≠ t → (c.pc u).owns = false) : Inv ids c := by
  intro u
  by_cases hut : u = t
  · subst hut
    exact ⟨fun _ => hg,fun h => by simp [hq] at h⟩
  · refine ⟨fun h => by simp [ho u hut] at h,fun _ he => hut (ids.injective ?_)⟩
    rw [← he,hg]

theorem inv_run {ids : Tids T} {c c' : Conf T} {t : T} (hi : Inv ids c)
    (h : run ids c t = some c') : Inv ids c' := by
  unfold run at h
  split at h
  case h_1 ht =>
    obtain rfl := Option.some.inj h
    exact hi.same rfl rfl (by simp [Thread.owns]) (by simp [ht,Thread.away])
  case h_2 ht =>
    split at h <;> obtain rfl := Option.some.inj h
    · rename_i h0
      have hno := hi.unowned (by simp [h0])
      refine Inv.pass (t:=t) (ids.masked t) (by simp [Thread.away]) fun u hut => ?_
      simpa [hut] using hno u
    · exact hi.same rfl rfl (by simp [Thread.owns]) (by simp [ht,Thread.away])
  case h_3 ht =>
    obtain rfl := Option.some.inj h
    exact hi.same rfl rfl (by simp [Thread.owns]) (by simp [ht,Thread.away])
  case h_4 ht =>
    obtain rfl := Option.some.inj h
    exact hi.same rfl rfl (by simp [ht,Thread.owns]) (by simp [Thread.away])
  case h_5 ht =>
    obtain rfl := Option.some.inj h
    exact hi.same rfl rfl (by simp [ht,Thread.owns]) (by simp [Thread.away])
  case h_6 ht =>
    split at h <;> obtain rfl := Option.some.inj h
    · rename_i hg
      refine Inv.clear tidPart_zero fun u => ?_
      by_cases hut : u = t
      · subst hut; simp [Thread.owns]
      · have hown := hi.owner_unique (t:=t) (u:=u) (by rw [hg,ids.masked])
        simpa [hut] using hown
    · exact hi.same rfl rfl (by simp [ht,Thread.owns]) (by simp [Thread.away])
  case h_7 ht =>
    split at h <;> obtain rfl := Option.some.inj h <;>
      exact hi.same rfl rfl (by simp [ht,Thread.owns]) (by simp [Thread.away])
  all_goals cases h

theorem inv_fire {ids : Tids T} {c c' : Conf T} {b : Label T} (hi : Inv ids c)
    (hb : Uninterrupted c b) (h : fire ids c b = some c') : Inv ids c' := by
  cases b with
  | run t => exact inv_run hi h
  | queue t flags =>
    simp only [fire] at h
    split at h <;> cases h
    exact hi.same (t:=t) (q:=c.pc t) (tidPart_setFlags _ _) (by simp) id id
  | acquire t flags =>
    simp only [fire] at h
    split at h <;> cases h
    next ht =>
    have hno := hi.unowned ht.2
    refine Inv.pass (t:=t) ?_ (by simp [Thread.away]) fun u hut => ?_
    · rw [tidPart_setFlags,ids.masked]
    · simpa [hut] using hno u
  | interrupt t errno => exact hb.elim
  | unlockPi t waiter flags =>
    simp only [fire] at h
    split at h
    · rename_i ht
      split at h
      · rename_i hg
        have hothers : ∀ u, u ≠ t → (c.pc u).owns = false := fun u hut => by
          simpa [hut] using hi.owner_unique (t:=t) (u:=u) hg
        split at h
        · cases h
          refine Inv.clear tidPart_zero fun u => ?_
          by_cases hut : u = t
          · subst hut; simp [Thread.owns]
          · simpa [hut] using hothers u hut
        · rename_i u
          split at h <;> cases h
          next hu =>
          have hut : u ≠ t := by rintro rfl; simp [ht] at hu
          refine Inv.pass (t:=u) ?_ (by simp [hut,Thread.away]) fun v hvu => ?_
          · rw [tidPart_setFlags,ids.masked]
          · by_cases hvt : v = t
            · subst hvt; simp [Thread.owns]
            · simpa [hvu,hvt] using hothers v hvt
      · cases h
        exact hi.same rfl rfl (by simp [Thread.owns]) (by simp [Thread.away])
    · cases h

theorem reachable_inv {ids : Tids T} {c : Conf T}
    (hr : (fuLock ids).ReachableVia Uninterrupted c) : Inv ids c := by
  refine hr.invariant (fun c hc => ?_) fun c b c' _ hi hb hf => inv_fire hi hb hf
  obtain rfl := hc
  exact Inv.clear tidPart_zero fun _ => rfl

/-- Until `FUTEX_LOCK_PI` returns without an acquisition the lock excludes; the first such
return lets its caller in without the lock. -/
theorem mutual_exclusion {ids : Tids T} {c : Conf T}
    (hr : (fuLock ids).ReachableVia Uninterrupted c) :
    Exclusive ids c ∧ ∀ b c', (fuLock ids).fire c b = some c' →
      (Exclusive ids c' ↔ Uninterrupted c b) := by
  have hexcl : ∀ c, (fuLock ids).ReachableVia Uninterrupted c → Exclusive ids c := by
    intro c hr
    have hi := reachable_inv hr
    refine ⟨fun t u ht hu => ?_,fun t ht => (hi t).1 (by simp [ht,Thread.owns])⟩
    exact hi.owner_unique ((hi u).1 (by simp [hu,Thread.owns])) (by simp [ht,Thread.owns])
  refine ⟨hexcl c hr,fun b c' hf => ⟨fun he => ?_,fun hb => hexcl c' (.step hr hb hf)⟩⟩
  cases b with
  | interrupt t errno =>
    simp only [fuLock,fire] at hf
    split at hf <;> cases hf
    next ht =>
    have hkept : tidPart c.gate = ids.tid t := he.2 t (by simp [Conf.goto])
    exact absurd hkept ((reachable_inv hr t).2 (by simp [ht,Thread.away]))
  | _ => exact trivial

/-! Thread 0 holds the lock when a signal reaches thread 1 in `FUTEX_LOCK_PI`. -/

def partyTids : Tids Party where
  tid t := BitVec.ofNat 32 (t.ctorIdx+1)
  injective := by unfold Function.Injective; decide
  nonzero := by decide
  masked := by decide

def contended : List (Label Party) :=
  [.run 0,.run 0,.run 1,.run 1,.run 1,.queue 1 futexWaiters]

def contendedConf : Conf Party :=
  ((fuLock partyTids).execVia Uninterrupted start contended).getD start

theorem contendedConf_reachable : (fuLock partyTids).ReachableVia Uninterrupted contendedConf :=
  .execViaD contended (.init rfl)

theorem mutual_exclusion_contended : Exclusive partyTids contendedConf ∧
    ∀ b c', (fuLock partyTids).fire contendedConf b = some c' →
      (Exclusive partyTids c' ↔ Uninterrupted contendedConf b) :=
  mutual_exclusion contendedConf_reachable

theorem not_mutual_exclusion : ∃ c, (fuLock partyTids).Reachable c ∧
    c.pc 0 = .holding ∧ c.pc 1 = .holding ∧ ¬ Exclusive partyTids c := by
  have hr := System.Reachable.step contendedConf_reachable.reachable (a:=.interrupt 1 .EINTR) rfl
  refine ⟨_,hr,by decide,by decide,fun he => ?_⟩
  exact absurd (he.1 0 1 (by decide) (by decide)) (by decide)

end FuLock
end Benedias
