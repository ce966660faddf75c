import Benedias.FuLock

/-! One call of `fu_lock::unlock` on any word: `futex_unlock_pi` with the kernel's
`FUTEX_UNLOCK_PI` as a parameter, and the exception that `unlock` makes of its result. -/
namespace Benedias
namespace FuLock

open Interleaving

def futexOwnerDied : BitVec 32 := 0x40000000#32

/-- `errno` after a system call that fails. -/
inductive UnlockErrno
  | EINTR | EAGAIN | EINVAL | ENOSYS | EPERM | ESRCH
  deriving DecidableEq

/-- `futex_unlock_pi` takes these for not fatal. -/
def UnlockErrno.benign : UnlockErrno → Bool
  | .EINTR | .EAGAIN => true
  | _ => false

/-- What `FUTEX_UNLOCK_PI` does: its `errno` if it fails, and the word afterwards. -/
structure UnlockPi where
  errno : Option UnlockErrno
  gate : BitVec 32
  deriving DecidableEq

/-- The results of the functions of `bdfutex`. -/
inductive FutexOp
  | success | failed | invalid
  deriving DecidableEq

inductive Outcome
  | returned | threw | aborted
  deriving DecidableEq

/-- A call with the word it leaves; `called` is whether it has entered the kernel. -/
structure Call (R : Type) where
  result : R
  gate : BitVec 32
  called : Bool
  deriving DecidableEq

/-- The kernel gets the caller's id and the word. -/
abbrev Kernel := BitVec 32 → BitVec 32 → UnlockPi

/-- `none` is the critical error, which aborts. -/
def futexUnlockPi (kernel : Kernel) (tid gate : BitVec 32) : Call (Option FutexOp) :=
  if gate = tid then ⟨some .success,0#32,false⟩
  else
    let expected := gate &&& maskOutFutexWaiters
    if expected ≠ tid then ⟨some .invalid,gate,false⟩
    else
      let r := kernel tid gate
      if r.errno.all (·.benign) then ⟨some .success,r.gate,true⟩ else ⟨none,r.gate,true⟩

def unlock (kernel : Kernel) (tid gate : BitVec 32) : Call Outcome :=
  let r := futexUnlockPi kernel tid gate
  { r with result := match r.result with
    | some .success => .returned
    -- assert(true)
    | some .failed => .returned
    | some .invalid => .threw
    | none => .aborted }

variable {T : Type} {ids : Tids T} {kernel : Kernel} {t : T} {gate : BitVec 32}

theorem unlock_exchange (ids : Tids T) (kernel : Kernel) (t : T) :
    unlock kernel (ids.tid t) (ids.tid t) = ⟨.returned,0#32,false⟩ := by
  simp [unlock,futexUnlockPi]

theorem unlock_invalid (kernel : Kernel) (hg : gate ≠ ids.tid t) (hm : gate &&& maskOutFutexWaiters ≠ ids.tid t) :
    unlock kernel (ids.tid t) gate = ⟨.threw,gate,false⟩ := by
  simp [unlock,futexUnlockPi,hg,hm]

theorem unlock_called (kernel : Kernel) (hg : gate ≠ ids.tid t) (hm : gate &&& maskOutFutexWaiters = ids.tid t) :
    (unlock kernel (ids.tid t) gate).called = true ∧
      (unlock kernel (ids.tid t) gate).gate = (kernel (ids.tid t) gate).gate ∧
      ((kernel (ids.tid t) gate).errno = none →
        (unlock kernel (ids.tid t) gate).result = .returned) := by
  by_cases hb : (kernel (ids.tid t) gate).errno.all (·.benign)
  · simp [unlock,futexUnlockPi,hg,hm,hb]
  · simp only [unlock,futexUnlockPi,hg,hm,hb,ne_eq,not_true_eq_false,if_false]
    refine ⟨rfl,rfl,fun hn => ?_⟩
    simp [hn] at hb

/-- The fields of the word that the caller's id has no bits of. -/
theorem Tids.and_eq_zero (ids : Tids T) (t : T) {mask : BitVec 32}
    (hm : futexTidMask &&& mask = 0#32) : ids.tid t &&& mask = 0#32 := by
  rw [← ids.masked t,tidPart,BitVec.and_assoc,hm,BitVec.and_zero]

/-- Without `FUTEX_WAITERS` the word is the caller's id exactly if the caller is the owner and
`FUTEX_OWNER_DIED` is not set. -/
theorem masked_eq_iff : gate &&& maskOutFutexWaiters = ids.tid t ↔
    tidPart gate = ids.tid t ∧ gate &&& futexOwnerDied = 0#32 := by
  constructor
  · intro h
    have htid : maskOutFutexWaiters &&& futexTidMask = futexTidMask := by decide
    have hdied : maskOutFutexWaiters &&& futexOwnerDied = futexOwnerDied := by decide
    constructor
    · calc tidPart gate = (gate &&& maskOutFutexWaiters) &&& futexTidMask := by
            rw [BitVec.and_assoc,htid,tidPart]
        _ = tidPart (ids.tid t) := by rw [h,tidPart]
        _ = ids.tid t := ids.masked t
    · calc gate &&& futexOwnerDied = (gate &&& maskOutFutexWaiters) &&& futexOwnerDied := by
            rw [BitVec.and_assoc,hdied]
        _ = 0#32 := by rw [h,ids.and_eq_zero t (by decide)]
  · rintro ⟨hg,hd⟩
    have hsplit : maskOutFutexWaiters = futexTidMask ||| futexOwnerDied := by decide
    calc gate &&& maskOutFutexWaiters = (gate &&& futexTidMask) ||| (gate &&& futexOwnerDied) := by
          rw [hsplit]
          ext i hi
          simp only [BitVec.getElem_and,BitVec.getElem_or]
          cases gate[i] <;> simp
      _ = ids.tid t := by rw [hd,BitVec.or_zero]; exact hg

section Steps

variable [DecidableEq T]

/-- The steps of a thread in `unlock`, up to the system call, are those of the call. -/
theorem exec_unlock {c : Conf T} (hp : c.pc t = .unlocking .exchange) :
    (fuLock ids).exec c
      (if c.gate = ids.tid t then [.run t] else [.run t,.run t]) =
    some (if (unlock kernel (ids.tid t) c.gate).called then c.goto t (.unlocking .syscall)
      else ⟨(unlock kernel (ids.tid t) c.gate).gate,Function.update c.pc t
        (if (unlock kernel (ids.tid t) c.gate).result = .threw then .threw else .outside)⟩) := by
  by_cases hg : c.gate = ids.tid t
  · rw [hg,unlock_exchange]
    simp [System.exec,fuLock,fire,run,hp,hg]
  · by_cases hm : c.gate &&& maskOutFutexWaiters = ids.tid t
    · rw [(unlock_called kernel hg hm).1]
      simp [System.exec,fuLock,fire,run,hp,hg,hm,Conf.goto]
    · rw [unlock_invalid kernel hg hm]
      simp [System.exec,fuLock,fire,run,hp,hg,hm,Conf.goto]

end Steps

/-- `FUTEX_UNLOCK_PI` by the owner of the word succeeds, and hands the word on or clears it. -/
def Releases (kernel : Kernel) (tid : BitVec 32) : Prop :=
  ∀ gate, tidPart gate = tid → (kernel tid gate).errno = none ∧ tidPart (kernel tid gate).gate ≠ tid

/-- `unlock` throws, and leaves the word, if and only if the caller is not the owner; an owner
gives the word away, without the kernel only if `FUTEX_WAITERS` is not set. -/
structure RaisesUnlessOwner (kernel : Kernel) (tid gate : BitVec 32) : Prop where
  raises : (unlock kernel tid gate).result = .threw ∧ (unlock kernel tid gate).gate = gate ↔
    tidPart gate ≠ tid
  owner : tidPart gate = tid →
    (unlock kernel tid gate).result = .returned ∧ tidPart (unlock kernel tid gate).gate ≠ tid ∧
      ((unlock kernel tid gate).called = false → gate &&& futexWaiters = 0#32)

/-- `unlock` does what it should unless the caller owns a word with `FUTEX_OWNER_DIED`, which is
not masked out. -/
theorem unlock_raises_iff (ids : Tids T) (t : T) (gate : BitVec 32)
    (hk : Releases kernel (ids.tid t)) :
    RaisesUnlessOwner kernel (ids.tid t) gate ↔
      ¬(tidPart gate = ids.tid t ∧ gate &&& futexOwnerDied ≠ 0#32) := by
  by_cases hg : gate = ids.tid t
  · have hw : ids.tid t &&& futexWaiters = 0#32 := ids.and_eq_zero t (by decide)
    have hd : ids.tid t &&& futexOwnerDied = 0#32 := ids.and_eq_zero t (by decide)
    have hun := unlock_exchange ids kernel t
    subst hg
    refine iff_of_true ⟨?_,fun _ => ?_⟩ (by simp [hd])
    · simp [hun,ids.masked t]
    · rw [hun]
      exact ⟨rfl,by simpa using (ids.nonzero t).symm,fun _ => hw⟩
  · by_cases hm : gate &&& maskOutFutexWaiters = ids.tid t
    · obtain ⟨hown,hd⟩ := masked_eq_iff.mp hm
      obtain ⟨hcall,hgate,hret⟩ := unlock_called kernel hg hm
      obtain ⟨hok,hgone⟩ := hk gate hown
      refine iff_of_true ⟨?_,fun _ => ⟨hret hok,hgate ▸ hgone,fun h => ?_⟩⟩ (by simp [hd])
      · simp [hret hok,hown]
      · simp [hcall] at h
    · have hun := unlock_invalid kernel hg hm
      by_cases hown : tidPart gate = ids.tid t
      · have hd : gate &&& futexOwnerDied ≠ 0#32 := fun hd => hm (masked_eq_iff.mpr ⟨hown,hd⟩)
        refine iff_of_false (fun h => ?_) (by simp [hown,hd])
        exact h.raises.mp ⟨by rw [hun],by rw [hun]⟩ hown
      · refine iff_of_true ⟨?_,fun h => absurd h hown⟩ (by simp [hown])
        simp [hun,hown]

/-- A kernel in which the thread 2 is the only waiter. -/
def handOver : Kernel := fun tid gate =>
  if tidPart gate = tid then ⟨none,2#32⟩ else ⟨some .EPERM,gate⟩

theorem releases_handOver : Releases handOver (partyTids.tid 0) := by
  intro gate hg
  simp only [handOver,hg,if_true]
  decide

theorem unlock_raises_iff_handOver :
    RaisesUnlessOwner handOver (partyTids.tid 0) (1#32 ||| futexWaiters) ↔
      ¬(tidPart (1#32 ||| futexWaiters) = partyTids.tid 0 ∧
        (1#32 ||| futexWaiters) &&& futexOwnerDied ≠ 0#32) :=
  unlock_raises_iff partyTids 0 _ releases_handOver

/-- The owner of a word with `FUTEX_OWNER_DIED` is told that it is not the owner, and keeps it. -/
theorem not_unlock_raises :
    Releases handOver (partyTids.tid 0) ∧
    (unlock handOver (partyTids.tid 0) (1#32 ||| futexOwnerDied)).result = .threw ∧
    tidPart (unlock handOver (partyTids.tid 0) (1#32 ||| futexOwnerDied)).gate = partyTids.tid 0 ∧
    ¬RaisesUnlessOwner handOver (partyTids.tid 0) (1#32 ||| futexOwnerDied) := by
  have hun : unlock handOver (partyTids.tid 0) (1#32 ||| futexOwnerDied) =
      ⟨.threw,1#32 ||| futexOwnerDied,false⟩ := unlock_invalid handOver (by decide) (by decide)
  refine ⟨releases_handOver,by rw [hun],by rw [hun]; decide,fun h => ?_⟩
  exact h.raises.mp ⟨by rw [hun],by rw [hun]⟩ (by decide)

end FuLock
end Benedias
