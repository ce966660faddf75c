import Benedias.Gate

/-! `futex_rw_control`: the two words `gate` and `nreaders`, and every operation one atomic
step at a time. The threads run any sequence of well-bracketed sections. -/
namespace Benedias
namespace RwControl

open Interleaving FutexMachine Gate

structure Mem where
  gate : ℤ
  nreaders : ℤ
  deriving DecidableEq

/-- The two futex words. -/
inductive Word
  | gate | nreaders
  deriving DecidableEq

/-- How the result of an addition is stored in an `int`: exactly, on the counts that `n`
threads can produce. -/
structure IntWord (n : ℕ) where
  store : ℤ → ℤ
  exact : ∀ x : ℤ, -1 ≤ x → x ≤ n → store x = x

def IntWord.unbounded (n : ℕ) : IntWord n := ⟨id,fun _ _ _ => rfl⟩

/-- 32 bit two's complement. -/
def IntWord.int32 (n : ℕ) (h : n < 2^31) : IntWord n where
  store x := x.bmod (2^32)
  exact x h₁ h₂ := by
    have hn : (n : ℤ) < 2^31 := by exact_mod_cast h
    rw [Int.bmod_eq_of_le] <;> omega

/-- The three ways into a write section. -/
inductive Writer
  | writeLock | tryWriteModify | writeModify
  deriving DecidableEq

/-- The callers of `enter_gate`. -/
inductive Entry
  | readLock | writeLock | writeModify
  deriving DecidableEq

/-- The callers of `leave_gate`. -/
inductive Leaver
  | readLock | writeUnlock
  deriving DecidableEq

/-- The functions that give up a read count and wake a writer if it was the last. -/
inductive Dropper
  | readUnlock | writeModify
  deriving DecidableEq

/-- Where a thread is: outside, in a section, or at a program point of a call.
`read_lock`: `enter`, `addReader`, `leave`. `read_unlock`: `drop`, `wakeWriter`.
`write_lock`: `enter`, `announce`, then `drainWait` and `drainLoad` in a loop.
`write_unlock`: `clearReaders`, `leave`. `try_write_modify`: `tryEnter`, `dropOwn`, then as
`write_lock` from `announce`. `write_modify`: `drop`, `wakeWriter`, then as `write_lock`. -/
inductive Thread
  | outside | reading | writing (via : Writer)
  | enter (k : Entry) (pc : EnterPc) | addReader | leave (k : Leaver) (pc : LeavePc)
  | drop (k : Dropper) | wakeWriter (k : Dropper)
  | tryEnter | dropOwn
  | announce (k : Writer) | drainWait (k : Writer) (val : ℤ) | drainLoad (k : Writer)
  | clearReaders
  | aborted
  deriving DecidableEq

/-! The first program point of each operation. -/

def readLock : Thread := .enter .readLock .fast
def readUnlock : Thread := .drop .readUnlock
def writeLock : Thread := .enter .writeLock .fast
def writeUnlock : Thread := .clearReaders
def tryWriteModify : Thread := .tryEnter
def writeModify : Thread := .drop .writeModify

/-- What follows the return of `enter_gate`. -/
def Entry.entered : Entry → Thread
  | .readLock => .addReader
  | .writeLock => .announce .writeLock
  | .writeModify => .announce .writeModify

/-- What follows the return of `leave_gate`. -/
def Leaver.left : Leaver → Thread
  | .readLock => .reading
  | .writeUnlock => .outside

/-- What follows a given up read count. -/
def Dropper.dropped : Dropper → Thread
  | .readUnlock => .outside
  | .writeModify => .enter .writeModify .fast

def Entry.goOn (k : Entry) : Option EnterPc → Thread
  | some pc => .enter k pc
  | none => k.entered

def Leaver.goOn (k : Leaver) : Option LeavePc → Thread
  | some pc => .leave k pc
  | none => k.left

def Mem.setGate (m : Mem) (g : ℤ) : Mem := { m with gate := g }
def Mem.setReaders (m : Mem) (r : ℤ) : Mem := { m with nreaders := r }

@[simp] theorem Mem.setGate_gate (m : Mem) (g : ℤ) : (m.setGate g).gate = g := rfl
@[simp] theorem Mem.setGate_nreaders (m : Mem) (g : ℤ) : (m.setGate g).nreaders = m.nreaders := rfl
@[simp] theorem Mem.setReaders_gate (m : Mem) (r : ℤ) : (m.setReaders r).gate = m.gate := rfl
@[simp] theorem Mem.setReaders_nreaders (m : Mem) (r : ℤ) : (m.setReaders r).nreaders = r := rfl
@[simp] theorem Mem.setGate_self (m : Mem) : m.setGate m.gate = m := rfl

/-- `__atomic_sub_fetch(&nreaders, 1)` and what the caller does with the result. -/
def subFetch {n : ℕ} (w : IntWord n) (m : Mem) (goOn : ℤ → Thread) : Effect Mem Word Thread :=
  let val := w.store (m.nreaders-1)
  .go (m.setReaders val) (goOn val)

/-- The one step of a thread, or the calls it may make next. -/
def next {n : ℕ} (w : IntWord n) : Thread → Mem → List (Effect Mem Word Thread)
  | .outside, m => [.go m readLock,.go m writeLock]
  | .reading, m => [.go m readUnlock,.go m tryWriteModify,.go m writeModify]
  | .writing _, m => [.go m writeUnlock]
  | .enter k pc, m => [(enterGate m.gate pc).map m.setGate (fun _ => .gate) k.goOn]
  | .addReader, m => [.go (m.setReaders (w.store (m.nreaders+1))) (.leave .readLock .sub)]
  | .leave k pc, m => [(leaveGate m.gate pc).map m.setGate (fun _ => .gate) k.goOn]
  | .drop .readUnlock, m => [subFetch w m fun result =>
      -- the assertion of read_unlock on a negative result
      if 0 > result then (if result = -1 then .wakeWriter .readUnlock else .aborted)
      else Dropper.dropped .readUnlock]
  | .drop .writeModify, m => [subFetch w m fun result =>
      if 0 > result then .wakeWriter .writeModify else Dropper.dropped .writeModify]
  | .wakeWriter k, _ => [.wake .nreaders k.dropped]
  | .tryEnter, m =>
    let r := tryEnterGate m.gate
    [.go (m.setGate r.1) (if r.2 then .dropOwn else .reading)]
  | .dropOwn, m => [subFetch w m fun _ => .announce .tryWriteModify]
  | .announce k, m => [subFetch w m fun val => if 0 ≤ val then .drainWait k val else .writing k]
  | .drainWait k val, m => [futexWait m .nreaders m.nreaders val (.drainLoad k)]
  | .drainLoad k, m => [.go m (if 0 ≤ m.nreaders then .drainWait k m.nreaders else .writing k)]
  | .clearReaders, m => [.go (m.setReaders 0) (.leave .writeUnlock .sub)]
  | .aborted, _ => []

/-- `~futex_rw_control`; `none` is the call of `abort`. -/
def destroy (m : Mem) : Option Mem :=
  if m.nreaders ≠ 0 then none
  else
    let r := tryEnterGate m.gate
    if r.2 then some (m.setGate r.1) else none

variable {T : Type} [DecidableEq T] [Fintype T]

abbrev RwConf (T : Type) := Conf T Mem Word Thread

/-- Any threads of `T` on one `futex_rw_control`. -/
def rwSystem (w : IntWord (Fintype.card T)) : System (RwConf T) (Label T) :=
  machine (next w) ⟨0,0⟩ .outside

/-! The gate as the operations use it. -/

/-- How a thread of the control looks to the gate. -/
def Thread.phase : Thread → Phase
  | .enter _ pc => .entering pc
  | .wakeWriter .writeModify => .entering .fast
  | .leave _ pc => .leaving pc
  | .tryEnter => .trying
  | .writing _ | .addReader | .dropOwn | .announce _ | .drainWait _ _ | .drainLoad _
  | .clearReaders => .inside
  | .outside | .reading | .drop _ | .wakeWriter .readUnlock | .aborted => .out

def Word.asGate : Word → Option Unit
  | .gate => some ()
  | .nreaders => none

/-- Every effect of the control is an effect of a gate user, or invisible at the gate. -/
theorem effectMaps {n : ℕ} (w : IntWord n) (l : Thread) (m : Mem) (e : Effect Mem Word Thread)
    (he : e ∈ next w l m) : EffectMaps Gate.next Mem.gate Word.asGate Thread.phase m l e := by
  rcases l with _ | _ | _ | ⟨k,pc⟩ | _ | ⟨k,pc⟩ | k | k | _ | _ | k | ⟨k,v⟩ | k | _ | _
  case enter =>
    simp only [next,List.mem_singleton] at he
    subst he
    cases k <;> rcases pc with _ | e | _ | _ <;> simp only [enterGate,futexWait] <;>
      (repeat' split) <;>
      simp_all [Effect.map,EffectMaps,Gate.next,enterGate,futexWait,Thread.phase,Entry.goOn,
        Entry.entered,Phase.enter,Word.asGate]
  case leave =>
    simp only [next,List.mem_singleton] at he
    subst he
    cases k <;> cases pc <;> simp only [leaveGate] <;> (repeat' split) <;>
      simp_all [Effect.map,EffectMaps,Gate.next,leaveGate,Thread.phase,Leaver.goOn,Leaver.left,
        Phase.leave,Word.asGate]
  case drop =>
    cases k <;> simp only [next,List.mem_singleton,subFetch] at he <;> subst he <;>
      (repeat' split) <;>
      simp_all [EffectMaps,Gate.next,Thread.phase,Dropper.dropped]
  case wakeWriter =>
    simp only [next,List.mem_singleton] at he
    subst he
    cases k <;> simp [EffectMaps,Thread.phase,Dropper.dropped,Word.asGate]
  case tryEnter =>
    simp only [next,List.mem_singleton] at he
    subst he
    simp only [tryEnterGate]
    split <;> simp_all [EffectMaps,Gate.next,tryEnterGate,Thread.phase]
  case announce =>
    simp only [next,List.mem_singleton,subFetch] at he
    subst he
    split <;> simp [EffectMaps,Thread.phase]
  case drainWait =>
    simp only [next,List.mem_singleton,futexWait] at he
    subst he
    split <;> simp [EffectMaps,Thread.phase,Word.asGate]
  case drainLoad =>
    simp only [next,List.mem_singleton] at he
    subst he
    split <;> simp [EffectMaps,Thread.phase]
  case aborted => simp [next] at he
  all_goals
    simp only [next,List.mem_cons,List.not_mem_nil,or_false] at he
    rcases he with rfl | rfl | rfl <;>
      simp [EffectMaps,Gate.next,Thread.phase,readLock,writeLock,readUnlock,tryWriteModify,
        writeModify,writeUnlock,subFetch]

/-- The control seen at its gate. -/
def gateView (w : IntWord (Fintype.card T)) :
    Simulation (rwSystem (T:=T) w) (gateSystem T) :=
  projection Mem.gate Word.asGate Thread.phase
    (by rintro (_ | _) (_ | _) a ha hb <;> simp_all [Word.asGate]) (effectMaps w) ⟨0,0⟩ .outside

end RwControl
end Benedias
