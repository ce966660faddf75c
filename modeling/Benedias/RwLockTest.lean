import Benedias.RwClient
import Benedias.RwProgress
import Mathlib.Algebra.BigOperators.Group.List.Basic
import Mathlib.Tactic.IntervalCases

/-! The threads of the reader/writer lock test: readers that go through the shared vector, writers
that append or remove five elements one by one, and both after an upgrade of a read lock. None of
their assertions can fail, whatever their number and order. -/
namespace Benedias
namespace RwLockTest

open Interleaving FutexMachine RwControl RwClient

inductive Role
  | reader | writer | mWriter | readerWriter
  deriving DecidableEq

def Role.all : List Role := [.reader,.writer,.mWriter,.readerWriter]

/-- Program points between the calls, with the locals of `read_test` and `write_test`. -/
inductive Point
  | create | head | finished
  -- read_test, which reader_writer repeats
  | again | readSize | readLen (len : ℤ) | readNext (len xsum : ℤ) (i stop : ℕ) | readEnd (len : ℤ)
  -- try_write_modify, and write_modify if it fails
  | upgrade | upgraded | modified
  -- write_test
  | writeSize | writeLen (len : ℤ) | push (i : ℕ) | pop (i : ℕ) | written
  | unlock
  -- an assertion does not hold, or the vector is used out of its bounds
  | failed
  deriving DecidableEq

/-- `rw_args`, and the locals of the thread: `writeModified` is the flag of its
`fu_read_modifiable_lock`, which is a new one in every round. -/
structure Local where
  role : Role
  inc : Bool
  readIterations : ℕ
  writeIterations : ℕ
  writePending : Bool
  writeModified : Bool
  point : Point
  deriving DecidableEq

def maxIterations : ℕ := 2^31-1

/-- `++` on an `unsigned int` -/
def increment (n : ℕ) : ℕ := (n+1)%2^32

def Local.goTo (b : Local) (p : Point) : Local := { b with point := p }

/-- The loop condition and the lock that follows; `test_running` may be false at any time. -/
def outside (b : Local) (d : List ℤ) : List (Action (List ℤ) Local) :=
  match b.point with
  | .create => Role.all.flatMap fun r =>
    [.data d { b with role := r, inc := true, point := .head },
      .data d { b with role := r, inc := false, point := .head }]
  | .head => .data d (b.goTo .finished) ::
    match b.role with
    | .reader =>
      let b := { b with readIterations := increment b.readIterations }
      if b.readIterations < maxIterations then [.call readLock (b.goTo .readSize)]
      else [.data d (b.goTo .finished)]
    | .writer =>
      let b := { b with writeIterations := increment b.writeIterations }
      if b.writeIterations < maxIterations then [.call writeLock (b.goTo .writeSize)]
      else [.data d (b.goTo .finished)]
    | .mWriter =>
      if b.readIterations < maxIterations then
        [.call readLock { b with writeModified := false, point := .upgrade }]
      else [.data d (b.goTo .finished)]
    | .readerWriter =>
      if b.readIterations < maxIterations then
        [.call readLock { b with
          writePending := b.readIterations%101 = 0, writeModified := false, point := .again }]
      else [.data d (b.goTo .finished)]
  | _ => []

/-- After `read_test`. -/
def Local.afterRead (b : Local) : Point :=
  if b.role = .readerWriter ∧ b.writePending then
    if b.writeModified then .writeSize else .upgrade
  else .unlock

/-- After the upgrade. -/
def Local.afterModify (b : Local) : Local :=
  { b with writeModified := true, point := if b.role = .readerWriter then .again else .writeSize }

/-- After `write_test`. -/
def Local.afterWrite (b : Local) : Local :=
  if b.role = .writer then b.goTo .unlock
  else { b with writeIterations := increment b.writeIterations, writePending := false,
                point := .unlock }

/-- The branches of `write_test`. -/
def Local.writeBranch (b : Local) (len : ℤ) : Point :=
  if b.inc ∧ len < 200 then .push 1 else if ¬ b.inc ∧ len ≠ 0 then .pop 1 else .written

/-- Which call the end of the scope makes. -/
def Local.unlockCall (b : Local) : Thread :=
  match b.role with
  | .reader => readUnlock
  | .writer => writeUnlock
  | .mWriter | .readerWriter => if b.writeModified then writeUnlock else readUnlock

/-- The section of a thread, which it holds as `p` says. -/
def inside (p : Thread) (b : Local) (d : List ℤ) : List (Action (List ℤ) Local) :=
  match b.point with
  | .again => [.data d { b with readIterations := increment b.readIterations, point := .readSize }]
  | .readSize => [.data d (b.goTo (.readLen d.length))]
  | .readLen len =>
    [.data d (b.goTo (if len%5 = 0 then .readNext len 0 0 d.length else .failed))]
  | .readNext len xsum i stop =>
    [.data d (b.goTo (if i = stop then .readEnd len
      else (d[i]?).elim .failed fun x => .readNext (len-1) (xsum+x) (i+1) stop))]
  | .readEnd len => [.data d (b.goTo (if len = 0 then b.afterRead else .failed))]
  | .upgrade =>
    if b.writeModified then [.data d (b.goTo .upgraded)] else [.call tryWriteModify (b.goTo .upgraded)]
  | .upgraded => if p = .reading then [.call writeModify (b.goTo .modified)] else [.data d b.afterModify]
  | .modified => [.data d b.afterModify]
  | .writeSize => [.data d (b.goTo (.writeLen d.length))]
  | .writeLen len => [.data d (b.goTo (if len%5 = 0 then b.writeBranch len else .failed))]
  | .push i => [.data (d++[(i : ℤ)]) (b.goTo (if i < 5 then .push (i+1) else .written))]
  | .pop i =>
    [if d = [] then .data d (b.goTo .failed)
      else .data d.dropLast (b.goTo (if i < 5 then .pop (i+1) else .written))]
  | .written => [.data d b.afterWrite]
  | .unlock => [.call b.unlockCall (b.goTo .head)]
  | _ => []

def client : Client (List ℤ) Local
  | .outside, b, d => outside b d
  | p, b, d => inside p b d

/-! The vector is a sequence of blocks, at most forty. -/

def block : List ℤ := [1,2,3,4,5]

def blocks : ℕ → List ℤ
  | 0 => []
  | k+1 => blocks k ++ block

def Blocks (d : List ℤ) : Prop := ∃ k ≤ 40, d = blocks k

@[simp] theorem blocks_length (k : ℕ) : (blocks k).length = 5*k := by
  induction k with
  | zero => rfl
  | succ k ih => simp only [blocks,List.length_append,ih,block,List.length_cons,List.length_nil]; omega

@[simp] theorem blocks_sum (k : ℕ) : (blocks k).sum = 15*k := by
  induction k with
  | zero => rfl
  | succ k ih =>
    simp only [blocks,List.sum_append,ih,block,List.sum_cons,List.sum_nil]
    push_cast
    omega

theorem Blocks.length {d : List ℤ} (h : Blocks d) : d.length ≤ 200 ∧ d.length%5 = 0 := by
  obtain ⟨k,hk,rfl⟩ := h
  simp only [blocks_length]
  omega

theorem Blocks.sum {d : List ℤ} (h : Blocks d) : d.sum = 3*d.length := by
  obtain ⟨k,hk,rfl⟩ := h
  simp only [blocks_length,blocks_sum]
  push_cast
  omega

/-- Some blocks and the first `n` elements of another one. -/
def Partial (n : ℕ) (d : List ℤ) : Prop := ∃ k < 40, d = blocks k ++ block.take n

theorem Partial.push {i : ℕ} {d : List ℤ} (h : Partial i d) (hi : i < 5) :
    Partial (i+1) (d++[((i+1 : ℕ) : ℤ)]) := by
  obtain ⟨k,hk,rfl⟩ := h
  refine ⟨k,hk,?_⟩
  rw [List.append_assoc]
  interval_cases i <;> rfl

theorem Partial.pop {i : ℕ} {d : List ℤ} (h : Partial (i+1) d) (hi : i < 5) :
    Partial i d.dropLast ∧ d ≠ [] := by
  obtain ⟨k,hk,rfl⟩ := h
  refine ⟨⟨k,hk,?_⟩,?_⟩
  · rw [List.dropLast_append_of_ne_nil (by interval_cases i <;> simp [block])]
    interval_cases i <;> rfl
  · interval_cases i <;> simp [block]

theorem Partial.full {d : List ℤ} (h : Partial 5 d) : Blocks d := by
  obtain ⟨k,hk,rfl⟩ := h
  exact ⟨k+1,hk,rfl⟩

theorem Partial.none {d : List ℤ} (h : Partial 0 d) : Blocks d := by
  obtain ⟨k,hk,rfl⟩ := h
  exact ⟨k,hk.le,by simp⟩

theorem Blocks.room {d : List ℤ} (h : Blocks d) (hd : (d.length : ℤ) < 200) : Partial 0 d := by
  obtain ⟨k,hk,rfl⟩ := h
  simp only [blocks_length] at hd
  exact ⟨k,by omega,by simp⟩

theorem Blocks.last {d : List ℤ} (h : Blocks d) (hd : (d.length : ℤ) ≠ 0) : Partial 5 d := by
  obtain ⟨k,hk,rfl⟩ := h
  cases k with
  | zero => simp [blocks] at hd
  | succ k => exact ⟨k,by omega,rfl⟩

theorem Partial.length {n : ℕ} {d : List ℤ} (h : Partial n d) : d.length ≤ 200 := by
  obtain ⟨k,hk,rfl⟩ := h
  have : (block.take n).length ≤ 5 := (List.length_take_le' n block)
  simp only [List.length_append,blocks_length]
  omega

/-! The proof outline. -/

/-- In `read_test` on the vector `d`. -/
def Reads (d : List ℤ) : Point → Prop
  | .again | .readSize => True
  | .readLen len => len = d.length
  | .readNext len xsum i stop =>
    stop = d.length ∧ i ≤ stop ∧ len = (stop : ℤ)-i ∧ xsum = (d.take i).sum
  | .readEnd len => len = 0
  | _ => False

/-- In `write_test`. -/
def Writes (d : List ℤ) : Point → Prop
  | .writeLen len => Blocks d ∧ len = d.length
  | .push i => 1 ≤ i ∧ i ≤ 5 ∧ Partial (i-1) d
  | .pop i => 1 ≤ i ∧ i ≤ 5 ∧ Partial (6-i) d
  | .writeSize | .written | .unlock => Blocks d
  | p => Blocks d ∧ Reads d p

/-- The role uses a `fu_read_modifiable_lock`. -/
def Role.modifies : Role → Bool
  | .mWriter | .readerWriter => true
  | _ => false

def assertions : Assertions (List ℤ) Local where
  inv := Blocks
  out b := b.point = .create ∨ b.point = .head ∨ b.point = .finished
  toRead b := b.role = .reader ∧ b.point = .readSize ∨
    b.role.modifies ∧ b.writeModified = false ∧ (b.point = .upgrade ∨ b.point = .again)
  toWrite b := b.role = .writer ∧ b.point = .writeSize ∨ b.role.modifies ∧ b.point = .modified
  read b d := Blocks d ∧ (b.role = .reader ∧ (Reads d b.point ∨ b.point = .unlock) ∨
    b.role.modifies ∧ b.writeModified = false ∧
      (Reads d b.point ∨ b.point = .unlock ∨ b.point = .upgrade ∨ b.point = .upgraded))
  upgrade b d := Blocks d ∧ b.role.modifies ∧ b.writeModified = false ∧ b.point = .upgraded
  write b d := b.role = .writer ∧ Writes d b.point ∨
    b.role.modifies ∧ (Blocks d ∧ (b.point = .upgraded ∨ b.point = .modified) ∨
      b.writeModified ∧ Writes d b.point)

theorem inside_reads {p : Thread} {b : Local} {d : List ℤ} {a : Action (List ℤ) Local}
    (hd : Blocks d) (h : Reads d b.point) (ha : a ∈ inside p b d) :
    ∃ b', a = .data d b' ∧ b'.role = b.role ∧ b'.writeModified = b.writeModified ∧
      (Reads d b'.point ∨ b'.point = b.afterRead) := by
  simp only [inside] at ha
  cases hp : b.point with
  | again =>
    simp only [hp,List.mem_singleton] at ha
    exact ⟨_,ha,rfl,rfl,.inl trivial⟩
  | readSize =>
    simp only [hp,List.mem_singleton] at ha
    exact ⟨_,ha,rfl,rfl,.inl rfl⟩
  | readLen len =>
    simp only [hp,List.mem_singleton] at ha
    rw [hp] at h
    obtain rfl : len = d.length := h
    have h5 : (d.length : ℤ)%5 = 0 := by have := hd.length; omega
    rw [if_pos h5] at ha
    exact ⟨_,ha,rfl,rfl,.inl ⟨rfl,Nat.zero_le _,by simp,by simp⟩⟩
  | readNext len xsum i stop =>
    simp only [hp,List.mem_singleton] at ha
    rw [hp] at h
    obtain ⟨rfl,hi,rfl,rfl⟩ := h
    refine ⟨_,ha,rfl,rfl,.inl ?_⟩
    by_cases hend : i = d.length
    · simp only [hend,if_true,Local.goTo,Reads]; omega
    · have hlt : i < d.length := by omega
      simp only [hend,if_false,List.getElem?_eq_getElem hlt,Option.elim_some,Local.goTo,Reads]
      refine ⟨trivial,by omega,by push_cast; omega,?_⟩
      exact (List.sum_take_succ d i hlt).symm
  | readEnd len =>
    simp only [hp,List.mem_singleton] at ha
    rw [hp] at h
    obtain rfl : len = 0 := h
    exact ⟨_,ha,rfl,rfl,.inr rfl⟩
  | _ => rw [hp] at h; exact h.elim

theorem inside_writes {p : Thread} {b : Local} {d : List ℤ} {a : Action (List ℤ) Local}
    (hf : b.role = .readerWriter → b.writeModified) (h : Writes d b.point)
    (ha : a ∈ inside p b d) :
    (∃ d' b', a = .data d' b' ∧ b'.role = b.role ∧ b'.writeModified = b.writeModified ∧
      Writes d' b'.point) ∨ a = .call b.unlockCall (b.goTo .head) ∧ Blocks d := by
  have reads (hd : Blocks d) (hr : Reads d b.point) : ∃ d' b', a = .data d' b' ∧ b'.role = b.role ∧
      b'.writeModified = b.writeModified ∧ Writes d' b'.point := by
    obtain ⟨b',rfl,h1,h2,h3⟩ := inside_reads hd hr ha
    refine ⟨d,b',rfl,h1,h2,?_⟩
    rcases h3 with h3 | h3
    · cases hp : b'.point <;> rw [hp] at h3 <;> first | exact ⟨hd,h3⟩ | exact h3.elim
    · rw [h3,Local.afterRead]
      split
      · rename_i hw
        rw [if_pos (hf hw.1)]
        exact hd
      · exact hd
  cases hp : b.point with
  | writeSize =>
    simp only [inside,hp,List.mem_singleton] at ha
    rw [hp] at h
    exact .inl ⟨_,_,ha,rfl,rfl,h,rfl⟩
  | writeLen len =>
    simp only [inside,hp,List.mem_singleton] at ha
    rw [hp] at h
    obtain ⟨hd,rfl⟩ := h
    have h5 : (d.length : ℤ)%5 = 0 := by have := hd.length; omega
    rw [if_pos h5] at ha
    refine .inl ⟨_,_,ha,rfl,rfl,?_⟩
    simp only [Local.goTo,Local.writeBranch]
    split
    · rename_i hw
      exact ⟨le_rfl,by omega,hd.room hw.2⟩
    · split
      · rename_i hw
        exact ⟨le_rfl,by omega,hd.last hw.2⟩
      · exact hd
  | push i =>
    simp only [inside,hp,List.mem_singleton] at ha
    rw [hp] at h
    obtain ⟨h1,h5,hd⟩ := h
    have hnext := hd.push (by omega)
    rw [show i-1+1 = i by omega] at hnext
    refine .inl ⟨_,_,ha,rfl,rfl,?_⟩
    simp only [Local.goTo]
    split
    · exact ⟨by omega,by omega,hnext⟩
    · obtain rfl : i = 5 := by omega
      exact hnext.full
  | pop i =>
    simp only [inside,hp,List.mem_singleton] at ha
    rw [hp] at h
    obtain ⟨h1,h5,hd⟩ := h
    rw [show 6-i = (5-i)+1 by omega] at hd
    obtain ⟨hnext,hne⟩ := hd.pop (by omega)
    rw [if_neg hne] at ha
    refine .inl ⟨_,_,ha,rfl,rfl,?_⟩
    simp only [Local.goTo]
    split
    · exact ⟨by omega,by omega,by rw [show 6-(i+1) = 5-i by omega]; exact hnext⟩
    · obtain rfl : i = 5 := by omega
      exact hnext.none
  | written =>
    simp only [inside,hp,List.mem_singleton] at ha
    rw [hp] at h
    refine .inl ⟨_,_,ha,?_,?_,?_⟩ <;> simp only [Local.afterWrite] <;> split <;>
      first | rfl | exact h
  | unlock =>
    simp only [inside,hp,List.mem_singleton] at ha
    rw [hp] at h
    exact .inr ⟨ha,h⟩
  | again | readSize | readLen _ | readNext _ _ _ _ | readEnd _ =>
    have h' := h
    rw [hp] at h'
    exact .inl (reads h'.1 (by rw [hp]; exact h'.2))
  | _ => rw [hp] at h; exact h.2.elim

theorem outside_allows {b : Local} {d : List ℤ} {a : Action (List ℤ) Local}
    (ha : a ∈ outside b d) : assertions.Allows d .outside a := by
  simp only [outside] at ha
  cases hp : b.point with
  | create =>
    simp only [hp,List.mem_flatMap,List.mem_cons,List.not_mem_nil,or_false] at ha
    obtain ⟨r,-,rfl | rfl⟩ := ha <;> exact ⟨rfl,.inr (.inl rfl)⟩
  | head =>
    have done : ∀ b : Local, assertions.Allows d .outside (.data d (b.goTo .finished)) :=
      fun _ => ⟨rfl,.inr (.inr rfl)⟩
    simp only [hp] at ha
    rcases List.mem_cons.mp ha with rfl | ha
    · exact done b
    cases hr : b.role with
    | reader =>
      simp only [hr] at ha
      split at ha <;> obtain rfl := List.mem_singleton.mp ha
      · exact .inl ⟨rfl,.inl ⟨rfl,rfl⟩⟩
      · exact done _
    | writer =>
      simp only [hr] at ha
      split at ha <;> obtain rfl := List.mem_singleton.mp ha
      · exact .inr ⟨rfl,.inl ⟨rfl,rfl⟩⟩
      · exact done _
    | mWriter =>
      simp only [hr] at ha
      split at ha <;> obtain rfl := List.mem_singleton.mp ha
      · exact .inl ⟨rfl,.inr ⟨rfl,rfl,.inl rfl⟩⟩
      · exact done _
    | readerWriter =>
      simp only [hr] at ha
      split at ha <;> obtain rfl := List.mem_singleton.mp ha
      · exact .inl ⟨rfl,.inr ⟨rfl,rfl,.inr rfl⟩⟩
      · exact done _
  | _ => simp [hp] at ha

theorem reading_allows {b : Local} {d : List ℤ} {a : Action (List ℤ) Local}
    (h : assertions.read b d) (ha : a ∈ inside .reading b d) :
    assertions.Allows d .reading a := by
  obtain ⟨hd,⟨hr,h⟩ | ⟨hr,hf,h⟩⟩ := h
  · rcases h with h | h
    · obtain ⟨b',rfl,h1,-,h3⟩ := inside_reads hd h ha
      rw [show b.afterRead = .unlock by simp [Local.afterRead,hr]] at h3
      exact ⟨rfl,hd,.inl ⟨h1.trans hr,h3⟩⟩
    · simp only [inside,h,List.mem_singleton] at ha
      subst ha
      exact .inl ⟨by simp [Local.unlockCall,hr],.inr (.inl rfl)⟩
  · rcases h with h | h | h | h
    · obtain ⟨b',rfl,h1,h2,h3⟩ := inside_reads hd h ha
      refine ⟨rfl,hd,.inr ⟨h1 ▸ hr,h2.trans hf,?_⟩⟩
      rcases h3 with h3 | h3
      · exact .inl h3
      · rw [h3,Local.afterRead]
        split
        · simp [hf]
        · simp
    · simp only [inside,h,List.mem_singleton] at ha
      subst ha
      refine .inl ⟨?_,.inr (.inl rfl)⟩
      cases hrole : b.role <;> simp_all [Local.unlockCall,Role.modifies]
    · simp only [inside,h,hf,Bool.false_eq_true,if_false,List.mem_singleton] at ha
      subst ha
      exact .inr (.inl ⟨rfl,hd,hr,hf,rfl⟩)
    · simp only [inside,h,if_true,List.mem_singleton] at ha
      subst ha
      exact .inr (.inr ⟨rfl,.inr ⟨hr,rfl⟩⟩)

theorem writing_allows {k : Writer} {b : Local} {d : List ℤ} {a : Action (List ℤ) Local}
    (h : assertions.write b d) (ha : a ∈ inside (.writing k) b d) :
    assertions.Allows d (.writing k) a := by
  rcases h with ⟨hr,h⟩ | ⟨hr,⟨hd,h⟩ | ⟨hf,h⟩⟩
  · rcases inside_writes (by simp [hr]) h ha with ⟨d',b',rfl,h1,-,h3⟩ | ⟨rfl,hd⟩
    · exact .inl ⟨h1.trans hr,h3⟩
    · exact ⟨by simp [Local.unlockCall,hr],.inr (.inl rfl),hd⟩
  · have hb : assertions.Allows d (.writing k) (.data d b.afterModify) := by
      refine .inr ⟨hr,.inr ⟨rfl,?_⟩⟩
      simp only [Local.afterModify]
      split
      · exact ⟨hd,trivial⟩
      · exact hd
    rcases h with h | h
    · simp only [inside,h,reduceCtorEq,if_false,List.mem_singleton] at ha
      exact ha ▸ hb
    · simp only [inside,h,List.mem_singleton] at ha
      exact ha ▸ hb
  · rcases inside_writes (fun _ => hf) h ha with ⟨d',b',rfl,h1,h2,h3⟩ | ⟨rfl,hd⟩
    · exact .inr ⟨h1 ▸ hr,.inr ⟨h2.trans hf,h3⟩⟩
    · refine ⟨?_,.inr (.inl rfl),hd⟩
      cases hrole : b.role <;> simp_all [Local.unlockCall,Role.modifies]

def outline : Outline client where
  toAssertions := assertions
  acquireRead := by
    rintro b d (⟨hr,hp⟩ | ⟨hr,hf,hp | hp⟩) hd
    · exact ⟨hd,.inl ⟨hr,.inl (by rw [hp]; trivial)⟩⟩
    · exact ⟨hd,.inr ⟨hr,hf,.inr (.inr (.inl hp))⟩⟩
    · exact ⟨hd,.inr ⟨hr,hf,.inl (by rw [hp]; trivial)⟩⟩
  acquireWrite := by
    rintro b d (⟨hr,hp⟩ | ⟨hr,hp⟩) hd
    · exact .inl ⟨hr,by rw [hp]; exact hd⟩
    · exact .inr ⟨hr,.inl ⟨hd,.inr hp⟩⟩
  upgraded := by
    rintro b d ⟨-,hr,-,hp⟩ hd
    exact .inr ⟨hr,.inl ⟨hd,.inl hp⟩⟩
  refused := by
    rintro b d ⟨hd,hr,hf,hp⟩
    exact ⟨hd,.inr ⟨hr,hf,.inr (.inr (.inr hp))⟩⟩
  allows := by
    intro p b d a hb h ha
    cases p with
    | outside => exact outside_allows ha
    | reading => exact reading_allows h ha
    | writing k => exact writing_allows h ha
    | _ => simp [between] at hb

/-- A thread in a section has something to do. -/
theorem client_live {p : Thread} {b : Local} {d : List ℤ} (hp : between p) (hout : p ≠ .outside)
    (h : outline.holds p b d) : client p b d ≠ [] := by
  have some (hne : inside p b d ≠ []) : client p b d ≠ [] := by
    cases p with
    | outside => exact absurd rfl hout
    | _ => exact hne
  refine some ?_
  have reads (h : Reads d b.point) : inside p b d ≠ [] := by
    cases hb : b.point <;> rw [hb] at h <;> first | exact h.elim | simp [inside,hb]
  have writes (h : Writes d b.point) : inside p b d ≠ [] := by
    cases hb : b.point <;> rw [hb] at h <;> first | exact h.2.elim | simp [inside,hb]
  cases p with
  | outside => exact absurd rfl hout
  | reading =>
    obtain ⟨-,⟨-,h⟩ | ⟨-,hf,h⟩⟩ := h
    · rcases h with h | h
      · exact reads h
      · simp [inside,h]
    · rcases h with h | h | h | h
      · exact reads h
      · simp [inside,h]
      · simp [inside,h,hf]
      · simp [inside,h]
  | writing k =>
    rcases h with ⟨-,h⟩ | ⟨-,⟨-,h | h⟩ | ⟨-,h⟩⟩
    · exact writes h
    · simp [inside,h]
    · simp [inside,h]
    · exact writes h
  | _ => simp [between] at hp

variable {T : Type} [DecidableEq T] [Fintype T]

def gv : List ℤ := [1,2,3,4,5]

def Local.start : Local := ⟨.reader,true,0,0,false,false,.create⟩

/-- Any threads of the test, each of which takes one of the roles. -/
def rwTest (w : IntWord (Fintype.card T)) : System (ClientConf T (List ℤ) Local) (Label T) :=
  clientSystem w client gv .start

/-- A point where the locals say nothing about the vector. -/
def Point.quiet : Point → Bool
  | .create | .head | .finished | .again | .readSize | .upgrade | .upgraded | .modified
  | .writeSize | .unlock => true
  | _ => false

/-- What an assertion says of the thread's point. -/
theorem holds_point {p : Thread} {b : Local} {d : List ℤ} (h : outline.holds p b d) :
    b.point.quiet ∨ Blocks d ∧ Reads d b.point ∨ Writes d b.point := by
  have out (h : outline.out b) : b.point.quiet := by
    rcases h with h | h | h <;> rw [h] <;> rfl
  have toRead (h : outline.toRead b) : b.point.quiet := by
    rcases h with ⟨-,h⟩ | ⟨-,-,h | h⟩ <;> rw [h] <;> rfl
  have toWrite (h : outline.toWrite b) : b.point.quiet := by
    rcases h with ⟨-,h⟩ | ⟨-,h⟩ <;> rw [h] <;> rfl
  have read (h : outline.read b d) : b.point.quiet ∨ Blocks d ∧ Reads d b.point := by
    obtain ⟨hd,⟨-,h | h⟩ | ⟨-,-,h | h | h | h⟩⟩ := h <;>
      first | exact .inr ⟨hd,h⟩ | (rw [h]; exact .inl rfl)
  have upgrade (h : outline.upgrade b d) : b.point.quiet := by rw [h.2.2.2]; rfl
  have write (h : outline.write b d) : b.point.quiet ∨ Writes d b.point := by
    rcases h with ⟨-,h⟩ | ⟨-,⟨-,h | h⟩ | ⟨-,h⟩⟩ <;>
      first | exact .inr h | (rw [h]; exact .inl rfl)
  rcases p with _ | _ | _ | ⟨_ | _ | _,_⟩ | _ | ⟨_ | _,_⟩ | ⟨_ | _⟩ | ⟨_ | _⟩ | _ | _ |
    ⟨_ | _ | _⟩ | ⟨_ | _ | _,_⟩ | ⟨_ | _ | _⟩ | _ | _
  case clearReaders => exact .inl (out h.1)
  case aborted => exact h.elim
  all_goals
    first | exact .inl (out h) | exact .inl (toRead h) | exact .inl (toWrite h) |
      exact (read h).imp_right .inl | exact .inl (upgrade h) | exact (write h).imp_right .inr

theorem holds_ne_failed {p : Thread} {b : Local} {d : List ℤ} (h : outline.holds p b d) :
    b.point ≠ .failed := by
  intro hb
  rcases holds_point h with h | ⟨-,h⟩ | h
  · simp [hb,Point.quiet] at h
  · rw [hb] at h; exact h
  · rw [hb] at h; exact h.2

/-- At the end of its loop `read_test` has counted down to 0 and summed up whole blocks. -/
theorem holds_readNext {p : Thread} {b : Local} {d : List ℤ} {len xsum : ℤ} {i : ℕ}
    (h : outline.holds p b d) (hb : b.point = .readNext len xsum i i) : len = 0 ∧ xsum = 3*i := by
  have reads (hd : Blocks d) (hr : Reads d (.readNext len xsum i i)) : len = 0 ∧ xsum = 3*i := by
    obtain ⟨rfl,-,rfl,rfl⟩ := hr
    rw [List.take_length]
    exact ⟨by omega,hd.sum⟩
  rcases holds_point h with h | ⟨hd,h⟩ | h
  · simp [hb,Point.quiet] at h
  · exact reads hd (hb ▸ h)
  · rw [hb] at h; exact reads h.1 h.2

theorem Writes.length {d : List ℤ} {p : Point} (h : Writes d p) : d.length ≤ 200 := by
  cases p with
  | push i => exact h.2.2.length
  | pop i => exact h.2.2.length
  | writeLen len => exact h.1.length.1
  | writeSize | written | unlock => exact Blocks.length (d:=d) h |>.1
  | _ => exact h.1.length.1

theorem write_length {b : Local} {d : List ℤ} (h : outline.write b d) : d.length ≤ 200 := by
  rcases h with ⟨-,h⟩ | ⟨-,⟨hd,-⟩ | ⟨-,h⟩⟩
  · exact h.length
  · exact hd.length.1
  · exact h.length

/-- The test cannot fail: no thread meets an assertion that does not hold, in the lock or in the
test, or leaves the vector's bounds, the vector is a sequence of whole blocks whenever nobody writes and never longer than 200,
every reader goes through all of it and sums up whole blocks, and no thread sleeps for ever
because all the others do. -/
theorem test_passes (w : IntWord (Fintype.card T)) {c : ClientConf T (List ℤ) Local}
    (hr : (rwTest w).Reachable c) :
    (∀ t, (c.pc t).1 ≠ .aborted ∧ (c.pc t).2.point ≠ .failed) ∧
    ((∀ t, (c.pc t).1.mode ≠ .write) → Blocks c.mem.2) ∧ c.mem.2.length ≤ 200 ∧
    (∀ t len xsum i, (c.pc t).2.point = .readNext len xsum i i → len = 0 ∧ xsum = 3*i) ∧
    ∀ t, c.asleep t ≠ none → ∃ u, u ≠ t ∧ c.asleep u = none ∧
      ∃ woken c', (rwTest w).fire c (.run u 0 woken) = some c' := by
  have hi : Sound outline w c := outline.sound ⟨1,by omega,rfl⟩ (.inl rfl) hr
  refine ⟨fun t => ⟨Assertions.holds_ne_aborted (hi.holds t),holds_ne_failed (hi.holds t)⟩,hi.inv,?_,
    fun t len xsum i => holds_readNext (hi.holds t),
    fun t => hi.progress (fun p b d hp hout h => client_live hp hout h)⟩
  by_cases hw : ∀ t, (c.pc t).1.mode ≠ .write
  · exact (hi.inv hw).length.1
  · obtain ⟨t,ht⟩ := not_forall_not.mp hw
    have h := hi.holds t
    by_cases hb : between (c.pc t).1
    · cases hp : (c.pc t).1 <;> rw [hp] at hb ht h <;>
        first | exact write_length h | (simp [between,Thread.mode] at hb ht)
    · rw [mode_write_of_call (by simpa using hb) ht] at h
      exact h.2.length.1

/-- A writer has appended two elements of five, and a reader is parked at the gate. -/
def pushingSchedule : List (Label Party) :=
  [.run 0 2 none,.run 0 1 none,.run 0 0 none,.run 0 0 none,.run 0 0 none,.run 0 0 none,
    .run 0 0 none,.run 0 0 none,.run 1 0 none,.run 1 1 none,.run 1 0 none,.run 1 0 none,
    .run 1 0 none]

def pushingConf : ClientConf Party (List ℤ) Local :=
  ((rwTest partyWord).exec (start (⟨0,0⟩,gv) (.outside,.start)) pushingSchedule).getD
    (start (⟨0,0⟩,gv) (.outside,.start))

theorem pushingConf_reachable : (rwTest partyWord).Reachable pushingConf :=
  System.Reachable.execD pushingSchedule (.init rfl)

theorem test_passes_pushingConf : pushingConf.mem.2 = [1,2,3,4,5,1,2] ∧
    pushingConf.asleep 1 = some .gate ∧ (pushingConf.pc 0).1 ≠ .aborted ∧
    pushingConf.mem.2.length ≤ 200 ∧
    ∃ u, u ≠ 1 ∧ pushingConf.asleep u = none ∧
      ∃ woken c', (rwTest partyWord).fire pushingConf (.run u 0 woken) = some c' :=
  have h := test_passes partyWord pushingConf_reachable
  ⟨by decide,by decide,(h.1 0).1,h.2.2.1,h.2.2.2.2 1 (by decide)⟩

end RwLockTest
end Benedias
