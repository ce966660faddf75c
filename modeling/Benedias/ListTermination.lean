import Benedias.CollectCalls
import Benedias.CollectComplete
import Benedias.NodeDemand
import Mathlib.Algebra.Order.BigOperators.Group.Finset

/-! Every call on a list comes to its end, `Collect` included. The calls of a run need only so many
compare-exchanges that succeed; these bound the lists, what a walk along them takes, and how often
anyone has to start again. -/
namespace Benedias
namespace HazardPointerList

/-- A queued node takes two compare-exchanges to become free. -/
def Head.toFree : Head → ℕ
  | .gcList => 2
  | .freeList => 0

end HazardPointerList

namespace SharedList

open Interleaving LinkedChain HazardPointerList

variable {T L : Type}

/-! The compare-exchanges that a thread's call has still to succeed with. -/

def AddFor.exchanges : AddFor → ℕ
  | .acquireNode => 0
  | .prime left => 1+2*left

def PushFor.exchanges : PushFor → ℕ
  | .prime left => 2*left
  | _ => 0

def Pc.exchanges : Pc L → ℕ
  | .popLoad | .popNext _ | .popCas _ _ => 2
  | .alloc f | .addLoad _ f | .addStore _ _ f | .addCas _ f | .addFailed _ _ f => 1+f.exchanges
  | .pushCheck _ head f | .pushLoad _ head f | .pushStore _ _ head f | .pushCas _ head f
  | .pushFailed _ _ head f => 1+head.toFree+f.exchanges
  | .relGc _ _ | .relTest _ _ | .relStore _ | .relNext _ | .relPointer _ => 1
  | .delGc _ _ | .delTest _ _ | .delLoad _ | .delExchange _ _ | .delStore _ _ | .delNext _
  | .delPointer _ | .delGcPointer _ => 3
  | .remClear _ _ | .gcEnd _ _ => 1
  | _ => 0

section Exchanges

variable {c : Conf T L} {p q : Pc L} {w : Write} {n : ℕ}

theorem exchanges_check (b : Bool) : (check b q).exchanges ≤ q.exchanges := by
  cases b <;> simp [check,Pc.exchanges]

@[simp] theorem exchanges_primeFrom (k : ℕ) : (primeFrom k : Pc L).exchanges = 2*k := by
  cases k with
  | zero => rfl
  | succ k => simp only [primeFrom,Pc.exchanges,AddFor.exchanges]; omega

@[simp] theorem exchanges_scanFrom (m : HazardPointerList) : (scanFrom m n : Pc L).exchanges = 0 := by
  simp only [scanFrom]
  split <;> rfl

@[simp] theorem exchanges_gcFrom (m : HazardPointerList) : (gcFrom m n : Pc L).exchanges = 0 := by
  simp only [gcFrom]
  split
  · rfl
  · split <;> rfl

@[simp] theorem exchanges_addAfter (f : AddFor) : (f.after n : Pc L).exchanges = f.exchanges := by
  cases f <;> rfl

@[simp] theorem exchanges_pushAfter (m : HazardPointerList) (f : PushFor) :
    (f.after m n : Pc L).exchanges = f.exchanges := by
  cases f with
  | release | delete => rfl
  | prime left => exact exchanges_primeFrom left
  | collect next => exact exchanges_gcFrom m

theorem quiet_exchanges (h : p.next c = some (.none,q)) : q.exchanges ≤ p.exchanges := by
  cases p
  case relTest | delTest => rcases tested_next h with rfl | rfl <;> simp [Pc.exchanges]
  case scanHead | scanLink | gcHead =>
    cases h
    simp
  case gcPointer g nx obj =>
    cases h
    refine (exchanges_check _).trans ?_
    split
    · exact (exchanges_gcFrom _).le
    · exact Nat.le_refl _
  all_goals first
    | (cases h; done)
    | (cases h; exact Nat.le_refl _)
    | (cases h; exact exchanges_check _)
    | (cases h; split <;> exact Nat.le_refl _)
    | (simp only [Pc.next] at h; split at h <;> cases h <;> exact Nat.le_refl _)

variable [DecidableEq T] {t : T}

/-- A compare-exchange that succeeds is one of those that the call needs, or one of the two that
free a queued node. -/
theorem next_exchanges (hw : w.Ok c t) (h : p.next c = some (w,q)) :
    q.exchanges + w.updates + 2*(c.write t w).gc.length ≤ p.exchanges + 2*c.gc.length := by
  cases next_writes h with
  | quiet hq =>
    have hle := quiet_exchanges hq
    simp only [Write.updates,Conf.write]
    omega
  | @pop n d hf =>
    by_cases hn : n = c.mem.endNode <;>
      simp [hn,Conf.write,Conf.take,Write.updates,Pc.exchanges,AddFor.exchanges]
  | @add n f hf =>
    rw [exchanges_addAfter]
    simp only [Write.updates,Conf.write,Pc.exchanges]
    omega
  | @push n head f hf =>
    rw [exchanges_pushAfter]
    cases head <;>
      simp only [Write.updates,Conf.write,Conf.give,Pc.exchanges,Head.toFree,List.length_cons] <;>
      omega
  | unlink =>
    have hg := hw.1
    have hpos := List.length_pos_of_mem hg
    simp only [Write.updates,Conf.write,Conf.take,Pc.exchanges,List.length_erase_of_mem hg]
    omega
  | _ => simp [Write.updates,Conf.write,Conf.take,Conf.give,Pc.exchanges]

end Exchanges

/-! The steps to the return, on lists of at most `m` nodes. -/

/-- For one node of the gc list, with `remove` and `push`. -/
def perNode (m : ℕ) : ℕ := 16+3*m

/-- How many nodes `remove` may still have to pass to come to its node. -/
def Conf.ahead (m : ℕ) (c : Conf T L) (gcNode : ℕ) : Ref → ℕ
  | .head _ => m+1
  | .next n => (c.gc.dropWhile (· ≠ n)).idxOf gcNode

def Pc.ahead (m : ℕ) (c : Conf T L) : Pc L → ℕ
  | .remTest g _ r | .remEnd g _ r | .remNext g _ r => c.ahead m g r
  | _ => 0

def PushFor.offset : PushFor → ℕ
  | .collect _ => 3
  | _ => 0

/-- In `Collect`, besides the nodes that it has still to look at. -/
def Pc.offset (m : ℕ) : Pc L → ℕ
  | .colTest => 8+3*m+perNode m*m | .colLock => 7+3*m+perNode m*m | .scanHead => 6+3*m+perNode m*m
  | .scanTest _ => 5+perNode m*m | .scanPush _ => 4+perNode m*m | .scanLink _ => 6+perNode m*m
  | .sort => 5+perNode m*m | .gcHead => 4+perNode m*m
  | .gcNext _ => 3 | .gcObj _ _ => 2 | .gcPointer _ _ _ => 1
  | .gcStore _ _ _ => perNode m | .gcDelete _ _ _ => 15+3*m
  | .remTest _ _ _ => 11 | .remEnd _ _ _ => 10 | .remNext _ _ _ => 9 | .remExit _ _ _ => 13
  | .remExpected _ _ _ => 12 | .remDesired _ _ _ _ => 11 | .remCas _ _ _ _ _ => 10
  | .remClear _ _ => 9 | .gcEnd _ _ => 8
  | .pushCheck _ _ f | .pushLoad _ _ f | .pushStore _ _ _ f | .pushCas _ _ f => f.offset
  | .pushFailed _ _ _ f => f.offset
  | .colClear => 3 | .colDone => 2 | .colUnlock _ => 1
  | _ => 0

def Pc.cost (m : ℕ) (c : Conf T L) (p : Pc L) : ℕ :=
  p.work + p.offset m + 3*p.ahead m c + 3*((p.unread c).getD []).length +
    perNode m*((p.left c).getD []).length

/-- The compare-exchange of `remove` fails. -/
def Pc.rewalk (c : Conf T L) : Pc L → ℕ
  | .remCas _ _ r expected _ => if c.mem.deref r = expected then 0 else 1
  | _ => 0

/-- What `remove` has found has changed since. -/
def Pc.moved (c : Conf T L) : Pc L → ℕ
  | .remDesired _ _ r expected | .remCas _ _ r expected _ =>
    if c.mem.deref r = expected then 0 else 1
  | _ => 0

section Cost

variable {c d : Conf T L} {place : ℕ → Place T} {p q : Pc L} {w : Write} {m n nx : ℕ}

theorem cost_check (b : Bool) : (check b q).cost m c ≤ q.cost m c := by
  cases b
  · exact Nat.zero_le _
  · exact Nat.le_refl _

/-- Outside of `Collect`. -/
theorem cost_outside (hp : p.collecting = false) : p.cost m c = p.work := by
  cases p with
  | pushCheck n head f | pushLoad n head f | pushStore n top head f | pushCas n head f
  | pushFailed n top head f =>
    cases f with
    | collect next => cases hp
    | release | delete | prime left => rfl
  | _ => first | rfl | cases hp

theorem cost_scanFrom (hs : Shared c place) :
    (scanFrom c.mem n : Pc L).cost m c = 5 + perNode m*m + 3*(c.fixed.dropWhile (· ≠ n)).length := by
  unfold scanFrom
  split
  next hn =>
    rw [hn,(hs.fixedChain.dropWhile (.inl rfl)).eq_nil]
    simp [Pc.cost,Pc.work,Pc.offset,Pc.ahead,Pc.unread,Pc.left]
  next => simp [Pc.cost,Pc.work,Pc.offset,Pc.ahead,Pc.unread,Pc.left]

theorem cost_gcFrom : (gcFrom c.mem n : Pc L).cost m d ≤
    3 + perNode m*(d.gc.dropWhile (· ≠ n)).length := by
  unfold gcFrom
  split
  · exact Nat.le_add_right 3 _
  · split
    · exact Nat.zero_le _
    · simp [Pc.cost,Pc.work,Pc.offset,Pc.ahead,Pc.unread,Pc.left]

theorem Shared.dropWhile_eq (hs : Shared c place) {a b : List ℕ} (hl : c.gc = a++n::b) :
    c.gc.dropWhile (· ≠ n) = n::b := by
  have hn : n ∈ c.gc := by simp [hl]
  exact (hs.gcChain.dropWhile (.inr hn)).unique (hl ▸ hs.gcChain).drop

theorem ahead_pos (hs : Shared c place) {g : ℕ} {r : Ref} (hr : RefOk c.gc g r) :
    0 < c.ahead m g r := by
  cases r with
  | head head => exact Nat.succ_pos m
  | next n =>
    obtain ⟨a,b,hl,hb⟩ := hr
    have hnd := (hl ▸ hs.gcChain).drop.nodup
    have hne : n ≠ g := fun he => (List.nodup_cons.mp hnd).1 (he ▸ hb)
    simp only [Conf.ahead,hs.dropWhile_eq hl,List.idxOf_cons_ne _ hne]
    exact Nat.succ_pos _

/-- `remove` comes nearer to its node. -/
theorem ahead_next (hs : Shared c place) {g : ℕ} {r : Ref} (hg : g ∈ c.gc) (hr : RefOk c.gc g r)
    (hd : c.mem.deref r ≠ g) (hm : c.gc.length ≤ m) :
    c.ahead m g (.next (c.mem.deref r)) + 1 ≤ c.ahead m g r := by
  have hne := hs.ne_endNode (hs.born_gc (hs.deref_mem hg hr))
  cases r with
  | head head =>
    obtain rfl : head = .gcList := hr
    have hlt : c.gc.idxOf g < c.gc.length := List.idxOf_lt_length_of_mem hg
    have hderef : c.mem.deref (.head .gcList) = c.mem.gcList := rfl
    rw [hderef,Conf.ahead,Conf.ahead,hs.gcChain.dropWhile_head]
    omega
  | next n =>
    obtain ⟨a,b,hl,hb⟩ := hr
    obtain ⟨b,rfl,-⟩ := (hl ▸ hs.gcChain).tail.eq_cons hne
    have hnd := (hl ▸ hs.gcChain).drop.nodup
    have hng : n ≠ g := fun he => (List.nodup_cons.mp hnd).1 (he ▸ hb)
    have hl' : c.gc = (a++[n])++c.mem.nextOf n::b := by simp [hl]
    have hderef : c.mem.deref (.next n) = c.mem.nextOf n := rfl
    simp only [Conf.ahead,hderef,hs.dropWhile_eq hl,hs.dropWhile_eq hl',List.idxOf_cons_ne _ hng]
    exact Nat.le_refl _

theorem Shared.length_dropWhile (hs : Shared c place) {g : ℕ} (ha : At c g nx) :
    (c.gc.dropWhile (· ≠ g)).length = (c.gc.dropWhile (· ≠ nx)).length + 1 := by
  obtain ⟨l,hl,-⟩ := (hs.gcChain.dropWhile (.inr ha.mem)).eq_cons
    (hs.ne_endNode (hs.born_gc ha.mem))
  rw [← ha.next,← hs.gcChain.tail_dropWhile ha.mem,hl]
  rfl

variable [DecidableEq T] {t : T}

/-- A step of `Collect` brings it nearer to its return, or is a failed compare-exchange, which sends
it back to the head of its list. -/
theorem collect_cost (hs : Shared c place) (hp : Pos c p)
    (hown : ∀ n, p.own = some n → n ∈ c.held t) (hfixed : c.fixed.length ≤ m)
    (hgc : c.gc.length ≤ m) (h : p.next c = some (w,q)) (hc : p.collecting) :
    q.cost m (c.write t w) + 1 ≤ p.cost m c + (5+3*m)*(p.retry c + p.rewalk c) := by
  cases p
  case colTest =>
    cases h
    split <;> simp only [Pc.cost,Pc.work,Pc.offset,Pc.ahead,Pc.unread,Pc.left,Option.getD_none] <;>
      omega
  case colLock =>
    simp only [Pc.next] at h
    split at h <;> cases h
    simp only [Pc.cost,Pc.work,Pc.offset,Pc.ahead,Pc.unread,Pc.left,Option.getD_none]
    omega
  case scanHead =>
    cases h
    have hq := cost_scanFrom (L:=L) (m:=m) (n:=c.mem.nodes) hs
    rw [hs.fixedChain.dropWhile_head] at hq
    simp only [Conf.write,hq]
    simp only [Pc.cost,Pc.work,Pc.offset,Pc.ahead,Pc.unread,Pc.left,Option.getD_none]
    omega
  case scanTest n =>
    obtain ⟨l,hl,-⟩ := (hs.fixedChain.dropWhile (.inr hp)).eq_cons
      (ne_of_mem_of_not_mem hp hs.fixedChain.stop_not_mem)
    cases h
    split <;>
      simp only [Pc.cost,Pc.work,Pc.offset,Pc.ahead,Pc.unread,Pc.left,Option.getD_none,
        Option.getD_some,Conf.write,hl,List.tail_cons,List.length_cons,List.length_nil] <;>
      omega
  case scanPush n =>
    obtain ⟨l,hl,-⟩ := (hs.fixedChain.dropWhile (.inr hp)).eq_cons
      (ne_of_mem_of_not_mem hp hs.fixedChain.stop_not_mem)
    cases h
    simp only [Pc.cost,Pc.work,Pc.offset,Pc.ahead,Pc.unread,Pc.left,Option.getD_none,
      Option.getD_some,Conf.write,hl,List.tail_cons,List.length_cons,List.length_nil]
    omega
  case scanLink n =>
    have hq := cost_scanFrom (L:=L) (m:=m) (n:=c.mem.fixedLinkOf n) hs
    have ht := hs.fixedChain.tail_dropWhile hp
    cases h
    simp only [Pc.cost,Pc.work,Pc.offset,Pc.ahead,Pc.unread,Pc.left,Option.getD_none,
      Option.getD_some,ht,List.length_nil]
    exact (Nat.add_le_add_right hq.le 1).trans (by omega)
  case sort =>
    cases h
    simp only [Pc.cost,Pc.work,Pc.offset,Pc.ahead,Pc.unread,Pc.left,Option.getD_none,
      Option.getD_some,List.length_nil]
    omega
  case gcHead =>
    have hq := cost_gcFrom (c:=c) (d:=c) (m:=m) (n:=c.mem.gcList)
    rw [hs.gcChain.dropWhile_head] at hq
    have hle := Nat.mul_le_mul_left (perNode m) hgc
    cases h
    simp only [Pc.cost,Pc.work,Pc.offset,Pc.ahead,Pc.unread,Pc.left,Option.getD_none,
      Option.getD_some,List.length_nil]
    exact (Nat.add_le_add_right hq 1).trans (by omega)
  case gcNext g =>
    cases h
    simp only [Pc.cost,Pc.work,Pc.offset,Pc.ahead,Pc.unread,Pc.left,Conf.write]
    omega
  case gcObj g nx =>
    cases h
    refine (Nat.add_le_add_right (cost_check _) 1).trans ?_
    simp only [Pc.cost,Pc.work,Pc.offset,Pc.ahead,Pc.unread,Pc.left,Conf.write]
    omega
  case gcPointer g nx obj =>
    have hk : 16 ≤ perNode m := Nat.le_add_right 16 _
    have hcost : (Pc.gcPointer g nx obj : Pc L).cost m c =
        1 + perNode m + perNode m*(c.gc.dropWhile (· ≠ nx)).length := by
      simp only [Pc.cost,Pc.work,Pc.offset,Pc.ahead,Pc.unread,Pc.left,Option.getD_none,
        Option.getD_some,List.length_nil,hs.length_dropWhile hp,Nat.mul_succ]
      omega
    cases h
    refine (Nat.add_le_add_right (cost_check _) 1).trans ?_
    rw [hcost]
    split
    · refine (Nat.add_le_add_right cost_gcFrom 1).trans ?_
      simp only [Conf.write]
      omega
    · simp only [Pc.cost,Pc.work,Pc.offset,Pc.ahead,Pc.unread,Pc.left,Option.getD_none,
        Option.getD_some,List.length_nil,Conf.write]
      omega
  case gcStore g nx obj =>
    cases h
    simp only [Pc.cost,Pc.work,Pc.offset,Pc.ahead,Pc.unread,Pc.left,Conf.write,perNode]
    omega
  case gcDelete g nx obj =>
    cases h
    simp only [Pc.cost,Pc.work,Pc.offset,Pc.ahead,Pc.unread,Pc.left,Conf.write,Conf.ahead]
    omega
  case remTest g nx r =>
    have hpos := ahead_pos (m:=m) hs hp.2
    cases h
    split <;>
      simp only [Pc.cost,Pc.work,Pc.offset,Pc.ahead,Pc.unread,Pc.left,Conf.write] <;>
      omega
  case remEnd g nx r =>
    have hne := hs.ne_endNode (hs.born_gc (hs.deref_mem hp.1.mem hp.2.1))
    cases h
    simp only [if_pos hne,Pc.cost,Pc.work,Pc.offset,Pc.ahead,Pc.unread,Pc.left,Conf.write]
    omega
  case remNext g nx r =>
    have hle := ahead_next hs hp.1.mem hp.2.1 hp.2.2 hgc
    cases h
    simp only [Pc.cost,Pc.work,Pc.offset,Pc.ahead,Pc.unread,Pc.left,Conf.write]
    omega
  case remExit g nx r =>
    have hne := hs.ne_endNode (hs.born_gc (hs.deref_mem hp.1.mem hp.2.1))
    cases h
    simp only [if_neg hne,Pc.cost,Pc.work,Pc.offset,Pc.ahead,Pc.unread,Pc.left,Conf.write]
    omega
  case remExpected g nx r =>
    cases h
    simp only [Pc.cost,Pc.work,Pc.offset,Pc.ahead,Pc.unread,Pc.left,Conf.write]
    omega
  case remDesired g nx r e =>
    cases h
    simp only [Pc.cost,Pc.work,Pc.offset,Pc.ahead,Pc.unread,Pc.left,Conf.write]
    omega
  case remCas g nx r e d =>
    simp only [Pc.next] at h
    split at h <;> cases h
    case isTrue =>
      have hrest := hs.gcChain.dropWhile_erase hp.1.mem
      rw [hp.1.next] at hrest
      simp only [Pc.cost,Pc.work,Pc.offset,Pc.ahead,Pc.unread,Pc.left,Conf.write,Conf.take,hrest]
      omega
    case isFalse hd =>
      simp only [Pc.cost,Pc.work,Pc.offset,Pc.ahead,Pc.unread,Pc.left,Conf.write,Conf.ahead,
        Pc.retry,Pc.rewalk,if_neg hd]
      omega
  case remClear g nx =>
    cases h
    simp only [Pc.cost,Pc.work,Pc.offset,Pc.ahead,Pc.unread,Pc.left,Conf.write]
    omega
  case gcEnd g nx =>
    cases h
    refine (Nat.add_le_add_right (cost_check _) 1).trans ?_
    simp only [Pc.cost,Pc.work,PushFor.work,Pc.offset,PushFor.offset,Pc.ahead,Pc.unread,Pc.left,
      PushFor.left,Conf.write]
    omega
  case pushCheck n head f =>
    cases h
    refine (Nat.add_le_add_right (cost_check _) 1).trans ?_
    simp only [Pc.cost,Pc.work,Pc.offset,Pc.ahead,Pc.unread,Pc.left,Conf.write]
    omega
  case pushLoad n head f =>
    cases h
    simp only [Pc.cost,Pc.work,Pc.offset,Pc.ahead,Pc.unread,Pc.left,Conf.write]
    omega
  case pushStore n v head f | pushFailed n v head f =>
    cases f with
    | collect nx =>
      cases h
      simp only [Pc.cost,Pc.work,Pc.offset,Pc.ahead,Pc.unread,Pc.left,PushFor.left,Conf.write]
      omega
    | release | delete | prime left => cases hc
  case pushCas n head f =>
    simp only [Pc.next] at h
    split at h <;> cases h
    case isTrue =>
      cases f with
      | collect nx =>
        have hn : n ≠ nx := by
          rintro rfl
          rcases hp with he | hg
          · exact hs.ne_endNode (hs.born_held (hown n rfl)) he
          · exact hs.held_gc (hown n rfl) hg
        have hrest : ((c.write t (.push head n)).gc.dropWhile (· ≠ nx)) =
            c.gc.dropWhile (· ≠ nx) := by
          cases head
          · exact dropWhile_cons_ne hn
          · rfl
        refine (Nat.add_le_add_right cost_gcFrom 1).trans ?_
        simp only [hrest,Pc.cost,Pc.work,PushFor.work,Pc.offset,PushFor.offset,Pc.ahead,Pc.unread,
          Pc.left,PushFor.left,Option.getD_none,Option.getD_some,List.length_nil]
        omega
      | release | delete | prime left => cases hc
    case isFalse hf =>
      simp only [Pc.cost,Pc.work,Pc.offset,Pc.ahead,Pc.unread,Pc.left,Conf.write,Pc.retry,
        Pc.rewalk,if_neg hf]
      omega
  case colClear | colDone | colUnlock =>
    cases h
    exact Nat.le_refl _
  all_goals cases hc

theorem next_cost (hs : Shared c place) (hp : Pos c p) (hown : ∀ n, p.own = some n → n ∈ c.held t)
    (hfixed : c.fixed.length ≤ m) (hgc : c.gc.length ≤ m) (h : p.next c = some (w,q)) :
    q.cost m (c.write t w) + 1 ≤ p.cost m c + (5+3*m)*(p.retry c + p.rewalk c) := by
  cases hc : p.collecting with
  | true => exact collect_cost hs hp hown hfixed hgc h hc
  | false =>
    obtain ⟨hwork,hq⟩ := next_work h hc
    rw [cost_outside hc,cost_outside hq]
    have hle : 4*p.retry c ≤ (5+3*m)*(p.retry c + p.rewalk c) :=
      Nat.mul_le_mul (by omega) (Nat.le_add_right _ _)
    omega

/-- What the thread owes: the steps to its return, and a new start if what it has read is out of
date. -/
def Pc.debt (m : ℕ) (c : Conf T L) (p : Pc L) : ℕ := p.cost m c + (5+3*m)*(p.stale c + p.moved c)

section Moved

omit [DecidableEq T]

theorem moved_check (b : Bool) : (check b q).moved d ≤ q.moved d := by
  cases b
  · exact Nat.zero_le _
  · exact Nat.le_refl _

theorem moved_scanFrom (s : HazardPointerList) : (scanFrom s n : Pc L).moved d = 0 := by
  simp only [scanFrom]
  split <;> rfl

theorem moved_gcFrom (s : HazardPointerList) : (gcFrom s n : Pc L).moved d = 0 := by
  simp only [gcFrom]
  split
  · rfl
  · split <;> rfl

theorem moved_pushAfter (s : HazardPointerList) (f : PushFor) :
    (f.after s n : Pc L).moved d = 0 := by
  cases f with
  | release | delete => rfl
  | prime left => cases left <;> rfl
  | collect next => exact moved_gcFrom s

theorem quiet_moved (h : p.next c = some (.none,q)) : q.moved c + p.rewalk c ≤ p.moved c := by
  cases p
  case relTest | delTest => rcases tested_next h with rfl | rfl <;> exact Nat.zero_le _
  case remCas =>
    simp only [Pc.next] at h
    split at h <;> cases h
    next hd => simp [Pc.rewalk,Pc.moved,hd]
  case remExpected =>
    cases h
    simp [Pc.moved,Pc.rewalk]
  case remDesired => cases h; exact Nat.le_refl _
  case scanHead | scanLink => cases h; exact (moved_scanFrom _).le
  case gcHead => cases h; exact (moved_gcFrom _).le
  case gcPointer g nx obj =>
    cases h
    refine (moved_check _).trans ?_
    split
    · exact (moved_gcFrom _).le
    · exact Nat.le_refl _
  all_goals first
    | (cases h; done)
    | (cases h; exact Nat.le_refl _)
    | (cases h; exact moved_check _)
    | (cases h; split <;> exact Nat.le_refl _)
    | (simp only [Pc.next] at h; split at h <;> cases h <;> exact Nat.le_refl _)

end Moved

theorem next_moved (h : p.next c = some (w,q)) :
    q.moved (c.write t w) + p.rewalk c ≤ p.moved c := by
  cases next_writes h with
  | quiet hq => exact quiet_moved hq
  | pop hf => split <;> exact Nat.le_refl _
  | @add n f hf => cases f <;> exact Nat.le_refl _
  | push hf => exact (moved_pushAfter _ _).le
  | unlink => simp [Pc.moved,Pc.rewalk]
  | _ => exact Nat.le_refl _

theorem next_debt (hs : Shared c place) (hp : Pos c p) (hown : ∀ n, p.own = some n → n ∈ c.held t)
    (hfixed : c.fixed.length ≤ m) (hgc : c.gc.length ≤ m) (h : p.next c = some (w,q)) :
    q.debt m (c.write t w) + 1 ≤ p.debt m c := by
  have hcost := next_cost hs hp hown hfixed hgc h
  have hstale := next_stale (t:=t) h
  have hmoved := next_moved (t:=t) h
  have hle : (5+3*m)*(q.stale (c.write t w) + q.moved (c.write t w)) +
      (5+3*m)*(p.retry c + p.rewalk c) ≤ (5+3*m)*(p.stale c + p.moved c) := by
    rw [← Nat.mul_add]
    exact Nat.mul_le_mul_left _ (by omega)
  simp only [Pc.debt]
  omega

end Cost

section Others

variable [DecidableEq T] {c : Conf T L} {place : ℕ → Place T} {t u : T} {q : Pc L} {w : Write}
  {m : ℕ}

theorem unread_other (hi : Inv c place) (h : (c.pc u).next c = some (w,q)) :
    (c.pc t).unread (c.write u w) = (c.pc t).unread c := by
  rcases fixed_write (c:=c) (t:=u) (w:=w) with he | ⟨n,rfl,he⟩
  · exact unread_same he
  · exact unread_cons (hi.pos t) he (hi.adding u n (next_add h))

theorem conf_ahead_other {g : ℕ} {r : Ref} (hr : RefOk c.gc g r)
    (hgc : (c.write u w).gc = c.gc ∨ ∃ n, n ∉ c.gc ∧ (c.write u w).gc = n::c.gc) :
    (c.write u w).ahead m g r = c.ahead m g r := by
  cases r with
  | head head => rfl
  | next k =>
    rcases hgc with he | ⟨n,hn,he⟩
    · simp only [Conf.ahead,he]
    · have hne : n ≠ k := (ne_of_mem_of_not_mem hr.mem hn).symm
      simp only [Conf.ahead,he,dropWhile_cons_ne hne]

theorem ahead_other (hi : Inv c place) (h : (c.pc u).next c = some (w,q)) (hw : w.popOk c)
    (hut : t ≠ u) : (c.pc t).ahead m (c.write u w) = (c.pc t).ahead m c := by
  have hgc : (c.pc t).critical → (c.write u w).gc = c.gc ∨
      ∃ n, n ∉ c.gc ∧ (c.write u w).gc = n::c.gc := fun hc => by
    rcases gc_write (c:=c) (t:=u) (hi.not_locked h hut hc) with ⟨he,-⟩ | ⟨n,rfl,he⟩
    · exact .inl he
    · exact .inr ⟨n,hi.shared.held_gc (hi.ok h hw).1,he⟩
  have hpos := hi.pos t
  generalize hp : c.pc t = p at hgc hpos
  cases p with
  | remTest g nx r => exact conf_ahead_other hpos.2 (hgc rfl)
  | remEnd g nx r | remNext g nx r => exact conf_ahead_other hpos.2.1 (hgc rfl)
  | _ => rfl

theorem cost_other (hi : Inv c place) (h : (c.pc u).next c = some (w,q)) (hw : w.popOk c)
    (hut : t ≠ u) : (c.pc t).cost m (c.write u w) = (c.pc t).cost m c := by
  simp only [Pc.cost,unread_other hi h,ahead_other hi h hw hut,left_other hi h hw hut]

/-- What `remove` has found changes only by another thread's compare-exchange. -/
theorem moved_other (hi : Inv c place) (h : (c.pc u).next c = some (w,q)) (hw : w.popOk c) :
    (c.pc t).moved (c.write u w) ≤ (c.pc t).moved c + w.updates := by
  have hle : ∀ d : Conf T L, (c.pc t).moved d ≤ 1 := fun d => by
    cases c.pc t <;> simp only [Pc.moved] <;> first | omega | (split <;> omega)
  by_cases hup : w.updates = 0
  · have hderef : ∀ g r, RefOk c.gc g r → (c.write u w).mem.deref r = c.mem.deref r := by
      intro g r hr
      cases r with
      | head head => exact (write_head hup).2 head
      | next n =>
        refine (hi.shared.grows (hi.ok h hw) ?_).next n hr.mem
        rintro r g d rfl
        cases hup
    have hpos := hi.pos t
    generalize c.pc t = p at hpos
    refine Nat.le_add_right_of_le (le_of_eq ?_)
    cases p with
    | remDesired g nx r e => simp only [Pc.moved,hderef g r hpos.2.1]
    | remCas g nx r e d => simp only [Pc.moved,hderef g r hpos.2.1]
    | _ => rfl
  · have hmoved := hle (c.write u w)
    omega

theorem debt_other (hi : Inv c place) (h : (c.pc u).next c = some (w,q)) (hw : w.popOk c)
    (hut : t ≠ u) :
    (c.pc t).debt m (c.write u w) ≤ (c.pc t).debt m c + (5+3*m)*w.updates := by
  have hstale := stale_other hi h hw hut.symm
  have hmoved := moved_other (t:=t) hi h hw
  have hone : (∀ d : Conf T L, (c.pc t).stale d = 0) ∨ ∀ d : Conf T L, (c.pc t).moved d = 0 := by
    cases c.pc t with
    | remDesired | remCas => exact .inl fun _ => rfl
    | _ => exact .inr fun _ => rfl
  have hle : (c.pc t).stale (c.write u w) + (c.pc t).moved (c.write u w) ≤
      (c.pc t).stale c + (c.pc t).moved c + w.updates := by
    rcases hone with hz | hz <;> simp only [hz] at * <;> omega
  have hmul : (5+3*m)*((c.pc t).stale (c.write u w) + (c.pc t).moved (c.write u w)) ≤
      (5+3*m)*((c.pc t).stale c + (c.pc t).moved c) + (5+3*m)*w.updates := by
    rw [← Nat.mul_add]
    exact Nat.mul_le_mul_left _ hle
  simp only [Pc.debt,cost_other hi h hw hut]
  omega

end Others

/-! Along a run. -/

/-- The compare-exchanges that a call needs; a queued node needs two more, in some `Collect`. -/
def callExchanges (_ : Conf T L) : Label T L → ℕ
  | .acquireNode _ => 2
  | .prime _ nodeCount => 2*nodeCount
  | .release _ _ _ => 1
  | .delete _ _ _ => 3
  | _ => 0

/-- The steps of a call that nothing gets in the way of, on lists of at most `m` nodes. -/
def callCost (m : ℕ) (_ : Conf T L) : Label T L → ℕ
  | .acquireNode _ => 7
  | .prime _ nodeCount => 8*nodeCount
  | .acquire _ _ _ => 5
  | .validate _ _ _ => 2
  | .clear _ _ => 2
  | .release _ _ _ => 9
  | .delete _ _ _ => 13
  | .collect _ => 8+3*m+perNode m*m
  | .step _ | .store _ _ => 0

def stepped (_ : Conf T L) : Label T L → ℕ
  | .step _ => 1
  | _ => 0

def updates (c : Conf T L) (a : Label T L) : ℕ := (c.writeOf a).updates

section Sum

variable [Fintype T] {c c' d : Conf T L} {place : ℕ → Place T} {t : T} {p : Pc L} {m : ℕ}

/-- The compare-exchanges that are still needed. -/
def needs (c : Conf T L) : ℕ := ∑ t, (c.pc t).exchanges + 2*c.gc.length

def debts (m : ℕ) (c : Conf T L) : ℕ := ∑ t, (c.pc t).debt m c

omit [Fintype T] in
theorem debt_same (hm : d.mem = c.mem) (hg : d.gc = c.gc) (hf : d.fixed = c.fixed) (p : Pc L) :
    p.debt m d = p.debt m c := by
  have hahead : p.ahead m d = p.ahead m c := by
    cases p with
    | remTest g nx r | remEnd g nx r | remNext g nx r =>
      cases r <;> simp only [Pc.ahead,Conf.ahead,hg]
    | _ => rfl
  have hmoved : p.moved d = p.moved c := by cases p <;> simp only [Pc.moved,hm]
  simp only [Pc.debt,Pc.cost,stale_congr hm,hmoved,hahead,unread_same hf,left_same hg]

variable [DecidableEq T] [DecidableEq L] {a : Label T L}

omit [Fintype T] in
/-- A call. -/
theorem fire_enter (m : ℕ) (h : fire c a = some c') (ha : ∀ t, a ≠ .step t) :
    c'.mem = c.mem ∧ c'.gc = c.gc ∧ c'.fixed = c.fixed ∧
      (c'.pc = c.pc ∧ callCost m c a = 0 ∧ callExchanges c a = 0 ∨
        ∃ t p, c.pc t = .idle ∧ c'.pc = Function.update c.pc t p ∧
          p.debt m c = callCost m c a ∧ p.exchanges = callExchanges c a) := by
  cases a with
  | step t => exact absurd rfl (ha t)
  | store l obj =>
    cases h
    exact ⟨rfl,rfl,rfl,.inl ⟨rfl,rfl,rfl⟩⟩
  | acquire t n l | validate t n l | clear t n | release t n drop | delete t n drop =>
    simp only [fire,Conf.call] at h
    split at h <;> cases h
    next hn => exact ⟨rfl,rfl,rfl,.inr ⟨t,_,hn.1,rfl,rfl,rfl⟩⟩
  | acquireNode t =>
    simp only [fire] at h
    split at h <;> cases h
    next ht => exact ⟨rfl,rfl,rfl,.inr ⟨t,_,ht,rfl,rfl,rfl⟩⟩
  | prime t k =>
    simp only [fire] at h
    split at h <;> cases h
    next ht =>
      refine ⟨rfl,rfl,rfl,.inr ⟨t,_,ht,rfl,?_,exchanges_primeFrom k⟩⟩
      have hmoved : (primeFrom k : Pc L).moved c = 0 := by cases k <;> rfl
      obtain ⟨hwork,hc⟩ := primeFrom_work (L:=L) k
      simp only [Pc.debt,cost_outside hc,hwork,primeFrom_stale,hmoved,callCost]
      omega
  | collect t =>
    simp only [fire] at h
    split at h <;> cases h
    next ht =>
      refine ⟨rfl,rfl,rfl,.inr ⟨t,_,ht,rfl,?_,rfl⟩⟩
      simp [Pc.debt,Pc.cost,Pc.work,Pc.offset,Pc.ahead,Pc.unread,Pc.left,Pc.stale,Pc.moved,callCost]

theorem fire_needs (hi : Inv c place) (hw : PopCurrent c a) (h : fire c a = some c') :
    needs c' + updates c a ≤ needs c + callExchanges c a := by
  by_cases ha : ∃ t, a = .step t
  · obtain ⟨t,rfl⟩ := ha
    simp only [fire,Option.map_eq_some_iff] at h
    obtain ⟨⟨w,p⟩,hn,rfl⟩ := h
    simp only [PopCurrent,Conf.writeOf,hn] at hw
    have hstep := next_exchanges (hi.ok hn hw) hn
    have hsum := sum_changed (t:=t) (f:=fun u => (((c.write t w).setPc t p).pc u).exchanges)
      (g:=fun u => (c.pc u).exchanges) fun u hu => congrArg Pc.exchanges (pc_step hu)
    have hpc : ((c.write t w).setPc t p).pc t = p := by simp [Conf.setPc]
    have hgc : ((c.write t w).setPc t p).gc = (c.write t w).gc := rfl
    simp only [hpc] at hsum
    simp only [needs,updates,callExchanges,Conf.writeOf,hn,hgc]
    omega
  · have ha : ∀ t, a ≠ .step t := fun t ht => ha ⟨t,ht⟩
    have hup : updates c a = 0 := by
      cases a with
      | step t => exact absurd rfl (ha t)
      | _ => rfl
    obtain ⟨-,hgc,-,hpc⟩ := fire_enter 0 h ha
    rcases hpc with ⟨hpc,-,hx⟩ | ⟨t,p,ht,hpc,-,hx⟩
    · simp only [needs,hgc,hpc,hup]
      omega
    · have hsum := sum_changed (t:=t) (f:=fun u => (c'.pc u).exchanges)
        (g:=fun u => (c.pc u).exchanges) fun u hu => by rw [hpc,Function.update_of_ne hu]
      have h0 : (Pc.idle : Pc L).exchanges = 0 := rfl
      simp only [hpc,Function.update_self,ht,h0,hx] at hsum
      simp only [needs,hgc,hpc,hup]
      omega

/-- Every step is paid for; one that succeeds with a compare-exchange may set others back. -/
theorem fire_debts (hi : Inv c place) (hw : PopCurrent c a) (hfixed : c.fixed.length ≤ m)
    (hgc : c.gc.length ≤ m) (h : fire c a = some c') :
    debts m c' + stepped c a ≤
      debts m c + (callCost m c a + Fintype.card T*(5+3*m)*updates c a) := by
  by_cases ha : ∃ t, a = .step t
  · obtain ⟨t,rfl⟩ := ha
    simp only [fire,Option.map_eq_some_iff] at h
    obtain ⟨⟨w,p⟩,hn,rfl⟩ := h
    simp only [PopCurrent,Conf.writeOf,hn] at hw
    have hone : ∀ u, (((c.write t w).setPc t p).pc u).debt m (c.write t w) + (if u = t then 1 else 0) ≤
        (c.pc u).debt m c + (5+3*m)*w.updates := fun u => by
      by_cases hut : u = t
      · subst hut
        have hpc : ((c.write u w).setPc u p).pc u = p := by simp [Conf.setPc]
        have hown := next_debt hi.shared (hi.pos u) (hi.own u) hfixed hgc hn
        rw [hpc,if_pos rfl]
        omega
      · rw [pc_step hut,if_neg hut]
        exact debt_other hi hn hw hut
    have hsum := Finset.sum_le_sum fun u (_ : u ∈ Finset.univ) => hone u
    simp only [Finset.sum_add_distrib,Finset.sum_ite_eq',Finset.mem_univ,if_true,Finset.sum_const,
      Finset.card_univ,Nat.nsmul_eq_mul,← Nat.mul_assoc] at hsum
    have hsame : ∀ q : Pc L, q.debt m ((c.write t w).setPc t p) = q.debt m (c.write t w) :=
      debt_same rfl rfl rfl
    simp only [debts,hsame,stepped,callCost,updates,Conf.writeOf,hn,Nat.zero_add]
    exact hsum
  · have ha : ∀ t, a ≠ .step t := fun t ht => ha ⟨t,ht⟩
    have hstep : stepped c a = 0 := by
      cases a with
      | step t => exact absurd rfl (ha t)
      | _ => rfl
    obtain ⟨hmem,hg,hf,hpc⟩ := fire_enter m h ha
    have hsame : ∀ q : Pc L, q.debt m c' = q.debt m c := debt_same hmem hg hf
    rcases hpc with ⟨hpc,-,-⟩ | ⟨t,p,ht,hpc,hx,-⟩
    · simp only [debts,hsame,hpc,hstep]
      omega
    · have hsum := sum_changed (t:=t) (f:=fun u => (c'.pc u).debt m c)
        (g:=fun u => (c.pc u).debt m c) fun u hu => by rw [hpc,Function.update_of_ne hu]
      simp only [hpc,Function.update_self,hx] at hsum
      simp only [debts,hsame,hpc,hstep]
      omega

omit [Fintype T] in
theorem fire_fixed_length (h : fire c a = some c') :
    c'.fixed.length ≤ c.fixed.length + updates c a := by
  by_cases ha : ∃ t, a = .step t
  · obtain ⟨t,rfl⟩ := ha
    simp only [fire,Option.map_eq_some_iff] at h
    obtain ⟨⟨w,p⟩,hn,rfl⟩ := h
    simp only [updates,Conf.writeOf,hn]
    rcases fixed_write (c:=c) (t:=t) (w:=w) with he | ⟨n,rfl,he⟩
    · have he : ((c.write t w).setPc t p).fixed = c.fixed := he
      rw [he]
      exact Nat.le_add_right _ _
    · exact (congrArg List.length he).le
  · obtain ⟨-,-,hf,-⟩ := fire_enter 0 h fun t ht => ha ⟨t,ht⟩
    rw [hf]
    exact Nat.le_add_right _ _

omit [Fintype T] in
/-- If nobody can go on, nobody is in a call. -/
theorem idle_of_stuck (hr : (system T L).ReachableVia Unrefilled c)
    (hstuck : ∀ t, fire c (.step t) = none) (t : T) : c.pc t = .idle := by
  obtain ⟨place,hi,hf⟩ := reachable_fields hr
  have hlocked := reachable_locked hr
  have hfound : ∀ u, c.pc u ≠ .notFound := fun u hu => by
    have hpos := hi.pos u
    rw [hu] at hpos
    exact hpos
  have hnext : ∀ u, ¬((c.pc u).next c).isSome := fun u hu => by
    have hnone := hstuck u
    simp only [fire,Option.map_eq_none_iff] at hnone
    rw [hnone] at hu
    cases hu
  have hwaits : ∀ u, (c.pc u).collecting → c.pc u = .colLock ∧ c.lock ≠ none := fun u hu => by
    rcases busy_of_collecting hu with ⟨b,hb⟩ | hb
    · exact absurd (by rw [hb]; rfl) (hnext u)
    · rcases busy_isSome (c:=c) hb with h | h | h | h
      · exact absurd h (hf.alive u)
      · exact absurd h (hfound u)
      · exact h
      · exact absurd h (hnext u)
  cases hc : (c.pc t).collecting with
  | false =>
    refine (next_isSome (c:=c) hc).resolve_right fun h => ?_
    exact (h.resolve_left (hf.alive t)).elim (hfound t) (hnext t)
  | true =>
    -- whoever has the lock is not waiting for it
    obtain ⟨u,hu⟩ := Option.ne_none_iff_exists'.mp (hwaits t hc).2
    rcases hlocked u hu with h | h | h
    · rw [(hwaits u (collecting_of_critical h)).1] at h
      cases h
    · exact absurd h (hf.alive u)
    · exact absurd h (hfound u)

/-- Every call ends: with no more than `m` compare-exchanges to succeed with in all, the threads
take so many steps at most; and when none can take another one, every call has returned. -/
theorem calls_end {as : List (Label T L)} (hm : (system T L).tally callExchanges start as ≤ m)
    (h : (system T L).execVia Unrefilled start as = some c) :
    (system T L).tally updates start as ≤ m ∧
    (system T L).tally stepped start as ≤
      (system T L).tally (callCost m) start as + Fintype.card T*(5+3*m)*m ∧
    ((∀ t, fire c (.step t) = none) → ∀ t, c.pc t = .idle) := by
  have hr : (system T L).ReachableVia Unrefilled start := .init rfl
  have hneeds : needs (start : Conf T L) = 0 :=
    (Nat.add_zero _).trans (Finset.sum_eq_zero fun _ _ => rfl)
  have hdebts : debts m (start : Conf T L) = 0 := Finset.sum_eq_zero fun _ _ => by
    simp [start,Pc.debt,Pc.cost,Pc.work,Pc.offset,Pc.ahead,Pc.unread,Pc.left,Pc.stale,Pc.moved]
  have hfixed : (start : Conf T L).fixed.length = 0 := rfl
  have hstep : ∀ s a s', (system T L).ReachableVia Unrefilled s → Unrefilled s a →
      (system T L).fire s a = some s' → needs s' + updates s a ≤ needs s + callExchanges s a :=
    fun s a s' hs hp hf => by
      obtain ⟨place,hi,-⟩ := reachable_fields hs
      exact fire_needs hi hp.1.2 hf
  obtain ⟨-,hup⟩ := hr.budget (I:=fun _ => True) (f:=needs) (i:=callExchanges) (o:=updates)
    (fun _ _ h => h) trivial (fun s a _ s' hs _ hp hf => ⟨trivial,hstep s a s' hs hp hf⟩) h
  have hsmall := hr.within (f:=fun s => needs s + s.fixed.length) (i:=callExchanges) (b:=m)
    (fun s a s' hs hp hf => by
      have h1 := hstep s a s' hs hp hf
      have h2 := fire_fixed_length hf
      omega) (by rw [hneeds,hfixed]; omega) h
  obtain ⟨-,hsteps⟩ := hr.budget (I:=fun _ => True) (f:=debts m)
    (i:=fun s a => callCost m s a + Fintype.card T*(5+3*m)*updates s a) (o:=stepped)
    (fun _ _ h => h.1) trivial
    (fun s a _ s' hs _ hp hf => by
      obtain ⟨place,hi,-⟩ := reachable_fields hs
      have hle : needs s + s.fixed.length ≤ m := hp.2
      have hgc : 2*s.gc.length ≤ needs s := Nat.le_add_left _ _
      exact ⟨trivial,fire_debts hi hp.1.1.2 (by omega) (by omega) hf⟩) hsmall
  rw [System.tally_add,System.tally_mul,hdebts] at hsteps
  have hmul := Nat.mul_le_mul_left (Fintype.card T*(5+3*m))
    (show (system T L).tally updates start as ≤ m by omega)
  exact ⟨by omega,by omega,fun hstuck => idle_of_stuck (hr.execVia h) hstuck⟩

end Sum

/-- The compare-exchange of `remove` has failed once, and `Collect` returns. -/
def endedSchedule : List (Label Party Unit) := busySchedule++steps 0 3

def endedConf : Conf Party Unit :=
  ((system Party Unit).execVia Unrefilled start endedSchedule).getD start

theorem endedConf_exec :
    (system Party Unit).execVia Unrefilled start endedSchedule = some endedConf :=
  System.execVia_getD (by decide +kernel)

theorem calls_end_endedConf :
    endedConf.held 1 = [2] ∧ (system Party Unit).tally stepped start endedSchedule = 91 ∧
    (system Party Unit).tally updates start endedSchedule ≤ 12 ∧
    (system Party Unit).tally stepped start endedSchedule ≤
      (system Party Unit).tally (callCost 12) start endedSchedule +
        Fintype.card Party*(5+3*12)*12 ∧
    ((∀ t, fire endedConf (.step t) = none) → ∀ t, endedConf.pc t = .idle) :=
  ⟨by decide +kernel,by decide +kernel,calls_end (by decide +kernel) endedConf_exec⟩

end SharedList
end Benedias
