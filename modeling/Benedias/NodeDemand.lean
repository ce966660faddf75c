import Benedias.SharedListIntegrity
import Mathlib.Algebra.BigOperators.Group.Finset.Basic
import Mathlib.Data.Fintype.BigOperators
import Mathlib.Order.Bounds.Defs

/-! How many nodes a list ends up with. `AcquireNode` allocates only when it finds the free list
empty, so the nodes that it allocates are those that were ever in use beyond the primed ones. -/
namespace Benedias
namespace SharedList

open Interleaving LinkedChain HazardPointerList

variable {T L : Type}

/-- A thread that has found the free list empty and whose next step is `new`. -/
def Pc.asks : Pc L → ℕ
  | .alloc .acquireNode => 1
  | _ => 0

/-- What a thread has of the list's nodes, or is about to have. -/
def Conf.share (c : Conf T L) (t : T) : ℕ := (c.held t).length + (c.pc t).asks

/-- The nodes in use: held by a thread, queued, or asked for. -/
def demand [Fintype T] (c : Conf T L) : ℕ := c.gc.length + ∑ t, c.share t

def asking [Fintype T] (c : Conf T L) : ℕ := ∑ t, (c.pc t).asks

/-- The nodes that a write leaves to nobody. -/
def Write.loses (c : Conf T L) : Write → ℕ
  | .drop _ => 1
  | .pop node desired =>
    if node = c.mem.endNode then 0
    else c.free.tail.length - (c.free.tail.dropWhile (· ≠ desired)).length
  | _ => 0

/-- `pop` finds the list empty. -/
def Write.misses (c : Conf T L) : Write → ℕ
  | .pop node _ => if node = c.mem.endNode then 1 else 0
  | _ => 0

def loses (c : Conf T L) (a : Label T L) : ℕ := (c.writeOf a).loses c

def misses (c : Conf T L) (a : Label T L) : ℕ := (c.writeOf a).misses c

def Write.news : Write → ℕ
  | .new => 1
  | _ => 0

def Pc.primes : Pc L → ℕ
  | .alloc (.prime _) => 1
  | _ => 0

def allocates (c : Conf T L) : Label T L → ℕ
  | .step t => (c.pc t).asks
  | _ => 0

def primes (c : Conf T L) : Label T L → ℕ
  | .step t => (c.pc t).primes
  | _ => 0

section Step

variable {c c' : Conf T L} {place : ℕ → Place T} {t : T} {p p' : Pc L} {w : Write}

theorem asks_check {b : Bool} : (check b p).asks = if b then p.asks else 0 := by cases b <;> rfl

@[simp] theorem asks_primeFrom {k : ℕ} : (primeFrom k : Pc L).asks = 0 := by cases k <;> rfl

@[simp] theorem asks_scanFrom {m : HazardPointerList} {n : ℕ} : (scanFrom m n : Pc L).asks = 0 := by
  simp only [scanFrom]
  split <;> rfl

@[simp] theorem asks_gcFrom {m : HazardPointerList} {n : ℕ} : (gcFrom m n : Pc L).asks = 0 := by
  simp only [gcFrom]
  split
  · rfl
  · split <;> rfl

@[simp] theorem asks_addAfter {n : ℕ} {f : AddFor} : (f.after n : Pc L).asks = 0 := by
  cases f <;> rfl

@[simp] theorem asks_pushAfter {m : HazardPointerList} {n : ℕ} {f : PushFor} :
    (f.after m n : Pc L).asks = 0 := by
  cases f with
  | release | delete => rfl
  | prime k => exact asks_primeFrom
  | collect nx => exact asks_gcFrom

theorem quiet_asks (h : p.next c = some (.none,p')) : p'.asks = 0 := by
  cases p
  case relTest | delTest => rcases tested_next h with rfl | rfl <;> rfl
  case scanHead | scanLink | gcHead =>
    cases h
    simp
  case gcPointer g nx obj =>
    cases h
    rw [asks_check]
    split
    · split
      · exact asks_gcFrom
      · rfl
    · rfl
  all_goals first
    | (cases h; done)
    | (cases h; rfl)
    | (cases h; rw [asks_check]; split <;> rfl)
    | (cases h; split <;> rfl)
    | (simp only [Pc.next] at h; split at h <;> cases h <;> rfl)

/-- A thread asks from the `pop` that finds the list empty to its `new`, one step. -/
theorem next_asks (h : p.next c = some (w,p')) : p'.asks = w.misses c := by
  cases next_writes h with
  | quiet hq => exact quiet_asks hq
  | pop hf =>
    rename_i n d
    by_cases hn : n = c.mem.endNode <;> simp [hn,Write.misses,Pc.asks]
  | new =>
    rename_i f
    cases f <;> rfl
  | add => exact asks_addAfter
  | push => exact asks_pushAfter
  | _ => rfl

theorem next_news (h : p.next c = some (w,p')) : p.asks + p.primes = w.news := by
  cases next_writes h with
  | quiet hq => cases p <;> first | rfl | cases hq
  | new =>
    rename_i f
    cases f <;> rfl
  | _ => rfl

variable [DecidableEq T]

/-- A write moves a node, makes one or loses some. -/
theorem Shared.count_write (hs : Shared c place) (hw : w.Ok c t) :
    (c.write t w).free.length + (c.write t w).gc.length + ((c.write t w).held t).length +
        w.loses c = c.free.length + c.gc.length + (c.held t).length + w.news := by
  have hgive : ∀ n ∈ c.held t, ((c.held t).erase n).length + 1 = (c.held t).length := by
    intro n hn
    have hpos := List.length_pos_of_mem hn
    rw [List.length_erase_of_mem hn]
    omega
  cases w with
  | push head n =>
    have h := hgive n hw.1
    cases head <;>
      simp only [Conf.write,Conf.give,Write.loses,Write.news,Function.update_self,List.length_cons] <;>
      omega
  | pop n d =>
    by_cases hn : n = c.mem.endNode
    · simp [Conf.write,Write.loses,Write.news,hn]
    · obtain ⟨rest,hfree,-⟩ := hs.freeChain.eq_cons (hw.1 ▸ hn)
      have hle := (List.dropWhile_suffix (fun m => decide (m ≠ d)) (l:=rest)).length_le
      simp only [Conf.write,Conf.take,Write.loses,Write.news,hn,if_false,hfree,List.tail_cons,
        Function.update_self,List.length_cons]
      omega
  | unlink r n d =>
    have hpos := List.length_pos_of_mem hw.1
    simp only [Conf.write,Conf.take,Write.loses,Write.news,Function.update_self,List.length_cons,
      List.length_erase_of_mem hw.1]
    omega
  | drop n =>
    have h := hgive n hw
    simp only [Conf.write,Conf.give,Write.loses,Write.news,Function.update_self]
    omega
  | new =>
    simp only [Conf.write,Conf.take,Write.loses,Write.news,Function.update_self,List.length_cons]
    omega
  | _ => rfl

end Step

section Sum

variable [Fintype T]

/-- A sum of which one term has changed. -/
theorem sum_changed [DecidableEq T] {f g : T → ℕ} {t : T} (h : ∀ u ≠ t, f u = g u) :
    ∑ u, f u + g t = ∑ u, g u + f t := by
  have hf := Finset.add_sum_erase Finset.univ f (Finset.mem_univ t)
  have hg := Finset.add_sum_erase Finset.univ g (Finset.mem_univ t)
  have he : ∑ u ∈ Finset.univ.erase t, f u = ∑ u ∈ Finset.univ.erase t, g u :=
    Finset.sum_congr rfl fun u hu => h u (Finset.ne_of_mem_erase hu)
  omega

end Sum

section Run

variable [Fintype T] [DecidableEq T] [DecidableEq L] {c c' : Conf T L} {place : ℕ → Place T}
  {a : Label T L}

omit [Fintype T] [DecidableEq L] in
theorem asks_setPc {t : T} {p : Pc L} (ht : c.pc t = .idle) (hp : p.asks = 0) (u : T) :
    ((c.setPc t p).pc u).asks = (c.pc u).asks := by
  by_cases hut : u = t
  · subst hut
    simp only [Conf.setPc,Function.update_self,hp,ht]
    rfl
  · simp [Conf.setPc,hut]

omit [Fintype T] in
/-- A call moves no node, and does not ask for one yet. -/
theorem fire_call (h : fire c a = some c') (ha : ∀ t, a ≠ .step t) :
    c'.free = c.free ∧ c'.gc = c.gc ∧ c'.held = c.held ∧ ∀ u, (c'.pc u).asks = (c.pc u).asks := by
  cases a with
  | step t => exact absurd rfl (ha t)
  | store l obj =>
    cases h
    exact ⟨rfl,rfl,rfl,fun _ => rfl⟩
  | acquire t n l | validate t n l | clear t n | release t n drop | delete t n drop =>
    simp only [fire,Conf.call] at h
    split at h <;> cases h
    next hn => exact ⟨rfl,rfl,rfl,asks_setPc hn.1 rfl⟩
  | acquireNode t | collect t =>
    simp only [fire] at h
    split at h <;> cases h
    next ht => exact ⟨rfl,rfl,rfl,asks_setPc ht rfl⟩
  | prime t k =>
    simp only [fire] at h
    split at h <;> cases h
    next ht => exact ⟨rfl,rfl,rfl,asks_setPc ht asks_primeFrom⟩

omit [Fintype T] [DecidableEq L] in
theorem pc_step {t u : T} {p : Pc L} {w : Write} (hu : u ≠ t) :
    ((c.write t w).setPc t p).pc u = c.pc u := by
  simp [Conf.setPc,hu]

theorem fire_asking (h : fire c a = some c') :
    asking c + misses c a = allocates c a + asking c' := by
  by_cases hstep : ∃ t, a = .step t
  · obtain ⟨t,rfl⟩ := hstep
    simp only [fire,Option.map_eq_some_iff] at h
    obtain ⟨⟨w,p⟩,hn,rfl⟩ := h
    have hsum := sum_changed (t:=t) (f:=fun u => (((c.write t w).setPc t p).pc u).asks)
      (g:=fun u => (c.pc u).asks) fun u hu => congrArg Pc.asks (pc_step hu)
    have hpc : ((c.write t w).setPc t p).pc t = p := by simp [Conf.setPc]
    have hasks := next_asks hn
    simp only [hpc] at hsum
    simp only [asking,misses,allocates,Conf.writeOf,hn]
    omega
  · have ha : ∀ t, a ≠ .step t := fun t ht => hstep ⟨t,ht⟩
    obtain ⟨-,-,-,hasks⟩ := fire_call h ha
    have hsum : asking c' = asking c := Finset.sum_congr rfl fun u _ => hasks u
    cases a with
    | step t => exact absurd rfl (ha t)
    | _ => simp [hsum,misses,allocates,Conf.writeOf,Write.misses]

/-- The nodes of the list are free, in use or lost. -/
theorem fire_demand (hi : Inv c place) (hu : Undisturbed c a) (h : fire c a = some c') :
    c.free.length + demand c + (primes c a + misses c a) =
      loses c a + (c'.free.length + demand c') := by
  by_cases hstep : ∃ t, a = .step t
  · obtain ⟨t,rfl⟩ := hstep
    simp only [fire,Option.map_eq_some_iff] at h
    obtain ⟨⟨w,p⟩,hn,rfl⟩ := h
    simp only [Undisturbed,PopCurrent,Conf.writeOf,hn] at hu
    have hcount := hi.shared.count_write (hi.ok hn hu.2)
    have hsum := sum_changed (t:=t) (f:=((c.write t w).setPc t p).share) (g:=c.share) fun u hu => by
      simp only [Conf.share,pc_step hu]
      exact congrArg (fun l => l.length + (c.pc u).asks) (held_write_of_ne hu)
    have hpc : ((c.write t w).setPc t p).pc t = p := by simp [Conf.setPc]
    have hasks := next_asks hn
    have hnews := next_news hn
    have hshare : ((c.write t w).setPc t p).share t = ((c.write t w).held t).length + p.asks := by
      simp only [Conf.share,hpc]
      rfl
    have hold : c.share t = (c.held t).length + (c.pc t).asks := rfl
    simp only [demand,primes,misses,loses,Conf.writeOf,hn]
    change _ = _ + ((c.write t w).free.length + ((c.write t w).gc.length + _))
    omega
  · have ha : ∀ t, a ≠ .step t := fun t ht => hstep ⟨t,ht⟩
    obtain ⟨hfree,hgc,hheld,hasks⟩ := fire_call h ha
    have hsum : demand c' = demand c := by
      simp only [demand,Conf.share,hgc,hheld,hasks]
    cases a with
    | step t => exact absurd rfl (ha t)
    | _ => simp [hsum,hfree,misses,primes,loses,Conf.writeOf,Write.misses,Write.loses]

/-- `e` nodes, besides the primed ones, are enough for all that is in use at any time, and for
those that were lost. -/
def Enough (as : List (Label T L)) (e : ℕ) : Prop :=
  ∀ pre post c, as = pre++post → (system T L).execVia Undisturbed start pre = some c →
    demand c + (system T L).tally loses start pre ≤ (system T L).tally primes start pre + e

section Enough

variable {as : List (Label T L)}

theorem exec_asking (h : (system T L).execVia Undisturbed start as = some c) :
    (system T L).tally misses start as = (system T L).tally allocates start as + asking c := by
  have hb := (System.ReachableVia.init rfl).balance (f:=asking) (i:=misses) (o:=allocates)
    (fun _ _ _ _ _ hf => fire_asking hf) h
  have h0 : asking (start : Conf T L) = 0 := Finset.sum_eq_zero fun _ _ => rfl
  omega

theorem exec_demand (h : (system T L).execVia Undisturbed start as = some c) :
    (system T L).tally primes start as + (system T L).tally misses start as =
      (system T L).tally loses start as + (c.free.length + demand c) := by
  have hb := (System.ReachableVia.init rfl).balance (f:=fun c => c.free.length + demand c)
    (i:=fun c a => primes c a + misses c a) (o:=loses)
    (fun s a s' hs hp hf => by
      obtain ⟨place,hi⟩ := reachable_inv hs
      exact fire_demand hi hp hf) h
  have h0 : demand (start : Conf T L) = 0 :=
    (Nat.zero_add _).trans (Finset.sum_eq_zero fun _ _ => rfl)
  rw [System.tally_add,h0] at hb
  have hfree : (start : Conf T L).free.length = 0 := rfl
  omega

omit [Fintype T] in
/-- When `pop` misses, no node is free. -/
theorem misses_free (hi : Inv c place) (h : fire c a = some c') (hm : 0 < misses c a) :
    c'.free = [] := by
  cases a with
  | step t =>
    simp only [fire,Option.map_eq_some_iff] at h
    obtain ⟨⟨w,p⟩,hn,rfl⟩ := h
    simp only [misses,Conf.writeOf,hn] at hm
    cases w with
    | pop n d =>
      by_cases he : n = c.mem.endNode
      · have hf := hi.shared.freeChain
        rw [next_pop hn,he] at hf
        simpa [Conf.setPc,Conf.write,he] using hf.eq_nil
      · simp [Write.misses,he] at hm
    | _ => exact absurd hm (Nat.lt_irrefl 0)
  | _ => exact absurd hm (Nat.lt_irrefl 0)

/-- `AcquireNode` allocates no more nodes than are needed: as many as were ever in use, or lost,
beyond the primed ones. -/
theorem allocations_least (h : (system T L).execVia Undisturbed start as = some c') :
    IsLeast {e | Enough as e} ((system T L).tally allocates start as + asking c') := by
  rw [← exec_asking h]
  refine ⟨?_,fun e he => ?_⟩
  · rintro pre post c rfl hpre
    have hd := exec_demand hpre
    have hle := System.tally_append misses post hpre
    omega
  · rcases Nat.eq_zero_or_pos ((system T L).tally misses start as) with hz | hpos
    · omega
    · obtain ⟨pre,a,post,u,v,rfl,hpre,hu,hf,hm,hz⟩ := System.exists_last h hpos
      have hr := (System.ReachableVia.init rfl).execVia hpre
      obtain ⟨place,hi⟩ := reachable_inv hr
      have hstep : (system T L).execVia Undisturbed start (pre++[a]) = some v := by
        simp [System.execVia_append,System.execVia,hpre,hu,hf]
      have hsplit : pre++a::post = (pre++[a])++post := by simp
      have hd := exec_demand hstep
      have hle := he (pre++[a]) post v hsplit hstep
      have htally := System.tally_append misses post hstep
      rw [← hsplit,hz] at htally
      rw [misses_free hi hf hm,List.length_nil] at hd
      omega

end Enough

end Run

/-- One node is primed, thread 0 takes it, and thread 1 has to allocate another one; the third node
in use is the one that thread 0 has given back in the meantime. -/
def demandSchedule : List (Label Party Unit) :=
  List.flatten [.prime 1 1::steps 1 8,.acquireNode 0::steps 0 4,.acquireNode 1::steps 1 7,
    [.store () 7],.acquire 0 2 ()::steps 0 5,.release 0 2 false::steps 0 9,.acquireNode 1::steps 1 4]

def demandConf : Conf Party Unit :=
  ((system Party Unit).execVia Undisturbed start demandSchedule).getD start

theorem demandConf_exec :
    (system Party Unit).execVia Undisturbed start demandSchedule = some demandConf := by
  rfl

theorem allocations_least_demandConf :
    demandConf.held 1 = [2,3] ∧ (system Party Unit).tally primes start demandSchedule = 1 ∧
    (system Party Unit).tally allocates start demandSchedule = 1 ∧
    IsLeast {e | Enough demandSchedule e}
      ((system Party Unit).tally allocates start demandSchedule + asking demandConf) :=
  ⟨by decide,by decide,by decide,allocations_least demandConf_exec⟩

end SharedList
end Benedias
