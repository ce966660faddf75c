import Benedias.SharedListInvariant

/-! The fixed list under any threads that add nodes to it: what `nodes` and the `fixed_link`s
spell in every reachable configuration, and what a scan of `Collect` that runs beside them
visits. Nothing is assumed about the steps. -/
namespace Benedias
namespace SharedList

open Interleaving LinkedChain HazardPointerList

variable {T L : Type}

/-- The fixed list with the nodes that are about to be added to it. -/
structure FixedInv (c : Conf T L) : Prop where
  chain : Chain c.mem.fixedLinkOf c.mem.endNode c.mem.nodes c.fixed
  endNode : c.mem.endNode < c.mem.fresh
  old : ∀ n ∈ c.fixed, n < c.mem.fresh
  adding : ∀ t n, (c.pc t).adding = some n → n ∉ c.fixed ∧ n < c.mem.fresh ∧ n ≠ c.mem.endNode
  unique : ∀ t u n, (c.pc t).adding = some n → (c.pc u).adding = some n → t = u

/-- Later the list is longer at the front, and its links are the same. -/
structure Extends (c d : Conf T L) : Prop where
  fixed : ∃ a, d.fixed = a++c.fixed
  link : ∀ n ∈ c.fixed, d.mem.fixedLinkOf n = c.mem.fixedLinkOf n

/-- The writes of `Add`, and `new`, are the only ones that the fixed list sees. -/
def Write.toFixed : Write → Bool
  | .fixedLink _ _ | .new | .add _ => true
  | _ => false

theorem FixedInv.fresh_not_mem {c : Conf T L} (hi : FixedInv c) : c.mem.fresh ∉ c.fixed :=
  fun h => Nat.lt_irrefl _ (hi.old _ h)

theorem Extends.trans {c d c' : Conf T L} (h : Extends c d) (h' : Extends d c') : Extends c c' := by
  obtain ⟨a,ha⟩ := h.fixed
  obtain ⟨b,hb⟩ := h'.fixed
  refine ⟨⟨b++a,by rw [hb,ha,List.append_assoc]⟩,fun n hn => ?_⟩
  rw [h'.link n (by rw [ha]; exact List.mem_append_right a hn),h.link n hn]

section Writes

variable {c : Conf T L} {p p' : Pc L} {n v : ℕ} {w : Write} {t : T}

theorem next_fixedLink (h : p.next c = some (.fixedLink n v,p')) : p.adding = some n := by
  cases next_writes h with
  | addStore | addFailed => rfl

theorem add_found (h : p.next c = some (.add n,p')) :
    p.adding = some n ∧ c.mem.nodes = c.mem.fixedLinkOf n := by
  cases next_writes h with
  | add hf => exact ⟨rfl,hf⟩

theorem FixedInv.unique_write {u : T} (hi : FixedInv c) (h : (c.pc t).next c = some (w,p))
    (hu : (c.pc u).adding = some n) (hn : p.adding = some n) : u = t := by
  rcases next_adding h hn with ⟨rfl,rfl⟩ | ⟨ha,-,-⟩
  · exact absurd (hi.adding u _ hu).2.1 (Nat.lt_irrefl _)
  · exact hi.unique u t n hu ha

theorem assign_fixedLinkOf (s : HazardPointerList) (r : Ref) :
    (s.assign r v).fixedLinkOf = s.fixedLinkOf ∧ (s.assign r v).nodes = s.nodes ∧
      (s.assign r v).endNode = s.endNode ∧ (s.assign r v).fresh = s.fresh := by
  cases r with
  | head head => cases head <;> exact ⟨rfl,rfl,rfl,rfl⟩
  | next k => exact ⟨setNext_fixedLinkOf s k v,rfl,rfl,rfl⟩

variable [DecidableEq T]

theorem fixed_frame (hw : w.toFixed = false) :
    (c.write t w).mem.fixedLinkOf = c.mem.fixedLinkOf ∧ (c.write t w).mem.nodes = c.mem.nodes ∧
      (c.write t w).mem.endNode = c.mem.endNode ∧ (c.write t w).mem.fresh = c.mem.fresh ∧
      (c.write t w).fixed = c.fixed := by
  cases w with
  | fixedLink n v | new | add n => cases hw
  | pointer n v => exact ⟨setPointer_fixedLinkOf _ _ _,rfl,rfl,rfl,rfl⟩
  | gcPointer n v => exact ⟨setGcPointer_fixedLinkOf _ _ _,rfl,rfl,rfl,rfl⟩
  | next n v => exact ⟨setNext_fixedLinkOf _ _ _,rfl,rfl,rfl,rfl⟩
  | push head n => cases head <;> exact ⟨rfl,rfl,rfl,rfl,rfl⟩
  | pop n d =>
    simp only [Conf.write]
    split <;> exact ⟨rfl,rfl,rfl,rfl,rfl⟩
  | unlink r n d =>
    obtain ⟨h1,h2,h3,h4⟩ := assign_fixedLinkOf c.mem r (v:=d)
    exact ⟨h1,h2,h3,h4,rfl⟩
  | _ => exact ⟨rfl,rfl,rfl,rfl,rfl⟩

theorem FixedInv.extends_write (hi : FixedInv c) (h : (c.pc t).next c = some (w,p)) :
    Extends c (c.write t w) := by
  cases hw : w.toFixed with
  | false =>
    obtain ⟨hl,-,-,-,hf⟩ := fixed_frame (c:=c) (t:=t) hw
    exact ⟨⟨[],hf⟩,fun m _ => congrFun hl m⟩
  | true =>
    cases w with
    | fixedLink n v =>
      have hn := (hi.adding t n (next_fixedLink h)).1
      refine ⟨⟨[],rfl⟩,fun m hm => ?_⟩
      refine (congrFun (setFixedLink_fixedLinkOf c.mem n v) m).trans (Function.update_of_ne ?_ _ _)
      rintro rfl
      exact hn hm
    | new =>
      refine ⟨⟨[],rfl⟩,fun m hm => ?_⟩
      refine (congrFun (new_fixedLinkOf c.mem) m).trans (Function.update_of_ne ?_ _ _)
      rintro rfl
      exact hi.fresh_not_mem hm
    | add n => exact ⟨⟨[n],rfl⟩,fun _ _ => rfl⟩
    | _ => cases hw

theorem FixedInv.chain_write (hi : FixedInv c) (h : (c.pc t).next c = some (w,p)) :
    Chain (c.write t w).mem.fixedLinkOf (c.write t w).mem.endNode (c.write t w).mem.nodes
      (c.write t w).fixed := by
  have hext := hi.extends_write h
  cases hw : w.toFixed with
  | false =>
    obtain ⟨hl,hn,he,-,hf⟩ := fixed_frame (c:=c) (t:=t) hw
    rw [hl,hn,he,hf]
    exact hi.chain
  | true =>
    cases w with
    | fixedLink n v | new => exact hi.chain.congr hext.link
    | add n =>
      obtain ⟨ha,hl⟩ := add_found h
      exact ⟨rfl,(hi.adding t n ha).2.2,hl ▸ hi.chain⟩
    | _ => cases hw

/-- Addresses are given out once, and `end_node` stays where it is. -/
theorem fresh_write_le (t : T) (w : Write) : (c.write t w).mem.endNode = c.mem.endNode ∧
    c.mem.fresh ≤ (c.write t w).mem.fresh := by
  cases hw : w.toFixed with
  | false =>
    obtain ⟨-,-,he,hf,-⟩ := fixed_frame (c:=c) (t:=t) hw
    exact ⟨he,hf.ge⟩
  | true =>
    cases w with
    | fixedLink n v | add n => exact ⟨rfl,le_rfl⟩
    | new => exact ⟨rfl,Nat.le_succ _⟩
    | _ => cases hw

theorem FixedInv.old_write (hi : FixedInv c) (h : (c.pc t).next c = some (w,p)) :
    ∀ n ∈ (c.write t w).fixed, n < (c.write t w).mem.fresh := by
  intro n hn
  refine Nat.lt_of_lt_of_le ?_ (fresh_write_le t w).2
  rcases mem_fixed_write.mp hn with rfl | hn
  · exact (hi.adding t n (add_found h).1).2.1
  · exact hi.old n hn

/-- The node of another adder is not the one added, and not the new one. -/
theorem FixedInv.adding_write {u : T} (hi : FixedInv c) (h : (c.pc t).next c = some (w,p))
    (hu : u ≠ t) (hn : (c.pc u).adding = some n) :
    n ∉ (c.write t w).fixed ∧ n < (c.write t w).mem.fresh ∧ n ≠ (c.write t w).mem.endNode := by
  obtain ⟨h1,h2,h3⟩ := hi.adding u n hn
  obtain ⟨he,hf⟩ := fresh_write_le (c:=c) t w
  refine ⟨fun hm => ?_,Nat.lt_of_lt_of_le h2 hf,he ▸ h3⟩
  rcases mem_fixed_write.mp hm with rfl | hm
  · exact hu (hi.unique u t n hn (add_found h).1)
  · exact h1 hm

theorem FixedInv.adding_self (hi : FixedInv c) (h : (c.pc t).next c = some (w,p))
    (hn : p.adding = some n) :
    n ∉ (c.write t w).fixed ∧ n < (c.write t w).mem.fresh ∧ n ≠ (c.write t w).mem.endNode := by
  rcases next_adding h hn with ⟨rfl,rfl⟩ | ⟨ha,-,hw⟩
  · exact ⟨hi.fresh_not_mem,Nat.lt_succ_self _,Nat.ne_of_gt hi.endNode⟩
  · obtain ⟨h1,h2,h3⟩ := hi.adding t n ha
    obtain ⟨he,hf⟩ := fresh_write_le (c:=c) t w
    refine ⟨fun hm => ?_,Nat.lt_of_lt_of_le h2 hf,he ▸ h3⟩
    exact h1 ((mem_fixed_write.mp hm).resolve_left (hw n))

theorem FixedInv.step (hi : FixedInv c) (h : (c.pc t).next c = some (w,p)) :
    FixedInv ((c.write t w).setPc t p) where
  chain := hi.chain_write h
  endNode := by
    obtain ⟨he,hf⟩ := fresh_write_le (c:=c) t w
    exact he.trans_lt (Nat.lt_of_lt_of_le hi.endNode hf)
  old := hi.old_write h
  adding u n hn := by
    simp only [Conf.setPc,pc_write] at hn
    by_cases hut : u = t
    · subst hut
      rw [Function.update_self] at hn
      exact hi.adding_self h hn
    · rw [Function.update_of_ne hut] at hn
      exact hi.adding_write h hut hn
  unique u v n hu hv := by
    simp only [Conf.setPc,pc_write] at hu hv
    by_cases hut : u = t <;> by_cases hvt : v = t
    · exact hut.trans hvt.symm
    · subst hut
      rw [Function.update_self] at hu
      rw [Function.update_of_ne hvt] at hv
      exact (hi.unique_write h hv hu).symm
    · subst hvt
      rw [Function.update_self] at hv
      rw [Function.update_of_ne hut] at hu
      exact hi.unique_write h hu hv
    · rw [Function.update_of_ne hut] at hu
      rw [Function.update_of_ne hvt] at hv
      exact hi.unique u v n hu hv

end Writes

/-- A step of thread `t`, or a call or store that leaves the lists alone. -/
theorem fire_cases [DecidableEq T] [DecidableEq L] {c c' : Conf T L} {a : Label T L}
    (h : fire c a = some c') :
    (∃ t w p, a = .step t ∧ (c.pc t).next c = some (w,p) ∧ c' = (c.write t w).setPc t p) ∨
      (∀ t, a ≠ .step t) ∧ c'.mem = c.mem ∧ c'.fixed = c.fixed ∧
        ∀ u, c'.pc u = c.pc u ∨ c.pc u = .idle ∧ (c'.pc u).adding = none := by
  have goto : ∀ {d : Conf T L} {t : T} {p : Pc L}, d.mem = c.mem → d.fixed = c.fixed →
      d.pc = c.pc → c.pc t = .idle → p.adding = none → (d.setPc t p).mem = c.mem ∧
        (d.setPc t p).fixed = c.fixed ∧
        ∀ u, (d.setPc t p).pc u = c.pc u ∨ c.pc u = .idle ∧ ((d.setPc t p).pc u).adding = none := by
    intro d t p hm hf hp ht ha
    refine ⟨hm,hf,fun u => ?_⟩
    by_cases hut : u = t
    · subst hut
      exact .inr ⟨ht,by simpa [Conf.setPc] using ha⟩
    · exact .inl (by simp [Conf.setPc,hut,hp])
  cases a with
  | step t =>
    simp only [fire,Option.map_eq_some_iff] at h
    obtain ⟨⟨w,p⟩,hn,rfl⟩ := h
    exact .inl ⟨t,w,p,rfl,hn,rfl⟩
  | store l obj =>
    cases h
    exact .inr ⟨by simp,rfl,rfl,fun _ => .inl rfl⟩
  | acquire t n l | validate t n l | clear t n | release t n drop | delete t n drop =>
    simp only [fire,Conf.call] at h
    split at h <;> cases h
    next ht => exact .inr ⟨by simp,goto rfl rfl rfl ht.1 rfl⟩
  | acquireNode t | collect t =>
    simp only [fire] at h
    split at h <;> cases h
    next ht => exact .inr ⟨by simp,goto rfl rfl rfl ht rfl⟩
  | prime t k =>
    simp only [fire] at h
    split at h <;> cases h
    next ht => exact .inr ⟨by simp,goto rfl rfl rfl ht (adding_primeFrom k)⟩

section Fire

variable [DecidableEq T] [DecidableEq L] {c c' d : Conf T L} {a : Label T L} {t : T}

theorem fire_fixed (hi : FixedInv c) (h : fire c a = some c') : FixedInv c' ∧ Extends c c' := by
  rcases fire_cases h with ⟨t,w,p,-,hn,rfl⟩ | ⟨-,hm,hf,hp⟩
  · have hext := hi.extends_write hn
    exact ⟨hi.step hn,⟨hext.fixed,hext.link⟩⟩
  · have hadd : ∀ u n, (c'.pc u).adding = some n → (c.pc u).adding = some n := by
      intro u n hn
      rcases hp u with he | ⟨-,hnone⟩
      · exact he ▸ hn
      · cases hnone.symm.trans hn
    refine ⟨⟨?_,?_,?_,fun u n hn => ?_,fun u v n hu hv => ?_⟩,⟨[],hf⟩,fun n _ => by rw [hm]⟩
    · rw [hm,hf]; exact hi.chain
    · rw [hm]; exact hi.endNode
    · rw [hm,hf]; exact hi.old
    · rw [hm,hf]; exact hi.adding u n (hadd u n hn)
    · exact hi.unique u v n (hadd u n hu) (hadd v n hv)

theorem reachable_fixed (hr : (system T L).Reachable c) : FixedInv c := by
  refine hr.invariant (fun c hc => ?_) fun c a c' _ hi hf => (fire_fixed hi hf).1
  obtain rfl : c = start := hc
  constructor <;> simp [start,HazardPointerList.init,Pc.adding]

theorem exec_extends {as : List (Label T L)} (hr : (system T L).Reachable c)
    (h : (system T L).exec c as = some c') : Extends c c' := by
  induction as generalizing c with
  | nil =>
    obtain rfl := Option.some.inj h
    exact ⟨⟨[],rfl⟩,fun _ _ => rfl⟩
  | cons a as ih =>
    obtain ⟨d,hf,hd⟩ := Option.bind_eq_some_iff.mp h
    exact (fire_fixed (reachable_fixed hr) hf).2.trans (ih (hr.step hf) hd)

/-- The node whose `Add` succeeds in the step. -/
def added (c : Conf T L) : Label T L → Option ℕ
  | .step t =>
    match (c.pc t).next c with
    | some (.add n,_) => some n
    | _ => none
  | _ => none

theorem fire_added (h : fire c a = some c') : c'.fixed = (added c a).toList++c.fixed := by
  rcases fire_cases h with ⟨t,w,p,rfl,hn,rfl⟩ | ⟨ha,-,hf,-⟩
  · simp only [added,hn]
    cases w with
    | push head n => cases head <;> rfl
    | pop n v =>
      simp only [Conf.write,Conf.setPc]
      split <;> rfl
    | _ => rfl
  · rw [hf]
    cases a with
    | step t => exact absurd rfl (ha t)
    | _ => rfl

theorem exec_added {as : List (Label T L)} (h : (system T L).exec c as = some c') :
    c'.fixed = ((system T L).trace added c as).reverse++c.fixed := by
  induction as generalizing c with
  | nil => exact (Option.some.inj h) ▸ rfl
  | cons a as ih =>
    obtain ⟨d,hf,hd⟩ := Option.bind_eq_some_iff.mp h
    have hstep : d.fixed = (added c a).toList++c.fixed := fire_added hf
    rw [ih hd,hstep]
    cases ha : added c a <;> simp [System.trace,hf,ha]

end Fire

/-! The scan. -/

/-- The node whose `node->pointer` is read for the scan. -/
def Pc.visits : Pc L → Option ℕ
  | .scanTest n => some n
  | _ => none

/-- Behind the read of `nodes`, up to the call of `std::sort`: the scan of `list` has visited
`seen`. -/
def Scans (list seen : List ℕ) : Pc L → Prop
  | .scanTest n => ∃ r, list = seen++n::r
  | .scanPush n | .scanLink n => ∃ s r, seen = s++[n] ∧ list = seen++r
  | .sort => list = seen
  | _ => False

/-- A bound on the steps to the end of the scan when `k` nodes are left. -/
def scanLeft (k : ℕ) : Pc L → ℕ
  | .scanTest _ => 3*k
  | .scanPush _ => 3*k+2
  | .scanLink _ => 3*k+1
  | _ => 0

section Scan

variable {c : Conf T L} {list seen : List ℕ} {p p' : Pc L} {w : Write}

/-- The head of the loop: what is left of the list is the chain from `node`. -/
theorem scans_from {node : ℕ} {r : List ℕ} (hc : Chain c.mem.fixedLinkOf c.mem.endNode node r)
    (hr : list = seen++r) (k : ℕ) : Scans list seen (scanFrom c.mem node : Pc L) ∧
      scanLeft k (scanFrom c.mem node : Pc L) ≤ 3*k := by
  unfold scanFrom
  split
  case isTrue he =>
    have hnil := (he ▸ hc).eq_nil
    exact ⟨by simpa [Scans,hnil] using hr,by simp [scanLeft]⟩
  case isFalse he =>
    obtain ⟨r',hr',-⟩ := hc.eq_cons he
    exact ⟨⟨r',hr' ▸ hr⟩,by simp [scanLeft]⟩

theorem Scans.isPrefix (hs : Scans list seen p) : seen <+: list := by
  cases p with
  | scanTest n =>
    obtain ⟨r,hr⟩ := hs
    exact ⟨n::r,hr.symm⟩
  | scanPush n | scanLink n =>
    obtain ⟨-,r,-,hr⟩ := hs
    exact ⟨r,hr.symm⟩
  | sort => exact ⟨[],by simpa [Scans] using Eq.symm hs⟩
  | _ => cases hs

/-- Each step visits the next node or comes closer to it. -/
theorem scans_next (hi : FixedInv c) {a : List ℕ} (hl : c.fixed = a++list)
    (hs : Scans list seen p) (hp : p ≠ .sort) (h : p.next c = some (w,p')) :
    Scans list (seen++p.visits.toList) p' ∧
      scanLeft (list.length-(seen++p.visits.toList).length) p' <
        scanLeft (list.length-seen.length) p := by
  cases p with
  | scanTest n =>
    obtain ⟨r,hr⟩ := hs
    cases h
    have hlen : list.length = seen.length+r.length+1 := by simp [hr]; omega
    have hin : ∃ s r, seen++[n] = s++[n] ∧ list = seen++[n]++r := ⟨seen,r,rfl,by simp [hr]⟩
    split <;> refine ⟨hin,?_⟩ <;> simp [Pc.visits,scanLeft] <;> omega
  | scanPush n =>
    cases h
    obtain ⟨s,r,hseen,hr⟩ := hs
    simp only [Pc.visits,Option.toList_none,List.append_nil]
    exact ⟨⟨s,r,hseen,hr⟩,by simp [scanLeft]⟩
  | scanLink n =>
    obtain ⟨s,r,rfl,hr⟩ := hs
    cases h
    have hc : Chain c.mem.fixedLinkOf c.mem.endNode (c.mem.fixedLinkOf n) r := by
      have hch := hi.chain
      rw [hl,hr,List.append_assoc s,← List.append_assoc a] at hch
      exact hch.tail
    obtain ⟨h1,h2⟩ := scans_from (L:=L) hc hr (list.length-(s++[n]).length)
    simp only [Pc.visits,Option.toList_none,List.append_nil]
    exact ⟨h1,Nat.lt_succ_of_le h2⟩
  | sort => exact absurd rfl hp
  | _ => cases hs

/-- A thread that scans is never blocked. -/
theorem scans_enabled (hs : Scans list seen p) : (p.next c).isSome := by
  cases p <;> first | rfl | cases hs

end Scan

section Runs

variable [DecidableEq T] [DecidableEq L] {c c' : Conf T L} {as : List (Label T L)} {t : T}

def stepOf (t : T) : Label T L → Bool
  | .step u => u = t
  | _ => false

/-- The node that thread `t` visits in the step. -/
def visited (t : T) (c : Conf T L) (a : Label T L) : Option ℕ :=
  if stepOf t a then (c.pc t).visits else none

def ownSteps (t : T) (_ : Conf T L) (a : Label T L) : ℕ := if stepOf t a then 1 else 0

/-- Thread `t` leaves the scan. -/
def sorts (t : T) (c : Conf T L) (a : Label T L) : ℕ :=
  if stepOf t a ∧ c.pc t = .sort then 1 else 0

theorem exec_scans {list seen a : List ℕ} (hr : (system T L).Reachable c)
    (hl : c.fixed = a++list) (hs : Scans list seen (c.pc t))
    (h : (system T L).exec c as = some c') (hin : (system T L).tally (sorts t) c as = 0) :
    Scans list (seen++(system T L).trace (visited t) c as) (c'.pc t) ∧
      (system T L).tally (ownSteps t) c as ≤ scanLeft (list.length-seen.length) (c.pc t) := by
  induction as generalizing c seen a with
  | nil =>
    obtain rfl := Option.some.inj h
    exact ⟨by simpa [System.trace] using hs,Nat.zero_le _⟩
  | cons b as ih =>
    obtain ⟨d,hf,hd⟩ := Option.bind_eq_some_iff.mp h
    have hi := reachable_fixed hr
    have hin' : sorts t c b = 0 ∧ (system T L).tally (sorts t) d as = 0 := by
      simpa [System.tally,hf] using hin
    obtain ⟨a',ha'⟩ := (fire_fixed hi hf).2.fixed
    have hl' : d.fixed = (a'++a)++list := by rw [ha',hl,List.append_assoc]
    have hrun := fun l (hs : Scans list l (d.pc t)) => ih (hr.step hf) hl' hs hd hin'.2
    simp only [System.trace,System.tally,hf,Option.elim_some,← List.append_assoc]
    by_cases hb : stepOf t b
    · obtain rfl : b = .step t := by cases b <;> simp_all [stepOf]
      have hp : c.pc t ≠ .sort := by simpa [sorts,stepOf] using hin'.1
      simp only [system,fire,Option.map_eq_some_iff] at hf
      obtain ⟨⟨w,p⟩,hn,rfl⟩ := hf
      obtain ⟨hnext,hlt⟩ := scans_next hi hl hs hp hn
      have hpc : (((c.write t w).setPc t p).pc t) = p := by simp [Conf.setPc]
      obtain ⟨h1,h2⟩ := hrun _ (by rw [hpc]; exact hnext)
      rw [hpc] at h2
      refine ⟨by simpa [visited,stepOf] using h1,?_⟩
      simp only [ownSteps,stepOf,decide_true,if_true] at h2 ⊢
      omega
    · have hpc : d.pc t = c.pc t := by
        rcases fire_cases hf with ⟨u,w,p,rfl,-,rfl⟩ | ⟨-,-,-,hp⟩
        · have hut : t ≠ u := by rintro rfl; simp [stepOf] at hb
          simp [Conf.setPc,hut]
        · refine (hp t).resolve_right fun hidle => ?_
          rw [hidle.1] at hs
          cases hs
      obtain ⟨h1,h2⟩ := hrun seen (hpc.symm ▸ hs)
      simp only [visited,ownSteps,hb,Bool.false_eq_true,if_false,Option.toList_none,
        List.append_nil,Nat.zero_add]
      exact ⟨h1,hpc ▸ h2⟩

/-- The fixed list is the chain of the nodes whose `Add` has succeeded, its links stay, and a
scan visits just the nodes that were on it when the head was read, in bounded time. -/
theorem fixed_list_complete (h : (system T L).exec start as = some c) :
    (Chain c.mem.fixedLinkOf c.mem.endNode c.mem.nodes c.fixed ∧ c.fixed.Nodup ∧
      c.fixed = ((system T L).trace added start as).reverse) ∧
    (∀ bs c', (system T L).exec c bs = some c' → ∀ n ∈ c.fixed,
      n ∈ c'.fixed ∧ c'.mem.fixedLinkOf n = c.mem.fixedLinkOf n) ∧
    ∀ t c₁ bs c', c.pc t = .scanHead → fire c (.step t) = some c₁ →
      (system T L).exec c₁ bs = some c' → (system T L).tally (sorts t) c₁ bs = 0 →
      (system T L).trace (visited t) c₁ bs <+: c.fixed ∧
        (c'.pc t = .sort → (system T L).trace (visited t) c₁ bs = c.fixed) ∧
        (system T L).tally (ownSteps t) c₁ bs ≤ 3*c.fixed.length ∧
        (fire c' (.step t)).isSome := by
  have hr : (system T L).Reachable c := (System.Reachable.init rfl).exec h
  have hi := reachable_fixed hr
  refine ⟨⟨hi.chain,hi.chain.nodup,?_⟩,fun bs c' hbs n hn => ?_,fun t c₁ bs c' ht hf hbs hin => ?_⟩
  · simpa [start] using exec_added h
  · have hext := exec_extends hr hbs
    obtain ⟨a,ha⟩ := hext.fixed
    exact ⟨by rw [ha]; exact List.mem_append_right a hn,hext.link n hn⟩
  · obtain ⟨a,ha⟩ := (fire_fixed hi hf).2.fixed
    have hpc : c₁.pc t = scanFrom c.mem c.mem.nodes := by
      simp only [fire,ht,Pc.next,Option.map_some] at hf
      obtain rfl := Option.some.inj hf
      simp [Conf.setPc]
    obtain ⟨hhead,hleft⟩ := scans_from (L:=L) hi.chain (List.nil_append c.fixed).symm c.fixed.length
    have hfire : (system T L).fire c (.step t) = some c₁ := hf
    have hr₁ := hr.step hfire
    obtain ⟨hs,hle⟩ := exec_scans hr₁ ha (hpc ▸ hhead) hbs hin
    rw [List.nil_append] at hs
    refine ⟨hs.isPrefix,fun hsort => ?_,?_,?_⟩
    · rw [hsort] at hs
      exact hs.symm
    · rw [hpc] at hle
      exact hle.trans hleft
    · simp only [fire,Option.isSome_map]
      exact scans_enabled hs

end Runs

/-- The compare-exchange of thread 0 fails, as thread 1 has added its node in between. -/
def raceSchedule : List (Label Party Unit) :=
  List.flatten [.acquireNode 0::List.replicate 6 (.step 0),
    .acquireNode 1::List.replicate 7 (.step 1),List.replicate 5 (.step 0)]

/-- Thread 0 queues its node and calls `Collect`, which has read the head of the fixed list when
thread 1 adds another node. -/
def headSchedule : List (Label Party Unit) :=
  List.flatten [raceSchedule,[.store () 5],.acquire 0 2 ()::List.replicate 5 (.step 0),
    .delete 0 2 true::List.replicate 13 (.step 0),[.collect 0,.step 0,.step 0]]

def headConf : Conf Party Unit :=
  ((system Party Unit).exec start headSchedule).getD start

def readConf : Conf Party Unit := (fire headConf (.step 0)).getD start

def visitSchedule : List (Label Party Unit) :=
  .prime 1 1::List.replicate 8 (.step 1)++List.replicate 4 (.step 0)

def visitConf : Conf Party Unit :=
  ((system Party Unit).exec readConf visitSchedule).getD start

theorem fixed_list_complete_race : headConf.fixed = [2,3] ∧ visitConf.fixed = [4,2,3] ∧
    Chain headConf.mem.fixedLinkOf headConf.mem.endNode headConf.mem.nodes [2,3] ∧
    (system Party Unit).trace (visited 0) readConf visitSchedule = headConf.fixed :=
  have h := fixed_list_complete
    (show (system Party Unit).exec start headSchedule = some headConf from rfl)
  ⟨by decide +kernel,by decide +kernel,h.1.1,
    (h.2.2 0 readConf visitSchedule visitConf (by decide +kernel) rfl rfl (by decide +kernel)).2.1
      (by decide +kernel)⟩

end SharedList
end Benedias
