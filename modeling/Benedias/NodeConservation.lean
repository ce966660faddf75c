import Benedias.CollectExact

/-! Where the nodes are over whole runs through `HazardPointer`s. `HazardPointer::Release`,
`Delete` and the destructor forget the node even if its `pointer` is NULL, and then it is on no
list; in the runs where this does not happen every node stays bound, free or queued. -/
namespace Benedias
namespace HazardPointerRuns

open Interleaving HazardPointerList LinkedChain

variable {H : Type}

/-- Each node of the fixed list is bound to one `HazardPointer`, or free, or queued. -/
def Conserved (c : Conf H) : Prop :=
  ∃ p, c.list.Represents p ∧ ∀ n ∈ p.fixed,
    (∃! h, c.hp h = some n) ∧ n ∉ p.free ∧ n ∉ p.gc ∨
    (∀ h, c.hp h ≠ some n) ∧ n ∈ p.free ∧ n ∉ p.gc ∨
    (∀ h, c.hp h ≠ some n) ∧ n ∉ p.free ∧ n ∈ p.gc

/-- The operation does not unbind a `HazardPointer` from a node without a pointer. -/
def Occupied (c : Conf H) : Label H → Prop
  | .release h | .delete h | .destroy h =>
    ∀ n, c.hp h = some n → n ≠ 0 → (c.list.node n).pointer ≠ 0
  | _ => True

/-- At most `k` nodes are bound or queued. -/
def Within (k : ℕ) (c : Conf H) : Prop :=
  ∃ p, c.list.Represents p ∧ ∃ l : List ℕ, l.length ≤ k ∧
    ∀ n ∈ p.fixed, (n ∈ p.gc ∨ ∃ h, c.hp h = some n) → n ∈ l

/-- No node is out of sight. -/
def Placed (c : Conf H) (p : Pool) : Prop :=
  ∀ n ∈ p.fixed, n ∈ p.gc ∨ n ∈ p.free ∨ ∃ h, c.hp h = some n

theorem Represents.unique {s : HazardPointerList} {p p' : Pool} (h : s.Represents p)
    (h' : s.Represents p') : p = p' := by
  obtain ⟨fixed,gc,free⟩ := p
  obtain ⟨fixed',gc',free'⟩ := p'
  obtain rfl : fixed = fixed' := h.complete.chain.unique h'.complete.chain
  obtain rfl : gc = gc' := h.gc.unique h'.gc
  obtain rfl : free = free' := h.free.unique h'.free
  rfl

theorem Inv.conserved_iff {c : Conf H} {p : Pool} (hi : Inv c p) : Conserved c ↔ Placed c p := by
  constructor
  · rintro ⟨p',hr,hc⟩ n hn
    obtain rfl := Represents.unique hi.represents hr
    rcases hc n hn with h | h | h
    · exact Or.inr (Or.inr h.1.exists)
    · exact Or.inr (Or.inl h.2.1)
    · exact Or.inl h.2.2
  · intro hp
    refine ⟨p,hi.represents,fun n hn => ?_⟩
    have h0 : n ≠ 0 := ((hi.represents.complete.mem n).mp hn).1
    rcases hp n hn with hg | hf | ⟨h,hh⟩
    · exact Or.inr (Or.inr ⟨fun h hh => (hi.off_hp hh h0).gc hg,hi.represents.disjoint hg,hg⟩)
    · exact Or.inr (Or.inl ⟨fun h hh => (hi.off_hp hh h0).free hf,hf,
        fun hg => hi.represents.disjoint hg hf⟩)
    · have ho := hi.off_hp hh h0
      exact Or.inl ⟨⟨h,hh,fun h' hh' => hi.hpInj h' h n hh' hh h0⟩,ho.free,ho.gc⟩

theorem prime_places {p : Pool} {m k : ℕ} :
    (∀ n ∈ p.free, n ∈ (p.prime m k).free) ∧
      (∀ n ∈ (p.prime m k).fixed, n ∈ p.fixed ∨ n ∈ (p.prime m k).free) ∧
      (p.prime m k).fixed.length = p.fixed.length+k := by
  induction k generalizing p m with
  | zero => exact ⟨fun _ h => h,fun _ h => Or.inl h,rfl⟩
  | succ k ih =>
    obtain ⟨h1,h2,h3⟩ := ih (p:={ p with fixed := m::p.fixed, free := m::p.free }) (m:=m+1)
    refine ⟨fun n hn => h1 n (List.mem_cons_of_mem _ hn),fun n hn => ?_,?_⟩
    · rcases h2 n hn with h | h
      · rcases List.mem_cons.mp h with rfl | h
        · exact Or.inr (h1 n (by simp))
        · exact Or.inl h
      · exact Or.inr h
    · simp only [Pool.prime,h3,List.length_cons]
      omega

variable [DecidableEq H]

/-- An operation that unbinds `h` from its node `n` and enqueues `n` unless its pointer is NULL
keeps all nodes in place if and only if it does not skip the enqueueing. -/
theorem placed_unbind {c c' : Conf H} {p p' : Pool} (hi : Inv c p) (hp : Placed c p) {h : H}
    {n : ℕ} (hn : c.hp h = some n) {v : Option ℕ} (hv : v = none ∨ v = some 0)
    (hhp : c'.hp = Function.update c.hp h v)
    (hsame : n = 0 ∨ (c.list.node n).pointer = 0 → p' = p)
    (hmove : ¬(n = 0 ∨ (c.list.node n).pointer = 0) → p'.fixed = p.fixed ∧
      (∀ m ∈ p.gc, m ∈ p'.gc) ∧ (∀ m ∈ p.free, m ∈ p'.free) ∧ (n ∈ p'.gc ∨ n ∈ p'.free)) :
    Placed c' p' ↔ ∀ m, c.hp h = some m → m ≠ 0 → (c.list.node m).pointer ≠ 0 := by
  have hold : ∀ m h', m ≠ n → c.hp h' = some m → c'.hp h' = some m := by
    rintro m h' hm hh
    rw [hhp,Function.update_of_ne,hh]
    rintro rfl
    exact hm (Option.some.inj (hh.symm.trans hn))
  constructor
  · rintro hc m hm h0 hptr
    obtain rfl := Option.some.inj (hn.symm.trans hm)
    obtain rfl := hsame (Or.inr hptr)
    have ho := hi.off_hp hn h0
    rcases hc n ho.fixed with h1 | h1 | ⟨h',h1⟩
    · exact ho.gc h1
    · exact ho.free h1
    · by_cases he : h' = h
      · rcases hv with rfl | rfl <;> simp_all
      · exact he (hi.hpInj h' h n (by simpa [hhp,he] using h1) hn h0)
  · intro hocc m hm
    have hfix : p'.fixed = p.fixed := by
      by_cases hz : n = 0 ∨ (c.list.node n).pointer = 0
      · rw [hsame hz]
      · exact (hmove hz).1
    rw [hfix] at hm
    have hm0 : m ≠ 0 := ((hi.represents.complete.mem m).mp hm).1
    by_cases hz : n = 0 ∨ (c.list.node n).pointer = 0
    · have hmn : m ≠ n := by
        rintro rfl
        exact hocc m hn hm0 (hz.resolve_left hm0)
      rw [hsame hz]
      exact (hp m hm).imp_right (Or.imp_right fun ⟨h',hh⟩ => ⟨h',hold m h' hmn hh⟩)
    · obtain ⟨-,hgc,hfree,hnew⟩ := hmove hz
      by_cases hmn : m = n
      · rw [hmn]
        exact hnew.imp_right Or.inl
      · rcases hp m hm with h1 | h1 | ⟨h',h1⟩
        · exact Or.inl (hgc m h1)
        · exact Or.inr (Or.inl (hfree m h1))
        · exact Or.inr (Or.inr ⟨h',hold m h' hmn h1⟩)

theorem placed_release {c c' : Conf H} {p : Pool} (hi : Inv c p) (hp : Placed c p) {h : H} {n : ℕ}
    (hn : c.hp h = some n) {v : Option ℕ} (hv : v = none ∨ v = some 0)
    (hhp : c'.hp = Function.update c.hp h v) :
    Placed c' (releasePool c.list p n) ↔
      ∀ m, c.hp h = some m → m ≠ 0 → (c.list.node m).pointer ≠ 0 := by
  refine placed_unbind hi hp hn hv hhp (fun hz => if_pos hz) fun hz => ?_
  rw [releasePool,if_neg hz]
  exact ⟨rfl,fun _ h => h,fun _ h => List.mem_cons_of_mem _ h,Or.inr (by simp [Pool.enqueueFree])⟩

theorem placed_step {c c' : Conf H} {p : Pool} {l : Label H} (hi : Inv c p) (hp : Placed c p)
    (hl : l.ofHazardPointer) (hf : fire c l = some c') :
    Placed c' (l.pool c p) ↔ Occupied c l := by
  have hen := fire_enabled hf
  have hhp := (fire_effect hi hf).hp
  cases l with
  | prime k =>
    refine iff_of_true (fun n hn => ?_) trivial
    obtain ⟨h1,h2,-⟩ := prime_places (p:=p) (m:=c.list.fresh) (k:=k)
    rcases h2 n hn with h | h
    · rcases hp n h with hg | hf | hb
      · exact Or.inl (by simpa [Label.pool,prime_gc] using hg)
      · exact Or.inr (Or.inl (h1 n hf))
      · exact Or.inr (Or.inr (by rw [hhp]; exact hb))
    · exact Or.inr (Or.inl h)
  | construct h =>
    refine iff_of_true ?_ trivial
    have hnone : c.hp h = none := hen
    have hself : c'.hp h = some (p.acquireNode c.list.fresh).2 := by simp [hhp,Label.hps]
    have hold : ∀ m, (∃ h', c.hp h' = some m) → ∃ h', c'.hp h' = some m := by
      rintro m ⟨h',hh⟩
      refine ⟨h',?_⟩
      have hne : h' ≠ h := by
        rintro rfl
        rw [hnone] at hh
        cases hh
      simpa [hhp,Label.hps,hne] using hh
    obtain ⟨fixed,gc,free⟩ := p
    cases free with
    | nil =>
      intro m hm
      rcases List.mem_cons.mp hm with rfl | hm
      · exact Or.inr (Or.inr ⟨h,hself⟩)
      · rcases hp m hm with h1 | h1 | h1
        · exact Or.inl h1
        · cases h1
        · exact Or.inr (Or.inr (hold m h1))
    | cons n free =>
      intro m hm
      rcases hp m hm with h1 | h1 | h1
      · exact Or.inl h1
      · rcases List.mem_cons.mp h1 with rfl | h1
        · exact Or.inr (Or.inr ⟨h,hself⟩)
        · exact Or.inr (Or.inl h1)
      · exact Or.inr (Or.inr (hold m h1))
  | acquire h v =>
    refine iff_of_true (fun n hn => ?_) trivial
    rw [hhp]
    exact hp n hn
  | release h =>
    obtain ⟨n,hn⟩ := hen
    simpa [Label.pool,Occupied,hn] using placed_release hi hp hn (Or.inr rfl) hhp
  | destroy h =>
    obtain ⟨n,hn⟩ := hen
    simpa [Label.pool,Occupied,hn] using placed_release hi hp hn (Or.inl rfl) hhp
  | delete h =>
    obtain ⟨n,hn⟩ := hen
    have hd : Placed c' (deletePool c.list p n) ↔
        ∀ m, c.hp h = some m → m ≠ 0 → (c.list.node m).pointer ≠ 0 := by
      refine placed_unbind hi hp hn (Or.inr rfl) hhp (fun hz => if_pos hz) fun hz => ?_
      rw [deletePool,if_neg hz]
      exact ⟨rfl,fun _ h => List.mem_cons_of_mem _ h,fun _ h => h,Or.inl (by simp [Pool.enqueueGc])⟩
    simpa [Label.pool,Occupied,hn] using hd
  | collect =>
    refine iff_of_true (fun n hn => ?_) trivial
    rw [hhp]
    rcases hp n hn with h1 | h1 | h1
    · rcases hk : c.list.guarded p.fixed n with _ | _
      · exact Or.inr (Or.inl (by simp [Label.pool,Pool.collect,h1,hk]))
      · exact Or.inl (by simp [Label.pool,Pool.collect,h1,hk])
    · exact Or.inr (Or.inl (by simp [Label.pool,Pool.collect,h1]))
    · exact Or.inr (Or.inr h1)
  | _ => cases hl

/-- A step of a program that works through `HazardPointer`s and unbinds none from a node without
a pointer. -/
def KeepsNodes (c : Conf H) (l : Label H) : Prop := l.ofHazardPointer ∧ Occupied c l

theorem reachable_placed {P : Conf H → Label H → Prop} (hP : ∀ c l, P c l → KeepsNodes c l)
    {c : Conf H} (h : (system H).ReachableVia P c) : ∃ p, Inv c p ∧ Placed c p := by
  refine h.invariant (I:=fun c => ∃ p, Inv c p ∧ Placed c p) ?_ ?_
  · rintro c rfl
    exact ⟨⟨[],[],[]⟩,inv_start,fun n hn => by cases hn⟩
  · rintro c l c' - ⟨p,hi,hp⟩ hstep hf
    obtain ⟨hl,hocc⟩ := hP c l hstep
    exact ⟨l.pool c p,(fire_effect hi hf).inv,(placed_step hi hp hl hf).mpr hocc⟩

omit [DecidableEq H] in
/-- The fixed list grows through `Prime`, or when there is no free node. -/
theorem fixed_grows (c : Conf H) (p : Pool) (l : Label H) :
    (l.pool c p).fixed.length = p.fixed.length+l.primes ∨
      l.primes = 0 ∧ p.free = [] ∧ (l.pool c p).free = [] := by
  have hacq : ∀ n, (p.acquireNode n).1.fixed.length = p.fixed.length ∨
      p.free = [] ∧ (p.acquireNode n).1.free = [] := by
    intro n
    obtain ⟨fixed,gc,free⟩ := p
    cases free with
    | nil => exact Or.inr ⟨rfl,rfl⟩
    | cons m free => exact Or.inl rfl
  have hrel : ∀ n, (releasePool c.list p n).fixed = p.fixed := by
    intro n
    unfold releasePool
    split <;> rfl
  have hdel : ∀ n, (deletePool c.list p n).fixed = p.fixed := by
    intro n
    unfold deletePool
    split <;> rfl
  cases l with
  | prime k => exact Or.inl prime_places.2.2
  | acquireNode => exact (hacq _).imp_right fun h => ⟨rfl,h⟩
  | construct h => exact (hacq _).imp_right fun h => ⟨rfl,h⟩
  | nodeRelease n => exact Or.inl (congrArg List.length (hrel n))
  | nodeDelete n => exact Or.inl (congrArg List.length (hdel n))
  | release h | destroy h =>
    refine Or.inl ?_
    simp only [Label.pool]
    cases c.hp h with
    | none => rfl
    | some n => exact congrArg List.length (hrel n)
  | delete h =>
    refine Or.inl ?_
    simp only [Label.pool]
    cases c.hp h with
    | none => rfl
    | some n => exact congrArg List.length (hdel n)
  | _ => exact Or.inl rfl

omit [DecidableEq H] in
theorem Within.length_le {k : ℕ} {c : Conf H} {p : Pool} (hw : Within k c) (hi : Inv c p)
    (hp : Placed c p) (hf : p.free = []) : p.fixed.length ≤ k := by
  obtain ⟨p',hr,l,hl,hm⟩ := hw
  obtain rfl := Represents.unique hi.represents hr
  have hsub : p.fixed ⊆ l := by
    intro n hn
    rcases hp n hn with h | h | h
    · exact hm n hn (Or.inl h)
    · rw [hf] at h
      cases h
    · exact hm n hn (Or.inr h)
  exact (hi.represents.complete.chain.nodup.subperm hsub).length_le.trans hl

theorem reachable_bounded {k : ℕ} {c : Conf H}
    (h : (system H).ReachableVia (fun c l => KeepsNodes c l ∧ Within k c) c) :
    ∃ p, Inv c p ∧ Placed c p ∧ (Within k c → p.fixed.length ≤ k+c.primed) := by
  refine h.invariant (I:=fun c => ∃ p, Inv c p ∧ Placed c p ∧
    (Within k c → p.fixed.length ≤ k+c.primed)) ?_ ?_
  · rintro c rfl
    exact ⟨⟨[],[],[]⟩,inv_start,fun n hn => (by cases hn),fun _ => Nat.zero_le _⟩
  · rintro c l c' - ⟨p,hi,hp,hb⟩ ⟨⟨hl,hocc⟩,hw⟩ hf
    have he := fire_effect hi hf
    have hp' := (placed_step hi hp hl hf).mpr hocc
    refine ⟨l.pool c p,he.inv,hp',fun hw' => ?_⟩
    have hprimed := he.primed
    rcases fixed_grows c p l with hg | ⟨-,-,hfree⟩
    · have := hb hw
      omega
    · have := hw'.length_le he.inv hp' hfree
      omega

/-- In every run through `HazardPointer`s whose steps keep their nodes: every node is in exactly
one place; an operation leaves this so if and only if it is not an unbinding from a node with
pointer NULL; a `HazardPointer` gets a new node only if each old one is bound or queued; and if
never more than `k` nodes are bound or queued, there are at most `k` nodes besides those that
`Prime` has added. -/
theorem conservation {c : Conf H} (h : (system H).ReachableVia KeepsNodes c) :
    Conserved c ∧
    (∀ l c', l.ofHazardPointer → fire c l = some c' → (Conserved c' ↔ Occupied c l)) ∧
    (∀ h c' p p', fire c (.construct h) = some c' → c.list.Represents p → c'.list.Represents p' →
      p'.fixed ≠ p.fixed → ∀ n ∈ p.fixed, n ∈ p.gc ∨ ∃ h, c.hp h = some n) ∧
    ∀ k, (system H).ReachableVia (fun c l => KeepsNodes c l ∧ Within k c) c → Within k c →
      ∃ p, c.list.Represents p ∧ p.fixed.length ≤ k+c.primed := by
  obtain ⟨p,hi,hp⟩ := reachable_placed (fun _ _ h => h) h
  refine ⟨hi.conserved_iff.mpr hp,?_,?_,?_⟩
  · intro l c' hl hf
    rw [(fire_effect hi hf).inv.conserved_iff]
    exact placed_step hi hp hl hf
  · intro h c' p₁ p₂ hf hr₁ hr₂ hne n hn
    obtain rfl := Represents.unique hi.represents hr₁
    have hp₂ := Represents.unique (fire_effect hi hf).inv.represents hr₂
    have hnil : p.free = [] := by
      by_contra hfree
      obtain ⟨m,free,hmf⟩ := List.exists_cons_of_ne_nil hfree
      refine hne ?_
      rw [← hp₂]
      simp [Label.pool,Pool.acquireNode,hmf]
    rcases hp n hn with h1 | h1 | h1
    · exact Or.inl h1
    · rw [hnil] at h1
      cases h1
    · exact Or.inr h1
  · intro k hk hw
    obtain ⟨p',hi',-,hb⟩ := reachable_bounded hk
    exact ⟨p',hi'.represents,hb hw⟩

instance (c : Conf H) : (l : Label H) → Decidable (KeepsNodes c l)
  | .release h | .delete h | .destroy h =>
    decidable_of_iff (∀ n ∈ c.hp h, n ≠ 0 → (c.list.node n).pointer ≠ 0)
      (and_iff_right (rfl : (Label.release h).ofHazardPointer = true)).symm
  | .prime _ | .construct _ | .acquire _ _ | .collect => .isTrue ⟨rfl,trivial⟩
  | .acquireNode | .nodeAcquire _ _ | .nodeClear _ | .nodeRelease _ | .nodeDelete _ =>
    .isFalse fun h => by cases h.1

/-- One node has been released and taken again, one is queued. -/
def keptSchedule : List (Label Party) :=
  [.construct 0,.construct 1,.acquire 0 100,.acquire 1 200,.delete 0,.release 1,.destroy 1,
    .construct 1]

def keptConf : Conf Party := ((system Party).execVia KeepsNodes start keptSchedule).getD start

example : (keptConf.hp 0,keptConf.hp 1,keptConf.list.gcList) = (some 0,some 3,2) := by decide

theorem keptConf_reachable : (system Party).ReachableVia KeepsNodes keptConf :=
  .execViaD keptSchedule (.init rfl)

theorem conservation_keptConf :
    Conserved keptConf ∧
    (∀ l c', l.ofHazardPointer → fire keptConf l = some c' → (Conserved c' ↔ Occupied keptConf l)) ∧
    (∀ h c' p p', fire keptConf (.construct h) = some c' → keptConf.list.Represents p →
      c'.list.Represents p' → p'.fixed ≠ p.fixed →
      ∀ n ∈ p.fixed, n ∈ p.gc ∨ ∃ h, keptConf.hp h = some n) ∧
    ∀ k, (system Party).ReachableVia (fun c l => KeepsNodes c l ∧ Within k c) keptConf →
      Within k keptConf → ∃ p, keptConf.list.Represents p ∧ p.fixed.length ≤ k+keptConf.primed :=
  conservation keptConf_reachable

/-- A `HazardPointer` is constructed and destroyed without `Acquire` in between. -/
def leakSchedule : List (Label Unit) := [.construct (),.destroy ()]

def leakConf : Conf Unit :=
  ((system Unit).execVia (fun _ l => l.ofHazardPointer = true) start leakSchedule).getD start

theorem not_conservation :
    ∃ c, (system Unit).ReachableVia (fun _ l => l.ofHazardPointer = true) c ∧ ¬Conserved c := by
  refine ⟨leakConf,.execViaD leakSchedule (.init rfl),?_⟩
  rintro ⟨p,hr,hc⟩
  have hfix : p.fixed = [2] := hr.complete.chain.unique
    ⟨by decide,by decide,show leakConf.list.fixedLinkOf 2 = leakConf.list.endNode by decide⟩
  have hgc : p.gc = [] := hr.gc.unique (show leakConf.list.gcList = leakConf.list.endNode by decide)
  have hfree : p.free = [] :=
    hr.free.unique (show leakConf.list.freeList = leakConf.list.endNode by decide)
  have hhp : leakConf.hp () = none := by decide
  have h := hc 2 (by simp [hfix])
  rw [hgc,hfree] at h
  rcases h with ⟨⟨u,hu,-⟩,-⟩ | ⟨-,h,-⟩ | ⟨-,-,h⟩
  · cases hhp.symm.trans hu
  · cases h
  · cases h

end HazardPointerRuns
end Benedias
