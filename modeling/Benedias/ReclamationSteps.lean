import Benedias.Reclamation

/-! Every step of a run in which no object is queued late keeps what the threads know of the
objects. -/
namespace Benedias
namespace SharedList

open Interleaving LinkedChain BinarySearch HazardPointerList

variable {T L : Type}

theorem Covered.mono {c d : Conf T L} {q q' l l' : List ℕ} (hc : Covered c q l)
    (hq : ∀ n ∈ q', d.cargo n ≠ 0 → n ∈ q ∧ d.cargo n = c.cargo n)
    (hg : ∀ n ∈ q, c.cargo n ≠ 0 → ∀ m, Guards d m (c.cargo n) → Guards c m (c.cargo n))
    (hv : ∀ x ∈ c.mem.allHazPtrs, x ∈ d.mem.allHazPtrs) (hl : ∀ m ∈ l, m ∈ l') :
    Covered d q' l' := by
  intro n hn h0 m hm
  obtain ⟨hnq,he⟩ := hq n hn h0
  rw [he] at h0 hm ⊢
  exact (hc n hnq h0 m (hg n hnq h0 m hm)).imp (hv _) (hl _)

section Lists

variable {c d : Conf T L} {place : ℕ → Place T} {p : Pc L} {l : List ℕ} {n nx : ℕ}

theorem unread_critical (h : p.unread c = some l) : p.critical := by
  cases p <;> first | rfl | cases h

theorem left_critical (h : p.left c = some l) : p.critical := by
  cases p with
  | pushCheck n head f | pushLoad n head f | pushStore n top head f | pushCas n head f
  | pushFailed n top head f =>
    cases f with
    | collect nx => rfl
    | release | delete | prime left => cases h
  | _ => first | rfl | cases h

theorem left_isSome : (p.left d).isSome = (p.left c).isSome := by
  cases p with
  | pushCheck n head f | pushLoad n head f | pushStore n top head f | pushCas n head f
  | pushFailed n top head f => cases f <;> rfl
  | _ => rfl

theorem left_gcFrom (h : (gcFrom c.mem nx : Pc L).left d = some l) :
    l = d.gc.dropWhile (· ≠ nx) := by
  unfold gcFrom at h
  split at h
  · cases h
  · split at h <;> cases h
    rfl

/-- A node added in front is not in the way. -/
theorem dropWhile_cons_ne {l : List ℕ} (h : n ≠ nx) :
    (n::l).dropWhile (· ≠ nx) = l.dropWhile (· ≠ nx) :=
  List.dropWhile_cons_of_pos (by simpa using h)

theorem unread_cons (hp : Pos c p) (hd : d.fixed = n::c.fixed) (hn : n ∉ c.fixed) :
    p.unread d = p.unread c := by
  have hne : ∀ m ∈ c.fixed, n ≠ m := fun m hm => (ne_of_mem_of_not_mem hm hn).symm
  cases p with
  | scanTest m | scanPush m | scanLink m => simp only [Pc.unread,hd,dropWhile_cons_ne (hne m hp)]
  | _ => rfl

theorem unread_same (hd : d.fixed = c.fixed) : p.unread d = p.unread c := by
  cases p <;> simp only [Pc.unread,hd]

theorem left_same (hd : d.gc = c.gc) : p.left d = p.left c := by
  cases p with
  | pushCheck n head f | pushLoad n head f | pushStore n top head f | pushCas n head f
  | pushFailed n top head f => cases f <;> simp only [Pc.left,PushFor.left,hd]
  | _ => simp only [Pc.left,hd]

theorem left_cons (hs : Shared c place) (hp : Pos c p) (hd : d.gc = n::c.gc) (hn : n ∉ c.gc)
    (hne : n ≠ c.mem.endNode) : p.left d = p.left c := by
  have hmem : ∀ m ∈ c.gc, n ≠ m := fun m hm => (ne_of_mem_of_not_mem hm hn).symm
  have hon : ∀ m, OnGc c m → n ≠ m := by
    rintro m (rfl | hm)
    · exact hne
    · exact hmem m hm
  cases p with
  | gcNext g => simp only [Pc.left,hd,dropWhile_cons_ne (hmem g hp)]
  | gcObj g nx | gcPointer g nx => simp only [Pc.left,hd,dropWhile_cons_ne (hmem g hp.mem)]
  | gcStore g nx | gcDelete g nx =>
    simp only [Pc.left,hd,dropWhile_cons_ne (hon nx (hp.onGc hs))]
  | remTest g nx | remEnd g nx | remNext g nx | remExit g nx | remExpected g nx
  | remDesired g nx | remCas g nx =>
    simp only [Pc.left,hd,dropWhile_cons_ne (hon nx (hp.1.onGc hs))]
  | remClear g nx | gcEnd g nx => simp only [Pc.left,hd,dropWhile_cons_ne (hon nx hp)]
  | pushCheck n head f | pushLoad n head f | pushStore n top head f | pushCas n head f
  | pushFailed n top head f =>
    cases f with
    | collect nx => simp only [Pc.left,PushFor.left,hd,dropWhile_cons_ne (hon nx hp)]
    | release | delete | prime left => rfl
  | _ => rfl

end Lists

section Step

variable {c : Conf T L} {place : ℕ → Place T} {t u : T} {p : Pc L} {w : Write} {n m x : ℕ}

/-- The nodes of other threads are left alone. -/
theorem Inv.not_touched (hi : Inv c place) (h : (c.pc t).next c = some (w,p)) (hu : u ≠ t)
    (hn : n ∈ c.held u) : w.touches c ≠ some n := by
  intro ht
  rcases next_touches h ht with ho | rfl | ⟨nx,obj,hp | hp⟩
  · exact hu (hi.shared.held_unique hn (hi.own t n ho))
  · exact hi.shared.born_held hn hi.shared.fresh_unborn
  all_goals
    have hpos := hi.pos t
    rw [hp] at hpos
    exact hi.shared.held_gc hn hpos.mem

theorem Inv.gc_touched (hi : Inv c place) (h : (c.pc t).next c = some (w,p)) (hn : n ∈ c.gc)
    (ht : w.touches c = some n) :
    ∃ nx obj, c.pc t = .gcStore n nx obj ∨ c.pc t = .gcDelete n nx obj := by
  rcases next_touches h ht with ho | rfl | hp
  · exact absurd hn (hi.shared.held_gc (hi.own t n ho))
  · exact absurd hi.shared.fresh_unborn (hi.shared.born_gc hn)
  · exact hp

variable [DecidableEq T]

/-- An object that is in no location gets no new guard. -/
theorem Reclaims.guards (hr : Reclaims c) (hs : Shared c place)
    (h : (c.pc t).next c = some (w,p)) (hx : ∀ l, c.loc l ≠ x)
    (hg : Guards (c.write t w) m x) : Guards c m x := by
  rcases guards_write hs hr.valid hg with hg | ⟨rfl,hm⟩
  · exact hg
  · obtain ⟨l,hp⟩ := next_validate h
    have hk := hr.knows t
    rw [hp] at hk
    exact absurd (Eq.trans (Eq.symm hk) hm) (hx l)

theorem Reclaims.guards_cargo (hr : Reclaims c) (hs : Shared c place)
    (h : (c.pc t).next c = some (w,p)) (hn : c.cargo n ≠ 0)
    (hg : Guards (c.write t w) m (c.cargo n)) : Guards c m (c.cargo n) :=
  hr.guards hs h (fun l => hr.loc n l hn) hg

end Step

/-- Nothing that a thread knows of the node has changed. -/
structure SameAt (c d : Conf T L) (n : ℕ) : Prop where
  pointer : (d.mem.node n).pointer = (c.mem.node n).pointer
  gcPointer : (d.mem.node n).gcPointer = (c.mem.node n).gcPointer
  cargo : d.cargo n = c.cargo n

section Knows

variable {c d : Conf T L} {place : ℕ → Place T} {p p' : Pc L} {w : Write} {n g nx obj : ℕ}

theorem Doomed.frame (hd : Doomed c g obj) (hs : SameAt c d g)
    (hg : ∀ m, Guards d m obj → Guards c m obj) : Doomed d g obj :=
  ⟨hd.cargo.trans hs.cargo.symm,hd.ne_zero,fun m hm => hd.unguarded m (hg m hm)⟩

theorem Knows.frame (hk : Knows c p) (hown : ∀ n, p.own = some n → SameAt c d n)
    (hgc : ∀ g nx obj, p = .gcPointer g nx obj ∨ p = .gcStore g nx obj ∨ p = .gcDelete g nx obj →
      SameAt c d g)
    (hg : ∀ g obj, Doomed c g obj → ∀ m, Guards d m obj → Guards c m obj) : Knows d p := by
  cases p with
  | valTest n l obj => exact (hown n rfl).pointer.trans hk
  | delGc n | delTest n | delLoad n =>
    have hn := hown n rfl
    exact hn.pointer.trans (hk.trans hn.cargo.symm)
  | delExchange n obj => exact Eq.trans hk (hown n rfl).cargo.symm
  | delStore n | delNext n | delPointer n | delGcPointer n =>
    have hn := hown n rfl
    exact hn.gcPointer.trans (hk.trans hn.cargo.symm)
  | pushCheck n head f | pushLoad n head f | pushStore n top head f | pushCas n head f
  | pushFailed n top head f =>
    have hn := hown n rfl
    exact fun he => hn.gcPointer.trans ((hk he).trans hn.cargo.symm)
  | gcPointer g nx obj => exact ⟨hk.1.trans (hgc g nx obj (.inl rfl)).cargo.symm,hk.2⟩
  | gcStore g nx obj => exact Doomed.frame hk (hgc g nx obj (.inr (.inl rfl))) (hg g obj hk)
  | gcDelete g nx obj =>
    have hn := hgc g nx obj (.inr (.inr rfl))
    exact ⟨hk.1.frame hn (hg g obj hk.1),hn.gcPointer.trans hk.2⟩
  | _ => trivial

theorem knows_check {b : Bool} (hp : b → Knows c p) : Knows c (check b p) := by
  cases b with
  | false => trivial
  | true => exact hp rfl

theorem knows_primeFrom {k : ℕ} : Knows c (primeFrom k : Pc L) := by cases k <;> trivial

theorem knows_gcFrom {m : HazardPointerList} : Knows c (gcFrom m nx : Pc L) := by
  unfold gcFrom
  split
  · trivial
  · split <;> trivial

theorem knows_scanFrom {m : HazardPointerList} : Knows c (scanFrom m n : Pc L) := by
  unfold scanFrom
  split <;> trivial

theorem knows_addAfter {f : AddFor} : Knows c (f.after n : Pc L) := by
  cases f with
  | acquireNode => trivial
  | prime left => exact fun he => nomatch he

theorem knows_pushAfter {m : HazardPointerList} {f : PushFor} :
    Knows c (f.after m n : Pc L) := by
  cases f with
  | release | delete => trivial
  | prime left => exact knows_primeFrom
  | collect next => exact knows_gcFrom

variable [DecidableEq T] {t : T}

theorem knows_next (hk : Knows c p) (h : p.next c = some (w,p'))
    (hq : ∀ g nx, p = .gcObj g nx → (c.mem.node g).gcPointer = c.cargo g)
    (hv : ∀ g nx obj, p = .gcPointer g nx obj → Covered c [g] [] ∧
      c.mem.allHazPtrs.Pairwise (· ≤ ·)) : Knows (c.write t w) p' := by
  cases p
  case valLoad n l =>
    cases h
    rfl
  case delGc n drop =>
    cases h
    exact knows_check fun _ => hk
  case delTest n drop =>
    simp only [Pc.next] at h
    split at h <;> cases h
    · trivial
    · exact hk
  case delLoad n =>
    cases h
    exact hk
  case delExchange n obj =>
    cases h
    exact (congrArg _ (setGcPointer_self c.mem n obj)).trans hk
  case delStore n old =>
    cases h
    exact (setPointer_gcPointer c.mem n n old).trans hk
  case delNext n | delPointer n =>
    cases h
    exact knows_check fun _ => hk
  case delGcPointer n =>
    cases h
    exact knows_check fun _ _ => hk
  case pushCheck n head f =>
    cases h
    exact knows_check fun _ => hk
  case pushLoad n head f =>
    cases h
    exact hk
  case pushStore n top head f | pushFailed n top head f =>
    cases h
    exact fun he => (setNext_gcPointer c.mem n n top).trans (hk he)
  case pushCas n head f =>
    simp only [Pc.next] at h
    split at h <;> cases h
    · exact knows_pushAfter
    · exact hk
  case addCas n f =>
    simp only [Pc.next] at h
    split at h <;> cases h
    · exact knows_addAfter
    · trivial
  case relPointer n | gcEnd n nx =>
    cases h
    refine knows_check fun _ he => ?_
    cases he
  case gcObj g nx =>
    cases h
    exact knows_check fun hb => ⟨hq g nx rfl,of_decide_eq_true hb⟩
  case gcPointer g nx obj =>
    cases h
    refine knows_check fun _ => ?_
    split
    case isTrue => exact knows_gcFrom
    case isFalse hb =>
      obtain ⟨hcov,hsort⟩ := hv g nx obj rfl
      refine ⟨hk.1,hk.2,fun m hm => hb ?_⟩
      rw [binarySearch_iff hsort]
      obtain ⟨rfl,h0⟩ := hk
      exact (hcov g (by simp) h0 m hm).resolve_right (by simp)
  case gcStore g nx obj =>
    cases h
    refine ⟨⟨hk.cargo,hk.ne_zero,fun m hm => hk.unguarded m ⟨hm.1,?_⟩⟩,?_⟩
    · exact (setGcPointer_pointer c.mem g m 0).symm.trans hm.2
    · exact congrArg _ (setGcPointer_self c.mem g 0)
  all_goals first
    | (cases h; trivial)
    | (cases h; exact knows_check fun _ => trivial)
    | (cases h; split <;> trivial)
    | (simp only [Pc.next] at h; split at h <;> cases h <;> first | trivial | (split <;> trivial))
    | (simp only [Pc.next] at h; grind [Knows,knows_gcFrom,knows_scanFrom])

end Knows

section Scan

variable {c d : Conf T L} {place : ℕ → Place T} {p p' : Pc L} {w : Write} {n g nx : ℕ}
  {l : List ℕ}

@[grind =] theorem unread_gcFrom {m : HazardPointerList} :
    (gcFrom m nx : Pc L).unread c = none := by
  unfold gcFrom
  split
  · rfl
  · split <;> rfl

@[grind =] theorem unread_primeFrom {k : ℕ} : (primeFrom k : Pc L).unread c = none := by
  cases k <;> rfl

@[grind =] theorem unread_addAfter {f : AddFor} : (f.after n : Pc L).unread c = none := by
  cases f <;> rfl

@[grind =] theorem unread_pushAfter {m : HazardPointerList} {f : PushFor} :
    (f.after m n : Pc L).unread c = none := by
  cases f with
  | release | delete => rfl
  | prime left => exact unread_primeFrom
  | collect next => exact unread_gcFrom

theorem unread_check {b : Bool} :
    (check b p).unread c = if b then p.unread c else none := by cases b <;> rfl

theorem unread_scanFrom (hs : Shared c place) (h : (scanFrom c.mem n : Pc L).unread c = some l) :
    l = c.fixed.dropWhile (· ≠ n) := by
  unfold scanFrom at h
  split at h
  case isTrue hn =>
    cases h
    rw [hn,← (hs.fixedChain.dropWhile (.inl rfl)).eq_nil]
  case isFalse =>
    cases h
    rfl

variable [DecidableEq T] {t : T}

/-- What is not read yet gets shorter by a node that is read. -/
theorem scan_next (hs : Shared c place) (hp : Pos c p)
    (hc : ∀ l, p.unread c = some l → Covered c c.gc l) (hv : ∀ m, c.valid m → m ∈ c.fixed)
    (h : p.next c = some (w,p')) (hl : p'.unread (c.write t w) = some l) :
    Covered (c.write t w) (c.write t w).gc l := by
  cases p
  case scanHead =>
    cases h
    have hl := unread_scanFrom hs hl
    rw [hs.fixedChain.dropWhile_head] at hl
    exact fun n _ _ m hm => .inr (hl ▸ hv m hm.1)
  case scanTest n =>
    simp only [Pc.next] at h
    have hcov := hc _ rfl
    split at h <;> cases h
    case isTrue =>
      cases hl
      exact hcov
    case isFalse h0 =>
      cases hl
      intro k hk hck m hm
      refine (hcov k hk hck m hm).imp_right fun hmem => ?_
      obtain ⟨q,hq,-⟩ := (hs.fixedChain.dropWhile (.inr hp)).eq_cons
        (ne_of_mem_of_not_mem hp hs.fixedChain.stop_not_mem)
      show m ∈ (c.fixed.dropWhile (· ≠ n)).tail
      rw [hq] at hmem ⊢
      refine List.mem_of_ne_of_mem ?_ hmem
      rintro rfl
      exact hck (hm.2.symm.trans (not_not.mp h0))
  case scanPush n =>
    cases h
    cases hl
    intro k hk hck m hm
    have hcov := hc _ rfl k hk hck m hm
    by_cases hmn : m = n
    · subst hmn
      refine .inl (List.mem_append_right _ ?_)
      exact List.mem_singleton.mpr hm.2.symm
    · refine hcov.imp (List.mem_append_left _) fun hmem => ?_
      obtain ⟨q,hq,-⟩ := (hs.fixedChain.dropWhile (.inr hp)).eq_cons
        (ne_of_mem_of_not_mem hp hs.fixedChain.stop_not_mem)
      simp only [Conf.write,hq] at hmem ⊢
      exact List.mem_of_ne_of_mem hmn hmem
  case scanLink n =>
    cases h
    have hl := unread_scanFrom hs hl
    have ht := hs.fixedChain.tail_dropWhile hp
    rw [hl]
    exact ht ▸ hc _ rfl
  case sort =>
    cases h
    cases hl
    intro k hk hck m hm
    exact (hc _ rfl k hk hck m hm).imp_left (List.mem_insertionSort _).mpr
  all_goals first
    | (cases h; done)
    | (cases h; cases hl)
    | (cases h; rw [unread_check] at hl; split at hl <;> cases hl)
    | (cases h; split at hl <;> cases hl)
    | (simp only [Pc.next] at h; split at h <;> cases h <;> cases hl)
    | (simp only [Pc.next] at h; grind [Pc.unread,unread_check])

end Scan

section Walk

variable {c d : Conf T L} {place : ℕ → Place T} {p p' : Pc L} {w : Write} {n g nx : ℕ}
  {l : List ℕ}

@[grind =] theorem left_scanFrom {m : HazardPointerList} :
    (scanFrom m n : Pc L).left c = none := by
  unfold scanFrom
  split <;> rfl

@[grind =] theorem left_primeFrom {k : ℕ} : (primeFrom k : Pc L).left c = none := by
  cases k <;> rfl

@[grind =] theorem left_addAfter {f : AddFor} : (f.after n : Pc L).left c = none := by
  cases f <;> rfl

theorem left_check_some {b : Bool} (h : (check b p).left c = some l) : p.left c = some l := by
  cases b with
  | false => cases h
  | true => exact h

theorem next_gcHead (h : p.next c = some (w,p')) (hp : p' = .gcHead) : w = .sort := by
  have hu : p'.unread c = some [] := by rw [hp]; rfl
  cases p <;> first
    | (cases h; cases hp; done)
    | (cases h; rfl)
    | (cases h; rw [check] at hp; split at hp <;> cases hp)
    | (cases h; split at hp <;> cases hp)
    | (simp only [Pc.next] at h; split at h <;> cases h <;> cases hp)
    | (simp only [Pc.next] at h; grind [Pc.unread,unread_check,scanFrom])

variable [DecidableEq T] {t : T}

/-- What is left of the queue gets shorter. -/
theorem left_next (hs : Shared c place) (hp : Pos c p) (hown : ∀ n, p.own = some n → n ∈ c.held t)
    (h : p.next c = some (w,p')) (hl : p'.left (c.write t w) = some l) :
    p = .gcHead ∧ l = c.gc ∨ ∃ l', p.left c = some l' ∧ ∀ n ∈ l, n ∈ l' := by
  cases p
  case gcHead =>
    cases h
    refine .inl ⟨rfl,?_⟩
    have hl := left_gcFrom hl
    exact hl.trans hs.gcChain.dropWhile_head
  case gcNext g =>
    cases h
    cases hl
    exact .inr ⟨_,rfl,fun _ hn => hn⟩
  case gcObj g nx =>
    cases h
    cases left_check_some hl
    exact .inr ⟨_,rfl,fun _ hn => hn⟩
  case gcPointer g nx obj =>
    cases h
    have hl := left_check_some hl
    have hsub : ∀ n ∈ c.gc.dropWhile (· ≠ nx), n ∈ c.gc.dropWhile (· ≠ g) := by
      intro n hn
      rw [← hp.next,← hs.gcChain.tail_dropWhile hp.mem] at hn
      exact List.mem_of_mem_tail hn
    split at hl
    case isTrue =>
      have hl := left_gcFrom hl
      subst hl
      exact .inr ⟨_,rfl,hsub⟩
    case isFalse =>
      cases hl
      exact .inr ⟨_,rfl,hsub⟩
  case remCas g nx r e v =>
    simp only [Pc.next] at h
    split at h <;> cases h
    case isTrue =>
      cases hl
      refine .inr ⟨_,rfl,fun n hn => ?_⟩
      rw [← hp.1.next] at hn ⊢
      exact (hs.gcChain.dropWhile_erase hp.1.mem) ▸ hn
    case isFalse =>
      cases hl
      exact .inr ⟨_,rfl,fun _ hn => hn⟩
  case pushCas n head f =>
    simp only [Pc.next] at h
    split at h <;> cases h
    case isTrue =>
      cases f with
      | release | delete => cases hl
      | prime left => cases left_primeFrom.symm.trans hl
      | collect nx =>
        have hl := left_gcFrom hl
        have hn : n ≠ nx := by
          rintro rfl
          rcases hp with he | hg
          · exact hs.ne_endNode (hs.born_held (hown n rfl)) he
          · exact hs.held_gc (hown n rfl) hg
        refine .inr ⟨_,rfl,fun m hm => ?_⟩
        rw [hl] at hm
        cases head with
        | gcList => exact dropWhile_cons_ne hn ▸ hm
        | freeList => exact hm
    case isFalse =>
      cases f with
      | release | delete | prime left => cases hl
      | collect nx =>
        cases hl
        exact .inr ⟨_,rfl,fun _ hn => hn⟩
  case pushCheck n head f =>
    cases h
    have hl := left_check_some hl
    cases f with
    | release | delete | prime left => cases hl
    | collect nx =>
      cases hl
      exact .inr ⟨_,rfl,fun _ hn => hn⟩
  case pushLoad n head f | pushStore n top head f | pushFailed n top head f =>
    cases h
    cases f with
    | release | delete | prime left => cases hl
    | collect nx =>
      cases hl
      exact .inr ⟨_,rfl,fun _ hn => hn⟩
  case gcStore g nx obj | gcDelete g nx obj | remNext g nx r | remExpected g nx r
      | remDesired g nx r e | remClear g nx =>
    cases h
    cases hl
    exact .inr ⟨_,rfl,fun _ hn => hn⟩
  case gcEnd g nx =>
    cases h
    cases left_check_some hl
    exact .inr ⟨_,rfl,fun _ hn => hn⟩
  case remTest g nx r | remEnd g nx r =>
    cases h
    split at hl <;>
    · cases hl
      exact .inr ⟨_,rfl,fun _ hn => hn⟩
  case remExit g nx r =>
    cases h
    split at hl <;> cases hl
    exact .inr ⟨_,rfl,fun _ hn => hn⟩
  all_goals first
    | (cases h; done)
    | (cases h; cases hl)
    | (cases h; cases left_check_some hl)
    | (cases h; split at hl <;> cases hl)
    | (simp only [Pc.next] at h; split at h <;> cases h <;> cases hl)
    | (simp only [Pc.next] at h; grind [Pc.left])

/-- The traversal leaves `all_haz_ptrs` alone. -/
theorem left_allHazPtrs (h : p.next c = some (w,p')) (hl : p'.left d = some l) :
    (c.write t w).mem.allHazPtrs = c.mem.allHazPtrs := by
  cases next_writes h with
  | scanPush | sort | clear => cases hl
  | @push n head f hf => cases head <;> rfl
  | pop hf =>
    simp only [Conf.write]
    split <;> rfl
  | unlink => exact assign_allHazPtrs _ _ _
  | _ => rfl

end Walk

end SharedList
end Benedias
