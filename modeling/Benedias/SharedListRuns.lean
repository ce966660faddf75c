import Benedias.SharedListInvariant

/-! The invariant of the shared lists, and the conditions on a step under which it is kept. -/
namespace Benedias
namespace SharedList

open Interleaving LinkedChain HazardPointerList

variable {T L : Type}

structure Inv (c : Conf T L) (place : ℕ → Place T) : Prop where
  shared : Shared c place
  own : ∀ t n, (c.pc t).own = some n → n ∈ c.held t
  adding : ∀ t n, (c.pc t).adding = some n → n ∉ c.fixed
  /-- a node is on the fixed list, or about to be added to it -/
  added : ∀ n, place n ≠ .unborn → n ∈ c.fixed ∨ ∃ t, (c.pc t).adding = some n
  critical : ∀ t, (c.pc t).critical → c.lock = some t
  pos : ∀ t, Pos c (c.pc t)

theorem inv_start : Inv (start : Conf T L) fun _ => .unborn where
  shared := by
    constructor <;> simp [start,Covers,HazardPointerList.init,nextOf]
    intro n h0 h1
    omega
  own := by simp [start,Pc.own]
  adding := by simp [start,Pc.adding]
  added := by simp
  critical := by simp [start,Pc.critical]
  pos := by simp [start,Pos]

section Step

variable {c : Conf T L} {place : ℕ → Place T} {t u : T} {p : Pc L} {w : Write} {n : ℕ}

theorem Inv.critical_unique (hi : Inv c place) (ht : (c.pc t).critical) (hu : (c.pc u).critical) :
    t = u := Option.some.inj ((hi.critical t ht).symm.trans (hi.critical u hu))

theorem Inv.ok (hi : Inv c place) (h : (c.pc t).next c = some (w,p)) (hw : w.popOk c) :
    w.Ok c t := next_ok (hi.own t) (hi.adding t) (hi.pos t) h hw

/-- Only the thread inside `Collect` makes the writes of the collector. -/
theorem Inv.not_locked (hi : Inv c place) (h : (c.pc t).next c = some (w,p)) (hu : u ≠ t)
    (hc : (c.pc u).critical) : ¬w.locked :=
  fun hl => hu (hi.critical_unique hc (next_locked h hl))

theorem Inv.fixed_of_held (hi : Inv c place) (hn : n ∈ c.held t) (ht : (c.pc t).adding ≠ some n) :
    n ∈ c.fixed := by
  rcases hi.added n (hi.shared.born_held hn) with hf | ⟨u,hu⟩
  · exact hf
  · obtain rfl := hi.shared.held_unique hn (hi.own u n (own_of_adding hu))
    exact absurd hu ht

variable [DecidableEq T]

theorem Inv.pos_other (hi : Inv c place) (h : (c.pc t).next c = some (w,p)) (hw : w.popOk c)
    (hg : w.pushesGc → ∀ u, ¬(c.pc u).rereads) (hu : u ≠ t) :
    Pos (c.write t w) (c.pc u) := by
  by_cases hc : (c.pc u).critical
  · have hn : ∀ r g d, w ≠ .unlink r g d := by
      rintro r g d rfl
      exact hi.not_locked h hu hc rfl
    refine (hi.pos u).grow (hi.shared.grows (hi.ok h hw) hn) fun hr => ?_
    exact gcList_write (fun hp => hg hp u hr) hn
  · exact pos_of_not_critical (hi.pos u) hc

theorem Inv.pos_self (hi : Inv c place) (h : (c.pc t).next c = some (w,p)) (hw : w.popOk c) :
    Pos (c.write t w) p := by
  by_cases hu : ∃ r g d, w = .unlink r g d
  · obtain ⟨r,g,d,rfl⟩ := hu
    obtain ⟨nx,hp,rfl⟩ := next_unlink h
    obtain ⟨ha,hr,-⟩ : Pos c (.remCas g nx r (c.mem.deref r) d : Pc L) := hp ▸ hi.pos t
    have hne : nx ≠ g := ha.next ▸ hi.shared.gcChain.next_ne ha.mem
    refine (ha.onGc hi.shared).imp (fun he => ?_) fun hm => ?_
    · exact he.trans (assign_frame hr d).1.symm
    · exact (List.mem_erase_of_ne hne).mpr hm
  · have hu : ∀ r g d, w ≠ .unlink r g d := fun r g d he => hu ⟨r,g,d,he⟩
    refine (pos_next hi.shared (hi.pos t) h hu).grow (hi.shared.grows (hi.ok h hw) hu) fun hr => ?_
    exact gcList_write (next_rereads h hr) hu

theorem Inv.adding_write (hi : Inv c place) (h : (c.pc t).next c = some (w,p)) (hw : w.popOk c)
    (hu : u ≠ t) (hn : (c.pc u).adding = some n) : n ∉ (c.write t w).fixed := by
  rw [mem_fixed_write]
  rintro (rfl | hf)
  · have hok : n ∈ c.held t := (hi.ok h hw).1
    exact hu (hi.shared.held_unique (hi.own u n (own_of_adding hn)) hok)
  · exact hi.adding u n hn hf

theorem Inv.adding_self (hi : Inv c place) (h : (c.pc t).next c = some (w,p))
    (hn : p.adding = some n) : n ∉ (c.write t w).fixed := by
  rw [mem_fixed_write]
  rcases next_adding h hn with ⟨rfl,rfl⟩ | ⟨ha,-,hw⟩
  · simpa using fun hf => hi.shared.fixedBorn _ hf hi.shared.fresh_unborn
  · simpa [hw n] using hi.adding t n ha

theorem Inv.added_write (hi : Inv c place) (h : (c.pc t).next c = some (w,p)) (hw : w.popOk c)
    (hn : w.place c t place n ≠ .unborn) :
    n ∈ (c.write t w).fixed ∨ ∃ u, (Function.update c.pc t p u).adding = some n := by
  rw [mem_fixed_write]
  rcases hi.shared.born_write (hi.ok h hw) hn with hb | ⟨rfl,rfl⟩
  · rcases hi.added n hb with hf | ⟨u,hu⟩
    · exact .inl (.inr hf)
    · by_cases hut : u = t
      · subst hut
        rcases adding_next h hu with ha | ha
        · exact .inr ⟨u,by simpa using ha⟩
        · exact .inl (.inl ha)
      · exact .inr ⟨u,by simpa [hut] using hu⟩
  · exact .inr ⟨t,by simpa using next_new h⟩

theorem Inv.critical_write (hi : Inv c place) (h : (c.pc t).next c = some (w,p)) (u : T)
    (hc : (Function.update c.pc t p u).critical) : (c.write t w).lock = some u := by
  by_cases hut : u = t
  · subst hut
    rw [Function.update_self] at hc
    rcases next_critical h hc with rfl | ⟨hp,hw⟩
    · rfl
    · rcases lock_write (c:=c) (t:=u) (w:=w) with he | rfl | rfl
      · exact he.trans (hi.critical u hp)
      · rfl
      · exact absurd rfl hw
  · rw [Function.update_of_ne hut] at hc
    have hl := hi.critical u hc
    rcases lock_write (c:=c) (t:=t) (w:=w) with he | rfl | rfl
    · exact he.trans hl
    · cases (next_lock h).symm.trans hl
    · exact absurd rfl (hi.not_locked h hut hc)

theorem Inv.step (hi : Inv c place) (h : (c.pc t).next c = some (w,p)) (hw : w.popOk c)
    (hg : w.pushesGc → ∀ u, ¬(c.pc u).rereads) :
    Inv ((c.write t w).setPc t p) (w.place c t place) where
  shared := { hi.shared.write (hi.ok h hw) with }
  own u n hn := by
    simp only [Conf.setPc,pc_write] at hn
    by_cases hut : u = t
    · subst hut
      rw [Function.update_self] at hn
      exact owns_held (hi.own u) (next_own h hn)
    · rw [Function.update_of_ne hut] at hn
      exact (held_write_of_ne hut).symm ▸ hi.own u n hn
  adding u n hn := by
    simp only [Conf.setPc,pc_write] at hn
    by_cases hut : u = t
    · subst hut
      rw [Function.update_self] at hn
      exact hi.adding_self h hn
    · rw [Function.update_of_ne hut] at hn
      exact hi.adding_write h hw hut hn
  added n hn := by
    simp only [Conf.setPc,pc_write]
    exact hi.added_write h hw hn
  critical u hu := by
    simp only [Conf.setPc,pc_write] at hu
    exact hi.critical_write h u hu
  pos u := by
    suffices hp : Pos (c.write t w) (((c.write t w).setPc t p).pc u) from hp.same rfl rfl rfl
    simp only [Conf.setPc,pc_write]
    by_cases hut : u = t
    · subst hut
      rw [Function.update_self]
      exact hi.pos_self h hw
    · rw [Function.update_of_ne hut]
      exact hi.pos_other h hw hg hut

end Step

/-- What a step writes. -/
def Conf.writeOf (c : Conf T L) : Label T L → Write
  | .step t =>
    match (c.pc t).next c with
    | some r => r.1
    | none => .none
  | _ => .none

/-- No push onto the gc list succeeds while `remove` is about to read the head again. -/
def HeadSteady (c : Conf T L) (a : Label T L) : Prop :=
  (c.writeOf a).pushesGc → ∀ u, ¬(c.pc u).rereads

/-- No compare-exchange of `pop` succeeds with a link that has left the free list. -/
def PopCurrent (c : Conf T L) (a : Label T L) : Prop := (c.writeOf a).popOk c

def Undisturbed (c : Conf T L) (a : Label T L) : Prop := HeadSteady c a ∧ PopCurrent c a

section Fire

variable {c : Conf T L} {place : ℕ → Place T} {t : T} {p : Pc L}

/-- What a client has called a function for, and what the locations hold, is of no account. -/
theorem Inv.same {d : Conf T L} (hi : Inv c place) (hm : d.mem = c.mem) (hl : d.lock = c.lock)
    (hpc : d.pc = c.pc) (hh : d.held = c.held) (hf : d.fixed = c.fixed) (hg : d.gc = c.gc)
    (hfr : d.free = c.free) : Inv d place where
  shared := by
    have hs := hi.shared
    constructor <;> simp only [hm,hh,hf,hg,hfr]
    · exact hs.gcChain
    · exact hs.freeChain
    · exact hs.fixedChain
    · exact hs.endNode
    · exact hs.endNext
    · exact hs.gcPlace
    · exact hs.freePlace
    · exact hs.heldPlace
    · exact hs.nodup
    · exact hs.born
    · exact hs.fixedBorn
  own := by simpa only [hpc,hh] using hi.own
  adding := by simpa only [hpc,hf] using hi.adding
  added := by simpa only [hpc,hf] using hi.added
  critical := by simpa only [hpc,hl] using hi.critical
  pos u := hpc ▸ (hi.pos u).same hm hg hf

variable [DecidableEq T]

theorem Inv.enter (hi : Inv c place) (ht : c.pc t = .idle) (hown : ∀ n, p.own = some n → n ∈ c.held t)
    (hadd : p.adding = none) (hc : ¬p.critical) (hp : Pos c p) : Inv (c.setPc t p) place where
  shared := { hi.shared with }
  own u n hn := by
    by_cases hut : u = t
    · subst hut
      exact hown n (by simpa [Conf.setPc] using hn)
    · exact hi.own u n (by simpa [Conf.setPc,hut] using hn)
  adding u n hn := by
    by_cases hut : u = t
    · subst hut
      simp [Conf.setPc,hadd] at hn
    · exact hi.adding u n (by simpa [Conf.setPc,hut] using hn)
  added n hn := by
    refine (hi.added n hn).imp_right fun ⟨u,hu⟩ => ⟨u,?_⟩
    have hut : u ≠ t := by
      rintro rfl
      simp [ht,Pc.adding] at hu
    simpa [Conf.setPc,hut] using hu
  critical u hu := by
    by_cases hut : u = t
    · subst hut
      simp [Conf.setPc,hc] at hu
    · exact hi.critical u (by simpa [Conf.setPc,hut] using hu)
  pos u := by
    suffices h : Pos c ((c.setPc t p).pc u) from h.same rfl rfl rfl
    by_cases hut : u = t
    · subst hut
      simpa [Conf.setPc] using hp
    · simpa [Conf.setPc,hut] using hi.pos u

theorem Inv.call {c' : Conf T L} {n : ℕ} [DecidableEq L] (hi : Inv c place)
    (h : c.call t n p = some c') (hown : p.own = some n) (hadd : p.adding = none)
    (hc : ¬p.critical) (hp : Pos c p) : Inv c' place := by
  simp only [Conf.call] at h
  split at h <;> cases h
  case isTrue hn =>
    have hh : ∀ m, p.own = some m → m ∈ c.held t := by
      intro m hm
      obtain rfl := Option.some.inj (hown.symm.trans hm)
      exact hn.2
    exact hi.enter hn.1 hh hadd hc hp

variable [DecidableEq L]

theorem fire_inv {c' : Conf T L} {a : Label T L} (hi : Inv c place) (h : fire c a = some c')
    (hu : Undisturbed c a) : ∃ place', Inv c' place' := by
  cases a with
  | step t =>
    simp only [fire,Option.map_eq_some_iff] at h
    obtain ⟨⟨w,p⟩,hn,rfl⟩ := h
    simp only [Undisturbed,HeadSteady,PopCurrent,Conf.writeOf,hn] at hu
    exact ⟨_,hi.step hn hu.2 hu.1⟩
  | store l obj =>
    cases h
    exact ⟨place,hi.same rfl rfl rfl rfl rfl rfl rfl⟩
  | acquire t n l | validate t n l | clear t n | release t n drop =>
    exact ⟨place,hi.call h rfl rfl (by simp [Pc.critical]) trivial⟩
  | delete t n drop =>
    have hi : Inv { c with cargo := Function.update c.cargo n (c.mem.node n).pointer } place :=
      hi.same rfl rfl rfl rfl rfl rfl rfl
    exact ⟨place,hi.call h rfl rfl (by simp [Pc.critical]) trivial⟩
  | acquireNode t | collect t =>
    simp only [fire] at h
    split at h <;> cases h
    next ht => exact ⟨place,hi.enter ht (by simp [Pc.own]) rfl (by simp [Pc.critical]) trivial⟩
  | prime t k =>
    simp only [fire] at h
    split at h <;> cases h
    next ht => exact ⟨place,hi.enter ht (by simp) (by simp) (by simp) pos_primeFrom⟩

theorem reachable_inv (hr : (system T L).ReachableVia Undisturbed c) : ∃ place, Inv c place := by
  refine hr.invariant (I:=fun c => ∃ place, Inv c place) (fun s hs => ?_)
    fun s a s' _ hi hu hf => ?_
  · obtain rfl : s = start := hs
    exact ⟨_,inv_start⟩
  · obtain ⟨place,hi⟩ := hi
    exact fire_inv hi hf hu

end Fire

end SharedList
end Benedias
