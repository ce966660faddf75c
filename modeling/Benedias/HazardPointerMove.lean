import Benedias.Recycle

/-! The move constructor of `HazardPointer`. It moves the wrong way: `other` gets the value that
the new instance's storage happened to hold, and the new instance is bound to nothing. -/
namespace Benedias
namespace HazardPointer

/-- `hp_node` of the new instance, before the call the value left in its storage, and of `other`. -/
def moveConstruct (hpNode _other : ℕ) : ℕ × ℕ :=
  -- other.hp_node = std::move(hp_node); hp_node = NULL;
  let other := hpNode
  (0,other)

end HazardPointer

namespace HazardPointerRuns

open Interleaving HazardPointerList

variable {H : Type}

/-- The instance that the operation is called on. -/
def Label.instance? : Label H → Option H
  | .construct h | .acquire h _ | .release h | .delete h | .destroy h => some h
  | _ => none

/-- The operation under other names of the instances. -/
def Label.rename (f : H → H) : Label H → Label H
  | .prime nodeCount => .prime nodeCount
  | .acquireNode => .acquireNode
  | .nodeAcquire n p => .nodeAcquire n p
  | .nodeClear n => .nodeClear n
  | .nodeRelease n => .nodeRelease n
  | .nodeDelete n => .nodeDelete n
  | .construct h => .construct (f h)
  | .acquire h p => .acquire (f h) p
  | .release h => .release (f h)
  | .delete h => .delete (f h)
  | .destroy h => .destroy (f h)
  | .collect => .collect

/-- What a program sees of two runs in which `h2` and `h` stand for the same instance: the values
of `operator()`, the protected objects, the deletions, and the free, queued and bound nodes. -/
structure SeenAs (h h2 : H) (c c' : Conf H) : Prop where
  value : c'.value h2 = c.value h
  values : ∀ x, x ≠ h → x ≠ h2 → c'.value x = c.value x
  deleted : c'.list.deleted = c.list.deleted
  pools : ∀ p, c.list.Represents p → c'.list.Represents p ∧
    ∀ x, Protects c'.list p.fixed x ↔ Protects c.list p.fixed x
  bound : ∀ n, n ≠ 0 → ((∃ x, c'.hp x = some n) ↔ ∃ x, c.hp x = some n)

variable [DecidableEq H]

/-- `HazardPointer h2(std::move(h))`; the storage of `h2` holds `stale`. -/
def Conf.moveConstruct (c : Conf H) (h h2 : H) (stale : ℕ) : Conf H :=
  let (n,m) := HazardPointer.moveConstruct stale ((c.hp h).getD 0)
  (c.setHp h2 (some n)).setHp h (some m)

/-- The uses of `h` become uses of `h2`. -/
def Label.moved (h h2 : H) (l : Label H) : Label H := l.rename (Equiv.swap h h2)

/-- After the move `h` is bound to nothing, and every program that goes on with `h2` in place of
`h`, and destroys `h` at any time or not at all, runs and sees what it would have without. -/
structure MoveTransparent (c : Conf H) (h h2 : H) (stale : ℕ) : Prop where
  unbound : (c.moveConstruct h h2 stale).hp h = some 0
  alive : ∀ (as : List (Label H)) c₁, (∀ l ∈ as, l.instance? ≠ some h2) →
    (system H).exec c as = some c₁ →
    ∃ c₂, (system H).exec (c.moveConstruct h h2 stale) (as.map (Label.moved h h2)) = some c₂ ∧
      SeenAs h h2 c₁ c₂
  destroyed : ∀ (as bs : List (Label H)) c₁, (∀ l ∈ as++bs, l.instance? ≠ some h2) →
    (system H).exec c (as++bs) = some c₁ →
    ∃ c₂, (system H).exec (c.moveConstruct h h2 stale)
        (as.map (Label.moved h h2)++.destroy h::bs.map (Label.moved h h2)) = some c₂ ∧
      SeenAs h h2 c₁ c₂

/-- The instance `h` under the name `h2`; under its own name it is `v`. -/
def Conf.renamed (h h2 : H) (v : Option ℕ) (c : Conf H) : Conf H :=
  { c with hp := fun x => if x = h then v else c.hp (Equiv.swap h h2 x) }

variable {h h2 x : H} {v w : Option ℕ} {c : Conf H}

theorem swap_ne (hx : x ≠ h2) : Equiv.swap h h2 x ≠ h := by
  intro he
  exact hx (by rw [Equiv.swap_apply_eq_iff.mp he,Equiv.swap_apply_left])

@[simp] theorem Conf.renamed_list : (c.renamed h h2 v).list = c.list := rfl

theorem renamed_hp (hx : x ≠ h2) : (c.renamed h h2 v).hp (Equiv.swap h h2 x) = c.hp x := by
  simp [Conf.renamed,swap_ne hx]

theorem renamed_setHp (hx : x ≠ h2) :
    (c.renamed h h2 v).setHp (Equiv.swap h h2 x) w = (c.setHp x w).renamed h h2 v := by
  have hp : Function.update (c.renamed h h2 v).hp (Equiv.swap h h2 x) w =
      ((c.setHp x w).renamed h h2 v).hp := by
    funext y
    by_cases hy : y = Equiv.swap h h2 x
    · subst hy
      simp [Conf.renamed,Conf.setHp,swap_ne hx]
    · have hne : Equiv.swap h h2 y ≠ x := by
        rintro rfl
        simp at hy
      simp [Conf.renamed,Conf.setHp,hy,hne]
  exact congrArg (fun f : H → Option ℕ => ({ c with hp := f } : Conf H)) hp

/-- A step does the same under the other name. -/
theorem fire_renamed {l : Label H} (hl : l.instance? ≠ some h2) :
    fire (c.renamed h h2 v) (l.moved h h2) = (fire c l).map (Conf.renamed h h2 v) := by
  have hname : ∀ x, some x ≠ some h2 → x ≠ h2 := fun x hx he => hx (congrArg some he)
  cases l with
  | prime k =>
    cases hs : c.list.prime k <;> simp [Label.moved,Label.rename,fire,Conf.renamed,hs]
  | acquireNode => rfl
  | nodeAcquire n p =>
    by_cases hn : n ∈ c.raw <;> cases hs : c.list.acquire n p <;>
      simp [Label.moved,Label.rename,fire,Conf.renamed,hn,hs]
  | nodeClear n =>
    by_cases hn : n ∈ c.raw <;> cases hs : c.list.clear n <;>
      simp [Label.moved,Label.rename,fire,Conf.renamed,hn,hs]
  | nodeRelease n =>
    by_cases hn : n ∈ c.raw <;> cases hs : c.list.release n <;>
      simp [Label.moved,Label.rename,fire,Conf.renamed,hn,hs]
  | nodeDelete n =>
    by_cases hn : n ∈ c.raw <;> cases hs : c.list.delete n <;>
      simp [Label.moved,Label.rename,fire,Conf.renamed,hn,hs]
  | construct x =>
    have hx := hname x hl
    simp only [Label.moved,Label.rename,fire,renamed_hp hx]
    by_cases hn : c.hp x = none
    · simp only [hn,renamed_setHp hx]
      rfl
    · simp [hn]
  | acquire x p =>
    have hx := hname x hl
    simp only [Label.moved,Label.rename,fire,renamed_hp hx]
    cases hn : c.hp x with
    | none => rfl
    | some n => cases hs : HazardPointer.acquire c.list n p <;> simp [Conf.renamed,hs]
  | release x | destroy x =>
    have hx := hname x hl
    simp only [Label.moved,Label.rename,fire,renamed_hp hx]
    cases hn : c.hp x with
    | none => rfl
    | some n =>
      cases hs : HazardPointer.release c.list n with
      | none => simp [Conf.renamed,hs]
      | some r =>
        simp only [Conf.renamed_list,hs,bind,Option.bind_some,renamed_setHp hx]
        rfl
  | delete x =>
    have hx := hname x hl
    simp only [Label.moved,Label.rename,fire,renamed_hp hx]
    cases hn : c.hp x with
    | none => rfl
    | some n =>
      cases hs : HazardPointer.delete c.list n with
      | none => simp [Conf.renamed,hs]
      | some r =>
        simp only [Conf.renamed_list,hs,bind,Option.bind_some,renamed_setHp hx]
        rfl
  | collect => cases hs : c.list.collect noDtor <;> simp [Label.moved,Label.rename,fire,Conf.renamed,hs]

theorem instance_hps {l : Label H} (hl : l.instance? ≠ some x) (p : Pool) :
    l.hps c p x = c.hp x := by
  have hne : ∀ y, some y ≠ some x → x ≠ y := fun y hy he => hy (congrArg some he.symm)
  cases l with
  | construct y | release y | delete y | destroy y => exact Function.update_of_ne (hne y hl) _ _
  | _ => rfl

/-- The steps of other instances leave `h2` not alive. -/
theorem exec_hp_none {as : List (Label H)} {c' : Conf H} (hr : (system H).Reachable c)
    (hl : ∀ l ∈ as, l.instance? ≠ some h2) (hn : c.hp h2 = none)
    (hf : (system H).exec c as = some c') : c'.hp h2 = none := by
  induction as generalizing c with
  | nil =>
    obtain rfl := Option.some.inj hf
    exact hn
  | cons l as ih =>
    obtain ⟨d,hd,hf⟩ := Option.bind_eq_some_iff.mp hf
    obtain ⟨p,hi,-⟩ := reachable_account hr
    refine ih (hr.step hd) (fun l hm => hl l (List.mem_cons_of_mem _ hm)) ?_ hf
    rw [(fire_effect hi hd).hp,instance_hps (hl l (by simp)) p]
    exact hn

theorem exec_renamed {as : List (Label H)} (hl : ∀ l ∈ as, l.instance? ≠ some h2) :
    (system H).exec (c.renamed h h2 v) (as.map (Label.moved h h2)) =
      ((system H).exec c as).map (Conf.renamed h h2 v) :=
  System.exec_map (fun _ l hm => fire_renamed (hl l hm)) c

/-- Under the other name everything looks the same. -/
theorem seenAs_renamed (hne : h ≠ h2) (hn : c.hp h2 = none) (hv : v = some 0 ∨ v = none) :
    SeenAs h h2 c (c.renamed h h2 v) where
  value := by simp [Conf.value,Conf.renamed,hne.symm]
  values x hx hx2 := by
    simp [Conf.value,Conf.renamed,hx,Equiv.swap_apply_of_ne_of_ne hx hx2]
  deleted := rfl
  pools _ hr := ⟨hr,fun _ => Iff.rfl⟩
  bound n h0 := by
    constructor
    · rintro ⟨x,hx⟩
      by_cases hxh : x = h
      · rcases hv with rfl | rfl <;> simp [Conf.renamed,hxh,Ne.symm h0] at hx
      · exact ⟨Equiv.swap h h2 x,by simpa [Conf.renamed,hxh] using hx⟩
    · rintro ⟨x,hx⟩
      have hx2 : x ≠ h2 := by
        rintro rfl
        rw [hn] at hx
        cases hx
      exact ⟨Equiv.swap h h2 x,by rw [renamed_hp hx2,hx]⟩

/-- With nothing to move, and NULL in the storage, the wrong direction does no harm. -/
theorem moveConstruct_null (hne : h ≠ h2) (hn : c.hp h = some 0) :
    c.moveConstruct h h2 0 = c.renamed h h2 (some 0) := by
  have hp : Function.update (Function.update c.hp h2 (some 0)) h (some 0) =
      (c.renamed h h2 (some 0)).hp := by
    funext y
    by_cases hy : y = h
    · simp [Conf.renamed,hy]
    · by_cases hy2 : y = h2
      · subst hy2
        simp [Conf.renamed,hy,hn]
      · simp [Conf.renamed,hy,hy2,Equiv.swap_apply_of_ne_of_ne hy hy2]
  exact congrArg (fun f : H → Option ℕ => ({ c with hp := f } : Conf H)) hp

theorem destroy_renamed :
    fire (c.renamed h h2 (some 0)) (.destroy h) = some (c.renamed h h2 none) := by
  have hp : Function.update (c.renamed h h2 (some 0)).hp h none = (c.renamed h h2 none).hp := by
    funext y
    by_cases hy : y = h <;> simp [Conf.renamed,hy]
  have hself : (c.renamed h h2 (some 0)).hp h = some 0 := by simp [Conf.renamed]
  simp only [fire,hself,HazardPointer.release,bind,Option.bind_some,if_true,Conf.setHp,hp]
  rfl

/-- The move is transparent if and only if the moved instance is not bound and the storage of the
new instance happens to hold NULL. -/
theorem move_transparent_iff {c : Conf H} {h h2 : H} {n : ℕ} (hr : (system H).Reachable c)
    (hn : c.hp h = some n) (hn2 : c.hp h2 = none) (stale : ℕ) :
    MoveTransparent c h h2 stale ↔ n = 0 ∧ stale = 0 := by
  have hne : h ≠ h2 := by
    rintro rfl
    rw [hn] at hn2
    cases hn2
  obtain ⟨p,hi,-⟩ := reachable_account hr
  constructor
  · intro ht
    have hstale : stale = 0 := by
      simpa [Conf.moveConstruct,HazardPointer.moveConstruct,Conf.setHp] using ht.unbound
    refine ⟨?_,hstale⟩
    by_contra h0
    -- the node that `h` held is bound to nobody after the move
    obtain ⟨c₂,hc₂,hs⟩ := ht.alive [] c (by simp) rfl
    obtain rfl := Option.some.inj hc₂
    obtain ⟨x,hx⟩ := (hs.bound n h0).mpr ⟨h,hn⟩
    simp only [Conf.moveConstruct,HazardPointer.moveConstruct,Conf.setHp,hstale] at hx
    by_cases hxh : x = h
    · simp [hxh,Ne.symm h0] at hx
    · by_cases hx2 : x = h2
      · simp [hx2,hne.symm,Ne.symm h0] at hx
      · exact hxh (hi.hpInj x h n (by simpa [hxh,hx2] using hx) hn h0)
  · rintro ⟨rfl,rfl⟩
    have hmove := moveConstruct_null hne hn
    refine ⟨by simp [hmove,Conf.renamed],?_,?_⟩
    · intro as c₁ hl hc₁
      refine ⟨c₁.renamed h h2 (some 0),?_,seenAs_renamed hne ?_ (.inl rfl)⟩
      · rw [hmove,exec_renamed hl,hc₁]
        rfl
      · exact exec_hp_none hr hl hn2 hc₁
    · intro as bs c₁ hl hc₁
      have hlas : ∀ l ∈ as, l.instance? ≠ some h2 := fun l hm => hl l (List.mem_append_left _ hm)
      have hlbs : ∀ l ∈ bs, l.instance? ≠ some h2 := fun l hm => hl l (List.mem_append_right _ hm)
      refine ⟨c₁.renamed h h2 none,?_,seenAs_renamed hne (exec_hp_none hr hl hn2 hc₁) (.inr rfl)⟩
      rw [System.exec_append] at hc₁ ⊢
      obtain ⟨d,hd,hc₁⟩ := Option.bind_eq_some_iff.mp hc₁
      rw [hmove,exec_renamed hlas,hd]
      have hdestroy : (system H).fire (d.renamed h h2 (some 0)) (.destroy h) =
          some (d.renamed h h2 none) := destroy_renamed
      simp only [Option.map_some,Option.bind_some,System.exec,hdestroy,exec_renamed hlbs,hc₁]

/-- An instance is unbound by `Release`; the node it had is free. -/
def releasedSchedule : List (Label Party) := [.construct 0,.acquire 0 100,.release 0]

def releasedConf : Conf Party := ((system Party).exec start releasedSchedule).getD start

theorem releasedConf_reachable : (system Party).Reachable releasedConf :=
  System.Reachable.execD releasedSchedule (.init rfl)

theorem move_transparent_iff_releasedConf :
    (MoveTransparent releasedConf 0 1 0 ↔ (0 : ℕ) = 0 ∧ (0 : ℕ) = 0) ∧
    (MoveTransparent releasedConf 0 1 2 ↔ (0 : ℕ) = 0 ∧ (2 : ℕ) = 0) :=
  ⟨move_transparent_iff releasedConf_reachable (by decide) (by decide) 0,
    move_transparent_iff releasedConf_reachable (by decide) (by decide) 2⟩

def protectingConf : Conf Party :=
  ((system Party).exec start [.construct 0,.acquire 0 100]).getD start

/-- An instance that protects an object is moved: the new one knows nothing of the object. -/
theorem not_move_transparent :
    (system Party).Reachable protectingConf ∧ protectingConf.value 0 = some 100 ∧
      ∀ stale, (protectingConf.moveConstruct 0 1 stale).value 1 = some 0 ∧
        ¬MoveTransparent protectingConf 0 1 stale := by
  have hr : (system Party).Reachable protectingConf := System.Reachable.execD _ (.init rfl)
  refine ⟨hr,by decide,fun stale => ⟨rfl,fun ht => ?_⟩⟩
  obtain ⟨c₂,hc₂,hs⟩ := ht.alive [] protectingConf (by simp) rfl
  obtain rfl := Option.some.inj hc₂
  have hval := hs.value
  exact absurd hval (by simp [show protectingConf.value 0 = some 100 by decide,
    show (protectingConf.moveConstruct 0 1 stale).value 1 = some 0 from rfl])

end HazardPointerRuns
end Benedias
