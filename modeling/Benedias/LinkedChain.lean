import Mathlib.Data.List.Basic
import Mathlib.Data.List.Nodup
import Mathlib.Data.List.TakeWhile
import Mathlib.Logic.Function.Basic

/-! Linked lists in memory: a head address and a link function spell a list of addresses that
ends at a fixed stop address. Addresses are of any type. -/
namespace Benedias
namespace LinkedChain

variable {A : Type}

/-- Following `next` from the head visits exactly the list and then reaches `stop`. -/
def Chain (next : A → A) (stop : A) : A → List A → Prop
  | h, [] => h = stop
  | h, a::l => h = a ∧ a ≠ stop ∧ Chain next stop (next a) l

variable {next next' : A → A} {stop h a b : A} {l l' p q : List A}

@[simp] theorem chain_nil : Chain next stop h [] ↔ h = stop := Iff.rfl

@[simp] theorem chain_cons :
    Chain next stop h (a::l) ↔ h = a ∧ a ≠ stop ∧ Chain next stop (next a) l := Iff.rfl

/-- Only the links of the list's own members matter. -/
theorem Chain.congr (hc : Chain next stop h l) (hn : ∀ a ∈ l, next' a = next a) :
    Chain next' stop h l := by
  induction l generalizing h with
  | nil => exact hc
  | cons a l ih =>
    obtain ⟨rfl,hs,hc⟩ := hc
    rw [← hn h (by simp)] at hc
    exact ⟨rfl,hs,ih hc fun b hb => hn b (by simp [hb])⟩

theorem Chain.stop_not_mem (hc : Chain next stop h l) : stop ∉ l := by
  induction l generalizing h with
  | nil => simp
  | cons a l ih =>
    obtain ⟨rfl,hs,hc⟩ := hc
    simpa [Ne.symm hs] using ih hc

theorem Chain.unique (hc : Chain next stop h l) (hc' : Chain next stop h l') : l = l' := by
  induction l generalizing h l' with
  | nil =>
    cases l' with
    | nil => rfl
    | cons b l' => exact absurd (hc'.1.symm.trans hc) hc'.2.1
  | cons a l ih =>
    cases l' with
    | nil => exact absurd (hc.1.symm.trans hc') hc.2.1
    | cons b l' =>
      obtain ⟨rfl,-,hc⟩ := hc
      obtain ⟨rfl,-,hc'⟩ := hc'
      rw [ih hc hc']

theorem Chain.head_mem (hc : Chain next stop h l) (hs : h ≠ stop) : h ∈ l := by
  cases l with
  | nil => exact absurd hc hs
  | cons a l => simp [hc.1]

theorem Chain.eq_nil (hc : Chain next stop stop l) : l = [] :=
  hc.unique (show Chain next stop stop [] from rfl)

/-- A non-empty chain starts with its head. -/
theorem Chain.eq_cons (hc : Chain next stop h l) (hs : h ≠ stop) :
    ∃ l', l = h::l' ∧ Chain next stop (next h) l' := by
  cases l with
  | nil => exact absurd hc hs
  | cons a l =>
    obtain ⟨rfl,-,hc⟩ := hc
    exact ⟨l,rfl,hc⟩

theorem Chain.drop (hc : Chain next stop h (p++a::q)) : Chain next stop a (a::q) := by
  induction p generalizing h with
  | nil => exact hc.1 ▸ hc
  | cons b p ih => exact ih hc.2.2

/-- The tail of the chain behind one of its members. -/
theorem Chain.tail (hc : Chain next stop h (p++a::q)) : Chain next stop (next a) q := hc.drop.2.2

theorem Chain.next_mem (hc : Chain next stop h l) (ha : a ∈ l) : next a = stop ∨ next a ∈ l := by
  obtain ⟨p,q,rfl⟩ := List.append_of_mem ha
  by_cases hs : next a = stop
  · exact .inl hs
  · right
    have hm := hc.tail.head_mem hs
    simp [hm]

/-- A suffix of a chain over other links, entered at its head, is a chain over these. -/
theorem Chain.transfer (hc : Chain next stop a l) (hc' : Chain next' stop h (p++l)) :
    Chain next' stop a l := by
  cases l with
  | nil => exact hc
  | cons b l => exact hc.1 ▸ hc'.drop

theorem Chain.nodup (hc : Chain next stop h l) : l.Nodup := by
  induction l generalizing h with
  | nil => simp
  | cons a l ih =>
    obtain ⟨rfl,hs,hc⟩ := hc
    refine List.nodup_cons.mpr ⟨?_,ih hc⟩
    intro hm
    obtain ⟨p,q,rfl⟩ := List.append_of_mem hm
    -- the chain from a repeated member would be two lists of different lengths
    have he := Chain.unique (l:=h::(p++h::q)) ⟨rfl,hs,hc⟩ hc.drop
    have hl := congrArg List.length he
    simp only [List.length_cons,List.length_append] at hl
    omega

theorem Chain.next_ne (hc : Chain next stop h l) (ha : a ∈ l) : next a ≠ a := by
  intro he
  obtain ⟨p,q,rfl⟩ := List.append_of_mem ha
  have hn := hc.drop.nodup
  have hm := hc.tail.head_mem (he.trans_ne hc.drop.2.1)
  rw [he] at hm
  exact (List.nodup_cons.mp hn).1 hm

section Update

variable [DecidableEq A]

theorem Chain.update (hc : Chain next stop h l) (ha : a ∉ l) :
    Chain (Function.update next a b) stop h l := by
  refine hc.congr fun c hm => Function.update_of_ne ?_ _ _
  rintro rfl
  exact ha hm

theorem Chain.push (hc : Chain next stop h l) (ha : a ∉ l) (hs : a ≠ stop) :
    Chain (Function.update next a h) stop a (a::l) := by
  refine ⟨rfl,hs,?_⟩
  rw [Function.update_self]
  exact hc.update ha

/-- The chain from the stop address or from a member. -/
theorem Chain.dropWhile (hc : Chain next stop h l) (ha : a = stop ∨ a ∈ l) :
    Chain next stop a (l.dropWhile (· ≠ a)) := by
  rcases ha with rfl | ha
  · have hn : l.dropWhile (· ≠ a) = [] := by
      rw [List.dropWhile_eq_nil_iff]
      intro b hb
      simpa using ne_of_mem_of_not_mem hb hc.stop_not_mem
    rw [hn]
    rfl
  · induction l generalizing h with
    | nil => simp at ha
    | cons b l ih =>
      by_cases hb : b = a
      · subst hb
        simpa using ⟨hc.2.1,hc.2.2⟩
      · rw [List.dropWhile_cons_of_pos (by simpa using hb)]
        exact ih hc.2.2 (by simpa [Ne.symm hb] using ha)

theorem Chain.dropWhile_head (hc : Chain next stop h l) : l.dropWhile (· ≠ h) = l := by
  by_cases hs : h = stop
  · subst hs
    rw [hc.eq_nil]
    rfl
  · exact (hc.dropWhile (.inr (hc.head_mem hs))).unique hc

theorem Chain.tail_dropWhile (hc : Chain next stop h l) (ha : a ∈ l) :
    (l.dropWhile (· ≠ a)).tail = l.dropWhile (· ≠ next a) := by
  have hd := hc.dropWhile (.inr ha)
  have hs : a ≠ stop := ne_of_mem_of_not_mem ha hc.stop_not_mem
  obtain ⟨q,hq,ht⟩ := hd.eq_cons hs
  rw [hq,List.tail_cons]
  exact ht.unique (hc.dropWhile (hc.next_mem ha))

/-- Without the member, the list behind it is the same. -/
theorem Chain.dropWhile_erase (hc : Chain next stop h l) (ha : a ∈ l) :
    (l.erase a).dropWhile (· ≠ next a) = l.dropWhile (· ≠ next a) := by
  have hne := hc.next_ne ha
  obtain ⟨p,q,rfl⟩ := List.append_of_mem ha
  have hn := hc.nodup
  rw [List.nodup_append] at hn
  have hp : ∀ b ∈ p, b ≠ a := fun b hb => hn.2.2 b hb a (by simp)
  have hnext : ∀ b ∈ p, b ≠ next a := by
    intro b hb he
    rcases hc.next_mem ha with hs | hm
    · exact hc.stop_not_mem (hs ▸ he ▸ List.mem_append_left _ hb)
    · by_cases hs : next a = stop
      · exact hc.stop_not_mem (hs ▸ hm)
      · exact hn.2.2 b hb b (List.mem_cons_of_mem a (he ▸ hc.tail.head_mem hs)) rfl
  rw [List.erase_append_right _ fun h => hp a h rfl,List.erase_cons_head,
    List.dropWhile_append_of_pos (by simpa using hnext),
    List.dropWhile_append_of_pos (by simpa using hnext),
    List.dropWhile_cons_of_pos (by simpa using hne.symm)]

/-- Linking the member `b` past its successor `a` takes `a` out of the chain. -/
theorem Chain.unlink (hc : Chain next stop h (p++b::a::q)) :
    Chain (Function.update next b (next a)) stop h (p++b::q) := by
  have hn := hc.nodup
  induction p generalizing h with
  | nil =>
    obtain ⟨rfl,hs,rfl,-,hc⟩ := hc
    refine ⟨rfl,hs,?_⟩
    rw [Function.update_self]
    refine hc.update fun hm => ?_
    simp [hm] at hn
  | cons c p ih =>
    obtain ⟨rfl,hs,hc⟩ := hc
    refine ⟨rfl,hs,?_⟩
    have hne : h ≠ b := by
      rintro rfl
      simp at hn
    rw [Function.update_of_ne hne]
    exact ih hc (List.nodup_cons.mp hn).2

end Update

end LinkedChain
end Benedias
