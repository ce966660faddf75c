import Mathlib.Data.List.Sort
import Mathlib.Order.Defs.LinearOrder

/-! Binary search of a sorted list over any linear order, by halving the range that can still
hold the value. -/
namespace Benedias
namespace BinarySearch

variable {A : Type} [LinearOrder A]

/-- One halving per unit of fuel; the range is the `len` positions from `first` on. -/
def lowerBoundFrom (xs : List A) (x : A) : ℕ → ℕ → ℕ → ℕ
  | 0, first, _ => first
  | n+1, first, len =>
    if len = 0 then first
    else
      match xs[first+len/2]? with
      | none => first
      | some y =>
        if y < x then lowerBoundFrom xs x n (first+len/2+1) (len-len/2-1)
        else lowerBoundFrom xs x n first (len/2)

/-- The first position whose value is not below `x`. -/
def lowerBound (xs : List A) (x : A) : ℕ := lowerBoundFrom xs x xs.length 0 xs.length

def binarySearch (xs : List A) (x : A) : Bool :=
  match xs[lowerBound xs x]? with
  | none => false
  | some y => !decide (x < y)

variable {xs : List A} {x : A}

/-- Everything before the position is below `x`, nothing from it on is. -/
def Splits (xs : List A) (x : A) (k : ℕ) : Prop :=
  (∀ i y, i < k → xs[i]? = some y → y < x) ∧ ∀ i y, k ≤ i → xs[i]? = some y → x ≤ y

theorem sorted_le (hs : xs.Pairwise (· ≤ ·)) {i j : ℕ} {y z : A} (hij : i ≤ j)
    (hy : xs[i]? = some y) (hz : xs[j]? = some z) : y ≤ z := by
  obtain ⟨hi,rfl⟩ := List.getElem?_eq_some_iff.mp hy
  obtain ⟨hj,rfl⟩ := List.getElem?_eq_some_iff.mp hz
  rcases Nat.eq_or_lt_of_le hij with rfl | hlt
  · exact le_rfl
  · exact List.pairwise_iff_getElem.mp hs i j hi hj hlt

theorem lowerBoundFrom_splits (hs : xs.Pairwise (· ≤ ·)) (n : ℕ) :
    ∀ first len, len ≤ n → first+len ≤ xs.length →
      (∀ i y, i < first → xs[i]? = some y → y < x) →
      (∀ i y, first+len ≤ i → xs[i]? = some y → x ≤ y) →
      Splits xs x (lowerBoundFrom xs x n first len) := by
  induction n with
  | zero =>
    intro first len hn _ hl hr
    obtain rfl : len = 0 := by omega
    exact ⟨hl,hr⟩
  | succ n ih =>
    intro first len hn hb hl hr
    unfold lowerBoundFrom
    split
    case isTrue h0 => exact ⟨hl,by simpa [h0] using hr⟩
    case isFalse h0 =>
      have hmid : first+len/2 < xs.length := by omega
      split
      case h_1 h => exact absurd (List.getElem?_eq_none_iff.mp h) (by omega)
      case h_2 y hm =>
        split
        case isTrue hlt =>
          refine ih _ _ (by omega) (by omega) ?_ ?_
          · intro i z hi hz
            exact lt_of_le_of_lt (sorted_le hs (by omega) hz hm) hlt
          · intro i z hi hz
            exact hr i z (by omega) hz
        case isFalse hge =>
          refine ih _ _ (by omega) (by omega) hl ?_
          intro i z hi hz
          exact le_trans (not_lt.mp hge) (sorted_le hs (by omega) hm hz)

theorem lowerBound_splits (hs : xs.Pairwise (· ≤ ·)) : Splits xs x (lowerBound xs x) := by
  refine lowerBoundFrom_splits hs _ _ _ le_rfl (by omega) (by omega) ?_
  intro i y hi hy
  exact absurd (List.getElem?_eq_some_iff.mp hy).1 (by omega)

theorem binarySearch_iff (hs : xs.Pairwise (· ≤ ·)) : binarySearch xs x = true ↔ x ∈ xs := by
  obtain ⟨hl,hr⟩ := lowerBound_splits (x:=x) hs
  unfold binarySearch
  constructor
  · intro h
    split at h
    case h_1 => cases h
    case h_2 y hy =>
      have hle : y ≤ x := by simpa using h
      rw [le_antisymm (hr _ _ le_rfl hy) hle]
      exact List.mem_of_getElem? hy
  · intro h
    obtain ⟨i,hi⟩ := List.getElem?_of_mem h
    have hk : lowerBound xs x ≤ i := by
      by_contra hlt
      exact lt_irrefl x (hl i x (by omega) hi)
    have hlen := (List.getElem?_eq_some_iff.mp hi).1
    rw [List.getElem?_eq_getElem (by omega)]
    simpa using sorted_le hs hk (List.getElem?_eq_getElem (by omega)) hi

/-- `std::sort` followed by `std::binary_search`. -/
theorem binarySearch_sort : binarySearch (xs.insertionSort (· ≤ ·)) x = true ↔ x ∈ xs := by
  rw [binarySearch_iff (xs.pairwise_insertionSort _),List.mem_insertionSort]

end BinarySearch
end Benedias
