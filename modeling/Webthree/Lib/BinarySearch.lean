import Mathlib.Order.Lattice
import Mathlib.Tactic.Common

/-!
# Binary search

The search of a range that is in order by halving it, as `std::lower_bound` and `std::binary_search` do it.
-/

namespace Webthree

namespace BinarySearch

variable {α : Type*} [LinearOrder α]

/-- The first place from `first` on, among `count` places, that is not before the value. -/
def lowerBound (a : Nat → α) (x : α) (first count : Nat) : Nat :=
  if count = 0 then first
  else if a (first + count / 2) < x then lowerBound a x (first + count / 2 + 1) (count - count / 2 - 1)
  else lowerBound a x first (count / 2)
termination_by count
decreasing_by all_goals omega

/-- Whether the value is at one of the first `n` places. -/
def found (a : Nat → α) (n : Nat) (x : α) : Bool := lowerBound a x 0 n < n && !decide (x < a (lowerBound a x 0 n))

variable {a : Nat → α} {x : α} {n : Nat}

/-- What is before a place is before the value, and what is not is not. -/
structure Splits (a : Nat → α) (x : α) (n i : Nat) : Prop where
  le : i ≤ n
  before : ∀ j, j < i → a j < x
  behind : ∀ j, i ≤ j → j < n → x ≤ a j

/-- Halving keeps the place between what is before the value and what is not. -/
theorem splits_lowerBound (ha : ∀ i j, i ≤ j → j < n → a i ≤ a j) (first count : Nat) (hle : first + count ≤ n)
    (hbefore : ∀ j, j < first → a j < x) (hbehind : ∀ j, first + count ≤ j → j < n → x ≤ a j) :
    Splits a x n (lowerBound a x first count) := by
  induction count using Nat.strongRecOn generalizing first with
  | ind count ih =>
    rw [lowerBound]
    by_cases hzero : count = 0
    · rw [if_pos hzero]
      exact ⟨by omega, hbefore, fun j hj => hbehind j (by omega)⟩
    · rw [if_neg hzero]
      by_cases hmid : a (first + count / 2) < x
      · rw [if_pos hmid]
        refine ih _ (by omega) _ (by omega) (fun j hj => ?_) fun j hj => hbehind j (by omega)
        exact lt_of_le_of_lt (ha j (first + count / 2) (by omega) (by omega)) hmid
      · rw [if_neg hmid]
        refine ih _ (by omega) _ (by omega) hbefore fun j hj hjn => ?_
        exact le_trans (not_lt.mp hmid) (ha (first + count / 2) j hj hjn)

/-- In a range that is in order, the search finds what is there. -/
theorem found_iff (ha : ∀ i j, i ≤ j → j < n → a i ≤ a j) : found a n x = true ↔ ∃ i, i < n ∧ a i = x := by
  obtain ⟨hle, hbefore, hbehind⟩ := splits_lowerBound (x := x) ha 0 n (by omega) (fun j hj => absurd hj (Nat.not_lt_zero j))
    fun j hj hjn => absurd hjn (by omega)
  simp only [found, Bool.and_eq_true, decide_eq_true_eq, Bool.not_eq_true', decide_eq_false_iff_not, not_lt]
  constructor
  · rintro ⟨hlt, hge⟩
    exact ⟨_, hlt, le_antisymm hge (hbehind _ (le_refl _) hlt)⟩
  · rintro ⟨i, hi, rfl⟩
    have hlb : lowerBound a (a i) 0 n ≤ i := by
      by_contra hgt
      exact lt_irrefl _ (hbefore i (not_le.mp hgt))
    exact ⟨lt_of_le_of_lt hlb hi, ha _ _ hlb hi⟩

end BinarySearch

end Webthree
