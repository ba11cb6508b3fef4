import Mathlib.Algebra.BigOperators.Group.Finset.Piecewise
import Mathlib.Data.Fintype.BigOperators
import Mathlib.Algebra.Order.BigOperators.Group.Finset

/-!
# Ledgers

What a finite type of accounts holds together: how one entry contributes to it, and what wiping out some of the entries takes
away from it.
-/

namespace Webthree

open Finset

variable {α : Type} [Fintype α] [DecidableEq α]

instance finiteBitVec {n : Nat} : Finite (BitVec n) :=
  Finite.of_equiv (Fin (2 ^ n)) ⟨BitVec.ofFin, BitVec.toFin, fun _ => rfl, fun _ => rfl⟩

/-- Not a list of all words: nothing should be tempted to evaluate it. -/
noncomputable instance fintypeBitVec {n : Nat} : Fintype (BitVec n) := Fintype.ofFinite _

/-- The sum of all entries. -/
@[irreducible] noncomputable def total (f : α → Nat) : Nat := ∑ a, f a

omit [DecidableEq α] in
/-- No entry is more than all of them. -/
theorem le_total (f : α → Nat) (a : α) : f a ≤ total f := by
  unfold total
  exact single_le_sum (fun _ _ => Nat.zero_le _) (mem_univ a)

/-- Changing one entry changes the sum by as much. -/
theorem total_update (f : α → Nat) (a : α) (v : Nat) : total (Function.update f a v) + f a = total f + v := by
  have h1 := sum_update_of_mem (mem_univ a) f v
  have h2 := add_sum_erase univ f (mem_univ a)
  rw [sdiff_singleton_eq_erase] at h1
  unfold total
  omega

/-- Two entries are not more than all of them. -/
theorem add_le_total (f : α → Nat) {a b : α} (h : a ≠ b) : f a + f b ≤ total f := by
  have h1 := total_update f b 0
  have h2 := le_total (Function.update f b 0) a
  rw [Function.update_of_ne h] at h2
  omega

/-- Wiping out some entries takes away what they held. -/
theorem total_wipe (f : α → Nat) (S : Finset α) :
    total (fun a => if a ∈ S then 0 else f a) + ∑ a ∈ S, f a = total f := by
  unfold total
  rw [← sum_sdiff (subset_univ S), ← sum_sdiff (subset_univ S)]
  have h1 : ∑ a ∈ univ \ S, (if a ∈ S then 0 else f a) = ∑ a ∈ univ \ S, f a :=
    sum_congr rfl fun a ha => if_neg (mem_sdiff.mp ha).2
  have h2 : ∑ a ∈ S, (if a ∈ S then 0 else f a) = 0 := sum_eq_zero fun a ha => if_pos ha
  rw [h1, h2]
  omega

omit [Fintype α] in
/-- Crediting one entry. -/
theorem update_credit (f : α → Nat) (a : α) (n : Nat) :
    Function.update f a (f a + n) = fun b => f b + if b = a then n else 0 := by
  funext b
  by_cases hb : b = a
  · subst hb
    rw [Function.update_self, if_pos rfl]
  · rw [Function.update_of_ne hb, if_neg hb]
    rfl

omit [DecidableEq α] in
/-- Only the entries that hold something contribute. -/
theorem total_eq_sum (f : α → Nat) (S : Finset α) (h : ∀ a, f a ≠ 0 → a ∈ S) : total f = ∑ a ∈ S, f a := by
  unfold total
  refine (sum_subset (subset_univ S) fun a _ ha => ?_).symm
  by_contra hne
  exact ha (h a hne)

omit [DecidableEq α] in
/-- Nothing in all accounts is nothing in total. -/
theorem total_zero : total (fun _ : α => 0) = 0 := by
  unfold total
  exact sum_const_zero

/-- One account alone is the total. -/
theorem total_single (a : α) (n : Nat) : total (fun b => if b = a then n else 0) = n := by
  unfold total
  rw [sum_ite_eq' univ a, if_pos (mem_univ a)]

omit [DecidableEq α] in
/-- Totals add up. -/
theorem total_add (f g : α → Nat) : total (fun a => f a + g a) = total f + total g := by
  unfold total
  exact sum_add_distrib

end Webthree
