import Mathlib.Data.List.Basic
import Mathlib.Data.List.Perm.Basic
import Mathlib.Order.Lattice

/-!
# The nearest of items

Items have keys, and so many of those with the least keys are to be chosen. The first ones of a sorted list are such a choice from the
items of the list; they are one from more items if the list has enough items that are as near as each of the others.
-/

namespace Webthree

namespace Nearest

variable {α : Type*} {β : Type*} [LinearOrder β]

/-- As many of the items as there may be are chosen, and none that is left out is nearer than one that is chosen. -/
structure Chosen (k : Nat) (key : α → β) (all chosen : List α) : Prop where
  length_eq : chosen.length = min k all.length
  nodup : chosen.Nodup
  mem : ∀ x ∈ chosen, x ∈ all
  nearest : ∀ x ∈ all, x ∉ chosen → ∀ y ∈ chosen, key y ≤ key x

variable {k : Nat} {key : α → β} {all seen sorted : List α}

/-- The items that are as near as a bound. -/
def within (key : α → β) (c : β) (l : List α) : List α := l.filter fun y => key y ≤ c

/-- If a sorted list has so many items within a bound, its first ones are. -/
theorem le_of_mem_take {c : β} (hsorted : sorted.Pairwise (key · ≤ key ·)) (hcount : k ≤ (within key c sorted).length) :
    ∀ y ∈ sorted.take k, key y ≤ c := by
  induction sorted generalizing k with
  | nil =>
    intro y hy
    simp at hy
  | cons x l ih =>
    obtain ⟨hx, hl⟩ := List.pairwise_cons.mp hsorted
    cases k with
    | zero =>
      intro y hy
      simp at hy
    | succ k =>
      by_cases hxc : key x ≤ c
      · rw [within, List.filter_cons_of_pos (by simpa using hxc), List.length_cons] at hcount
        intro y hy
        rw [List.take_succ_cons, List.mem_cons] at hy
        rcases hy with rfl | hy
        · exact hxc
        · exact ih hl (Nat.le_of_succ_le_succ hcount) y hy
      · -- all the others are behind the bound as well
        have hnone : within key c (x :: l) = [] := by
          rw [within, List.filter_eq_nil_iff]
          intro y hy hyc
          have hyc := of_decide_eq_true hyc
          rcases List.mem_cons.mp hy with rfl | hy
          · exact hxc hyc
          · exact hxc ((hx y hy).trans hyc)
        rw [hnone] at hcount
        exact absurd hcount (Nat.not_succ_le_zero k)

/-- What is not among the first ones of a sorted list is behind them. -/
theorem le_of_not_mem_take (hsorted : sorted.Pairwise (key · ≤ key ·)) {x y : α} (hx : x ∈ sorted) (hnot : x ∉ sorted.take k)
    (hy : y ∈ sorted.take k) : key y ≤ key x := by
  rw [← List.take_append_drop k sorted] at hsorted hx
  exact (List.pairwise_append.mp hsorted).2.2 y hy x ((List.mem_append.mp hx).resolve_left hnot)

/-- The order makes no difference to how many lie within a bound. -/
theorem length_within_perm (h : sorted.Perm seen) (c : β) : (within key c sorted).length = (within key c seen).length :=
  (h.filter _).length_eq

/-- The first items of the sorted list of those that were seen are the nearest of all exactly if each that was not seen has enough
others before it. -/
theorem chosen_take_iff (hall : all.Nodup) (hseen : seen.Nodup) (hsub : ∀ x ∈ seen, x ∈ all) (hperm : sorted.Perm seen)
    (hsorted : sorted.Pairwise (key · ≤ key ·)) :
    Chosen k key all (sorted.take k) ↔ ∀ x ∈ all, x ∉ seen → k ≤ (within key (key x) seen).length := by
  have hlength := hperm.length_eq
  have hnodup : sorted.Nodup := hperm.nodup_iff.mpr hseen
  have hsublength : seen.length ≤ all.length := (List.subperm_of_subset hseen hsub).length_le
  constructor
  · intro h x hx hnot
    have hlost : x ∉ sorted.take k := fun hmem => hnot (hperm.mem_iff.mp (List.mem_of_mem_take hmem))
    have hshort : seen.length < all.length := by
      refine lt_of_le_of_ne hsublength fun heq => hnot ?_
      have hsame := (List.subperm_of_subset hseen hsub).perm_of_length_le heq.ge
      exact hsame.mem_iff.mpr hx
    have hk : k ≤ sorted.length := by
      have heq := h.length_eq
      rw [List.length_take] at heq
      omega
    -- those that were chosen are enough
    have hfirst : within key (key x) (sorted.take k) = sorted.take k := by
      refine List.filter_eq_self.mpr fun y hy => ?_
      exact decide_eq_true (h.nearest x hx hlost y hy)
    have hle : (within key (key x) (sorted.take k)).length ≤ (within key (key x) sorted).length :=
      ((List.take_sublist k sorted).filter _).length_le
    rw [hfirst, List.length_take, length_within_perm hperm] at hle
    omega
  · intro h
    have hmem : ∀ x ∈ sorted.take k, x ∈ seen := fun x hx => hperm.mem_iff.mp (List.mem_of_mem_take hx)
    refine ⟨?_, hnodup.sublist (List.take_sublist k sorted), fun x hx => hsub x (hmem x hx), fun x hx hnot y hy => ?_⟩
    · rw [List.length_take, hlength]
      by_cases hevery : ∀ x ∈ all, x ∈ seen
      · have hge := (List.subperm_of_subset hall hevery).length_le
        omega
      · push Not at hevery
        obtain ⟨x, hx, hnot⟩ := hevery
        have hcount := h x hx hnot
        have hle : (within key (key x) seen).length ≤ seen.length := List.length_filter_le _ _
        omega
    · by_cases hxs : x ∈ seen
      · exact le_of_not_mem_take hsorted (hperm.mem_iff.mpr hxs) hnot hy
      · refine le_of_mem_take hsorted ?_ y hy
        rw [length_within_perm hperm]
        exact h x hx hxs

/-! ## Shelves -/

/-- The items by their keys, from shelf to shelf. -/
def shelves (key : α → Nat) (n : Nat) (l : List α) : List α := (List.range n).flatMap fun d => l.filter fun x => key x = d

/-- The next shelf comes behind those before it. -/
theorem shelves_succ (key : α → Nat) (n : Nat) (l : List α) :
    shelves key (n + 1) l = shelves key n l ++ l.filter fun x => key x = n := by
  simp [shelves, List.range_succ]

/-- The shelves hold what belongs on them. -/
theorem shelves_perm (key : α → Nat) (n : Nat) (l : List α) : (shelves key n l).Perm (l.filter fun x => key x < n) := by
  induction n with
  | zero => simp [shelves]
  | succ n ih =>
    have hlow : (l.filter fun x => key x < n + 1).filter (fun x => key x < n) = l.filter fun x => key x < n := by
      rw [List.filter_filter]
      refine List.filter_congr fun x _ => ?_
      simp only [← Bool.decide_and, decide_eq_decide]
      omega
    have hhigh : (l.filter fun x => key x < n + 1).filter (fun x => !decide (key x < n)) = l.filter fun x => key x = n := by
      rw [List.filter_filter]
      refine List.filter_congr fun x _ => ?_
      simp only [← decide_not, ← Bool.decide_and, decide_eq_decide]
      omega
    have hsplit := List.filter_append_perm (fun x => decide (key x < n)) (l.filter fun x => key x < n + 1)
    rw [hlow, hhigh] at hsplit
    rw [shelves_succ]
    exact (ih.append_right _).trans hsplit

/-- What is on the shelves is in order. -/
theorem shelves_sorted (key : α → Nat) (n : Nat) (l : List α) : (shelves key n l).Pairwise (key · ≤ key ·) := by
  induction n with
  | zero => simp [shelves]
  | succ n ih =>
    rw [shelves_succ]
    refine List.pairwise_append.mpr ⟨ih, ?_, fun x hx y hy => ?_⟩
    · refine List.pairwise_of_forall_mem_list fun x hx y hy => ?_
      have hxn := of_decide_eq_true (List.mem_filter.mp hx).2
      have hyn := of_decide_eq_true (List.mem_filter.mp hy).2
      omega
    · have hxn := of_decide_eq_true (List.mem_filter.mp ((shelves_perm key n l).mem_iff.mp hx)).2
      have hyn := of_decide_eq_true (List.mem_filter.mp hy).2
      omega

end Nearest

end Webthree
