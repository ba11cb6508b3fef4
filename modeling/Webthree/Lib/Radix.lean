import Mathlib.Data.List.TakeWhile
import Mathlib.Data.Nat.Digits.Lemmas
import Mathlib.Tactic.Ring

/-!
# Digits in front of digits

Numbers as digits in any base, the most significant one first: rows of digits without a zero in front are the digits of their number,
and how many digits are enough in another base.
-/

namespace Webthree

namespace Radix

/-- The number that digits stand for. -/
def value (b : Nat) (l : List Nat) : Nat := Nat.ofDigits b l.reverse

/-- The digits of a number, none of which is a zero in front. -/
def digits (b n : Nat) : List Nat := (Nat.digits b n).reverse

variable {b : Nat}

@[simp] theorem value_nil (b : Nat) : value b [] = 0 := rfl

/-- The digits before are worth their value times a power of the base. -/
theorem value_append (l l' : List Nat) : value b (l ++ l') = value b l * b ^ l'.length + value b l' := by
  rw [value, List.reverse_append, Nat.ofDigits_append, List.length_reverse]
  unfold value
  ring

/-- The first digit counts by the number of those behind it. -/
theorem value_cons (x : Nat) (l : List Nat) : value b (x :: l) = x * b ^ l.length + value b l := by
  rw [← List.singleton_append, value_append]
  simp [value]

/-- Zeros are worth nothing. -/
theorem value_zeros (b k : Nat) : value b (List.replicate k 0) = 0 := by
  rw [value, List.reverse_replicate, Nat.ofDigits_replicate_zero]

/-- So many digits are worth less than that power of the base. -/
theorem value_lt (hb : 1 < b) {l : List Nat} (hl : ∀ x ∈ l, x < b) : value b l < b ^ l.length := by
  have hlt := Nat.ofDigits_lt_base_pow_length hb (l := l.reverse) fun x hx => hl x (List.mem_reverse.mp hx)
  rwa [List.length_reverse] at hlt

/-- The digits of a number are worth it. -/
theorem value_digits (b n : Nat) : value b (digits b n) = n := by
  rw [value, digits, List.reverse_reverse, Nat.ofDigits_digits]

/-- Digits are less than the base. -/
theorem lt_of_mem_digits (hb : 1 < b) {n x : Nat} (hx : x ∈ digits b n) : x < b :=
  Nat.digits_lt_base hb (List.mem_reverse.mp hx)

/-- There is no zero in front of the digits of a number. -/
theorem head_digits {n x : Nat} (hx : (digits b n).head? = some x) : x ≠ 0 := by
  rw [digits, List.head?_reverse] at hx
  have hne : Nat.digits b n ≠ [] := by
    intro hnil
    rw [hnil] at hx
    cases hx
  rw [List.getLast?_eq_some_getLast hne] at hx
  rw [← Option.some.inj hx]
  exact Nat.getLast_digit_ne_zero b (Nat.digits_ne_nil_iff_ne_zero.mp hne)

/-- Digits without a zero in front are those of their number. -/
theorem digits_value (hb : 1 < b) {l : List Nat} (hl : ∀ x ∈ l, x < b) (hhead : l.head? ≠ some 0) : digits b (value b l) = l := by
  rw [digits, value, Nat.digits_ofDigits b hb, List.reverse_reverse]
  · exact fun x hx => hl x (List.mem_reverse.mp hx)
  · intro hne hzero
    refine hhead ?_
    rw [← List.getLast?_reverse, List.getLast?_eq_some_getLast hne, hzero]

/-- The zeros in front are dropped. -/
theorem dropWhile_eq_digits (hb : 1 < b) {l : List Nat} (hl : ∀ x ∈ l, x < b) :
    l.dropWhile (fun x => decide (x = 0)) = digits b (value b l) := by
  induction l with
  | nil => simp [digits]
  | cons x l ih =>
    by_cases hx : x = 0
    · rw [List.dropWhile_cons_of_pos (by simpa using hx), ih fun y hy => hl y (List.mem_cons_of_mem _ hy), value_cons, hx, Nat.zero_mul,
        Nat.zero_add]
    · rw [List.dropWhile_cons_of_neg (by simpa using hx), digits_value hb hl]
      intro hhead
      exact hx (Option.some.inj hhead)

/-! ## Zeros in front -/

section

variable {α : Type} [DecidableEq α] {z : α}

/-- A list is its zeros in front and what comes behind. -/
theorem zeros_append (z : α) (l : List α) :
    List.replicate (l.takeWhile (· = z)).length z ++ l.dropWhile (· = z) = l := by
  have hzeros : l.takeWhile (· = z) = List.replicate (l.takeWhile (· = z)).length z := by
    refine List.eq_replicate_iff.mpr ⟨rfl, fun x hx => ?_⟩
    simpa using List.mem_takeWhile_imp hx
  rw [← hzeros, List.takeWhile_append_dropWhile]

/-- What comes behind the zeros does not begin with one. -/
theorem head_dropWhile (z : α) (l : List α) : (l.dropWhile (· = z)).head? ≠ some z := by
  intro h
  have hnot := List.head?_dropWhile_not (fun x : α => decide (x = z)) l
  rw [h] at hnot
  simp at hnot

/-- If not all are zeros, something comes behind. -/
theorem dropWhile_ne_nil {l : List α} (h : ∃ x ∈ l, x ≠ z) : l.dropWhile (· = z) ≠ [] := by
  obtain ⟨x, hx, hne⟩ := h
  intro hnil
  exact hne (by simpa using List.dropWhile_eq_nil_iff.mp hnil x hx)

/-- Zeros put in front are all that is counted there. -/
theorem takeWhile_zeros (k : Nat) {w : List α} (hw : w.head? ≠ some z) :
    ((List.replicate k z ++ w).takeWhile (· = z)).length = k ∧ (List.replicate k z ++ w).dropWhile (· = z) = w := by
  induction k with
  | zero =>
    cases w with
    | nil => exact ⟨rfl, rfl⟩
    | cons x w =>
      have hx : ¬ decide (x = z) = true := fun h => hw (congrArg some (of_decide_eq_true h))
      rw [List.replicate_zero, List.nil_append, List.takeWhile_cons_of_neg (by exact hx), List.dropWhile_cons_of_neg (by exact hx)]
      exact ⟨rfl, rfl⟩
  | succ k ih =>
    have hz : decide (z = z) = true := decide_eq_true rfl
    rw [List.replicate_succ, List.cons_append, List.takeWhile_cons_of_pos (by exact hz), List.dropWhile_cons_of_pos (by exact hz),
      List.length_cons, ih.1]
    exact ⟨rfl, ih.2⟩

end

/-! ## Lengths -/

/-- If `q` digits in the base `a` take no more than `p` digits in the base `b`, then `n` digits take no more than the share of them, and
one. -/
theorem pow_le_pow_share {a b p q : Nat} (hb : 0 < b) (hq : 0 < q) (h : a ^ q ≤ b ^ p) (n : Nat) : a ^ n ≤ b ^ (n * p / q + 1) := by
  have hshare : n * p ≤ (n * p / q + 1) * q := by
    have hsplit := Nat.div_add_mod (n * p) q
    have hlt := Nat.mod_lt (n * p) hq
    rw [Nat.add_mul, Nat.one_mul, Nat.mul_comm (n * p / q)]
    omega
  have hpow : (a ^ n) ^ q ≤ (b ^ (n * p / q + 1)) ^ q := by
    calc (a ^ n) ^ q = (a ^ q) ^ n := pow_right_comm a n q
      _ ≤ (b ^ p) ^ n := Nat.pow_le_pow_left h n
      _ = b ^ (n * p) := by rw [← pow_mul, Nat.mul_comm p n]
      _ ≤ b ^ ((n * p / q + 1) * q) := Nat.pow_le_pow_right hb hshare
      _ = (b ^ (n * p / q + 1)) ^ q := pow_mul b _ q
  exact (Nat.pow_le_pow_iff_left hq.ne').mp hpow

end Radix

end Webthree
