import Mathlib.Data.Rat.Floor
import Mathlib.Tactic.Linarith

/-!
# Number formats

The integers that fit into so many bits, with a sign or without, how they stay in range when they are scaled, and the truncation of a
rational number towards zero.
-/

namespace Webthree

/-- The integers of so many bits, in two's complement if there is a sign. -/
def InRange (signed : Bool) (bits : Nat) (x : Int) : Prop :=
  if signed then -2 ^ bits ≤ 2 * x ∧ 2 * x < 2 ^ bits else 0 ≤ x ∧ x < 2 ^ bits

instance (signed : Bool) (bits : Nat) (x : Int) : Decidable (InRange signed bits x) := by
  unfold InRange
  infer_instance

/-- A rational number without what is behind the point. -/
def truncate (q : ℚ) : Int := q.num.tdiv q.den

variable {signed : Bool} {bits bits' : Nat} {x : Int} {q : ℚ}

/-- The range of signed numbers lies around zero. -/
theorem inRange_signed : InRange true bits x ↔ -2 ^ bits ≤ 2 * x ∧ 2 * x < 2 ^ bits := by
  rw [InRange, if_pos rfl]

/-- The range of unsigned numbers begins at zero. -/
theorem inRange_unsigned : InRange false bits x ↔ 0 ≤ x ∧ x < 2 ^ bits := by
  rw [InRange, if_neg (by decide)]

/-- With more bits the range is larger. -/
theorem InRange.mono (hle : bits ≤ bits') (h : InRange signed bits x) : InRange signed bits' x := by
  have hpow : (2 : Int) ^ bits ≤ 2 ^ bits' := pow_le_pow_right₀ (by omega) hle
  cases signed with
  | true =>
    rw [inRange_signed] at h ⊢
    omega
  | false =>
    rw [inRange_unsigned] at h ⊢
    omega

/-- One more bit makes place for a sign. -/
theorem InRange.with_sign (hlt : bits < bits') (h : InRange false bits x) : InRange true bits' x := by
  have hpow : (2 : Int) ^ (bits + 1) ≤ 2 ^ bits' := pow_le_pow_right₀ (by omega) hlt
  rw [pow_succ] at hpow
  rw [inRange_unsigned] at h
  rw [inRange_signed]
  omega

/-- A number that is scaled needs as many bits more. -/
theorem InRange.scale (k : Nat) (h : InRange signed bits x) : InRange signed (bits + k) (x * 2 ^ k) := by
  have hpos : (0 : Int) < 2 ^ k := by positivity
  cases signed with
  | true =>
    rw [inRange_signed] at h ⊢
    rw [pow_add, ← Int.neg_mul, ← Int.mul_assoc]
    exact ⟨Int.mul_le_mul_of_nonneg_right h.1 hpos.le, Int.mul_lt_mul_of_pos_right h.2 hpos⟩
  | false =>
    rw [inRange_unsigned] at h ⊢
    rw [pow_add]
    exact ⟨Int.mul_nonneg h.1 hpos.le, Int.mul_lt_mul_of_pos_right h.2 hpos⟩

/-! ## Truncation -/

/-- Truncation goes towards zero from both sides. -/
theorem truncate_neg (q : ℚ) : truncate (-q) = -truncate q := by
  rw [truncate, truncate, Rat.neg_num, Rat.neg_den, Int.neg_tdiv]

/-- At or above zero, truncation is the floor. -/
theorem truncate_of_nonneg (h : 0 ≤ q) : truncate q = ⌊q⌋ := by
  rw [truncate, Int.tdiv_eq_ediv_of_nonneg (Rat.num_nonneg.mpr h), Rat.floor_def']

/-- Nothing is behind the point of an integer. -/
theorem truncate_of_den (h : q.den = 1) : (truncate q : ℚ) = q := by
  rw [truncate, h, Nat.cast_one, Int.tdiv_one]
  exact Rat.den_eq_one_iff q |>.mp h

/-- A whole number stays what it is. -/
theorem truncate_intCast (n : Int) : truncate n = n := by
  rw [truncate, Rat.num_intCast, Rat.den_intCast, Nat.cast_one, Int.tdiv_one]

/-- A number at or above zero is not truncated below it. -/
theorem truncate_nonneg (h : 0 ≤ q) : 0 ≤ truncate q := by
  rw [truncate_of_nonneg h]
  exact Int.floor_nonneg.mpr h

/-- Truncation makes nothing larger that is not negative. -/
theorem truncate_le (h : 0 ≤ q) : (truncate q : ℚ) ≤ q := by
  rw [truncate_of_nonneg h]
  exact Int.floor_le q

/-- Truncation takes away less than one. -/
theorem lt_truncate_add_one (h : 0 ≤ q) : q < truncate q + 1 := by
  rw [truncate_of_nonneg h]
  exact Int.lt_floor_add_one q

/-- A whole number that is not above is not above what is truncated. -/
theorem le_truncate {n : Int} (h : (n : ℚ) ≤ q) (hn : 0 ≤ n) : n ≤ truncate q := by
  have hq : 0 ≤ q := le_trans (by exact_mod_cast hn) h
  rw [truncate_of_nonneg hq]
  exact Int.le_floor.mpr h

end Webthree
