import Mathlib.Tactic.Common
import Mathlib.Algebra.Group.Nat.Defs
import Mathlib.Data.Nat.Basic

/-!
# Operations on words

How addition, subtraction and multiplication of words of one width are done: they wrap, as those of a machine do, or they refuse to. A
function that is written over them and returns the same either way does nothing that wraps.
-/

namespace Webthree

/-- What an operation on words throws. -/
inductive WordError where
  | DivisionByZero
  | Wrapped
deriving DecidableEq, Repr

/-- Ways to add, subtract and multiply. -/
structure WordOps (w : Nat) where
  add : BitVec w → BitVec w → Except WordError (BitVec w)
  sub : BitVec w → BitVec w → Except WordError (BitVec w)
  mul : BitVec w → BitVec w → Except WordError (BitVec w)

namespace WordOps

variable {w : Nat}

/-- Results are taken modulo `2 ^ w`. -/
def wrapping (w : Nat) : WordOps w where
  add a b := .ok (a + b)
  sub a b := .ok (a - b)
  mul a b := .ok (a * b)

/-- Only results that need no wrapping are given. -/
def checked (w : Nat) : WordOps w where
  add a b := if a.toNat + b.toNat < 2 ^ w then .ok (a + b) else .error .Wrapped
  sub a b := if b.toNat ≤ a.toNat then .ok (a - b) else .error .Wrapped
  mul a b := if a.toNat * b.toNat < 2 ^ w then .ok (a * b) else .error .Wrapped

/-- Division, which never wraps. -/
def div (a b : BitVec w) : Except WordError (BitVec w) := if b = 0 then .error .DivisionByZero else .ok (a / b)

/-- Operations that give the result where it needs no wrapping. -/
structure Exact (A : WordOps w) : Prop where
  add : ∀ a b, a.toNat + b.toNat < 2 ^ w → A.add a b = .ok (a + b)
  sub : ∀ a b, b.toNat ≤ a.toNat → A.sub a b = .ok (a - b)
  mul : ∀ a b, a.toNat * b.toNat < 2 ^ w → A.mul a b = .ok (a * b)

/-- Operations that wrap are exact where nothing needs wrapping. -/
theorem exact_wrapping : (wrapping w).Exact := ⟨fun _ _ _ => rfl, fun _ _ _ => rfl, fun _ _ _ => rfl⟩

/-- Operations that refuse to wrap are exact where nothing needs it. -/
theorem exact_checked : (checked w).Exact := ⟨fun _ _ h => if_pos h, fun _ _ h => if_pos h, fun _ _ h => if_pos h⟩

/-- Only a division by zero fails. -/
theorem div_eq {a b : BitVec w} (hb : 0 < b.toNat) : div a b = .ok (a / b) := by
  refine if_neg fun hzero => ?_
  rw [hzero] at hb
  simp at hb

/-- A sum that fits is the sum of the numbers. -/
theorem toNat_add {a b : BitVec w} (h : a.toNat + b.toNat < 2 ^ w) : (a + b).toNat = a.toNat + b.toNat :=
  BitVec.toNat_add_of_lt h

/-- A difference that is not negative is that of the numbers. -/
theorem toNat_sub {a b : BitVec w} (h : b.toNat ≤ a.toNat) : (a - b).toNat = a.toNat - b.toNat :=
  BitVec.toNat_sub_of_le (BitVec.le_def.mpr h)

/-- A product that fits is the product of the numbers. -/
theorem toNat_mul {a b : BitVec w} (h : a.toNat * b.toNat < 2 ^ w) : (a * b).toNat = a.toNat * b.toNat :=
  BitVec.toNat_mul_of_lt h

end WordOps

end Webthree
