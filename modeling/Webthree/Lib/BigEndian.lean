import Mathlib.Data.Nat.Digits.Lemmas

/-!
# Big-endian numbers

The minimal big-endian bytes of a number, read and written a byte at a time, and the bijection between the numbers and the
byte strings without a leading zero.
-/

namespace Webthree

/-- A byte string. -/
abbrev Bytes := List UInt8

/-- The number of bytes a number takes: how often it is shifted by eight bits until nothing is left. -/
@[semireducible] def bytesRequired (i : Nat) : Nat :=
  if i = 0 then 0 else bytesRequired (i >>> 8) + 1
termination_by i
decreasing_by rw [Nat.shiftRight_eq_div_pow]; omega

/-- Write a number in front of `acc`, its last byte first. -/
@[semireducible] def toBigEndianOnto (i : Nat) (acc : Bytes) : Bytes :=
  if i = 0 then acc else toBigEndianOnto (i >>> 8) (UInt8.ofNat i :: acc)
termination_by i
decreasing_by rw [Nat.shiftRight_eq_div_pow]; omega

/-- The minimal big-endian bytes of a number. -/
def toBigEndian (i : Nat) : Bytes := toBigEndianOnto i []

/-- The number that big-endian bytes stand for. -/
def fromBigEndian (b : Bytes) : Nat := b.foldl (fun r x => r <<< 8 ||| x.toNat) 0

/-- To shift by a byte and put one in is to multiply and add. -/
theorem shiftLeft_or_byte (r : Nat) (x : UInt8) : r <<< 8 ||| x.toNat = 256 * r + x.toNat := by
  have hx : x.toNat < 2 ^ 8 := x.toNat_lt
  rw [← Nat.shiftLeft_add_eq_or_of_lt hx, Nat.shiftLeft_eq]
  omega

theorem bytesRequired_zero : bytesRequired 0 = 0 := by
  rw [bytesRequired]
  simp

/-- Each byte takes one place. -/
theorem bytesRequired_pos {i : Nat} (h : i ≠ 0) : bytesRequired i = bytesRequired (i / 256) + 1 := by
  rw [bytesRequired]
  simp [h, Nat.shiftRight_eq_div_pow]

theorem toBigEndianOnto_zero (acc : Bytes) : toBigEndianOnto 0 acc = acc := by
  rw [toBigEndianOnto]
  simp

/-- The last byte is put in front of what is there. -/
theorem toBigEndianOnto_pos {i : Nat} (h : i ≠ 0) (acc : Bytes) :
    toBigEndianOnto i acc = toBigEndianOnto (i / 256) (UInt8.ofNat i :: acc) := by
  conv_lhs => rw [toBigEndianOnto]
  simp [h, Nat.shiftRight_eq_div_pow]

/-- What is there stays behind the bytes of the number. -/
theorem toBigEndianOnto_append (i : Nat) : ∀ acc, toBigEndianOnto i acc = toBigEndian i ++ acc := by
  induction i using Nat.strongRecOn with
  | _ i ih =>
    intro acc
    unfold toBigEndian
    by_cases h : i = 0
    · subst h; simp [toBigEndianOnto_zero]
    · have hlt : i / 256 < i := by omega
      rw [toBigEndianOnto_pos h, toBigEndianOnto_pos h, ih _ hlt, ih _ hlt [UInt8.ofNat i]]
      simp

theorem toBigEndian_zero : toBigEndian 0 = [] :=
  toBigEndianOnto_zero []

/-- The last byte is what remains, the others are those of the quotient. -/
theorem toBigEndian_pos {i : Nat} (h : i ≠ 0) : toBigEndian i = toBigEndian (i / 256) ++ [UInt8.ofNat i] := by
  rw [toBigEndian, toBigEndianOnto_pos h, toBigEndianOnto_append]

/-- A number is written in exactly as many bytes as it requires. -/
theorem length_toBigEndian (i : Nat) : (toBigEndian i).length = bytesRequired i := by
  induction i using Nat.strongRecOn with
  | _ i ih =>
    by_cases h : i = 0
    · subst h; simp [toBigEndian_zero, bytesRequired_zero]
    · rw [toBigEndian_pos h, bytesRequired_pos h, List.length_append, ih _ (by omega)]
      rfl

/-- The last byte counts once, those before it 256 times. -/
theorem fromBigEndian_concat (b : Bytes) (x : UInt8) : fromBigEndian (b ++ [x]) = 256 * fromBigEndian b + x.toNat := by
  unfold fromBigEndian
  rw [List.foldl_append]
  simp only [List.foldl_cons, List.foldl_nil]
  exact shiftLeft_or_byte _ x

/-- Reading back what was written. -/
theorem fromBigEndian_toBigEndian (i : Nat) : fromBigEndian (toBigEndian i) = i := by
  induction i using Nat.strongRecOn with
  | _ i ih =>
    by_cases h : i = 0
    · subst h; rw [toBigEndian_zero]; rfl
    · rw [toBigEndian_pos h, fromBigEndian_concat, ih _ (by omega), UInt8.toNat_ofNat']
      omega

/-- The number of bytes required, as a bound on the number. -/
theorem bytesRequired_le_iff (i k : Nat) : bytesRequired i ≤ k ↔ i < 256 ^ k := by
  induction k generalizing i with
  | zero =>
    by_cases h : i = 0
    · simp [h, bytesRequired_zero]
    · rw [bytesRequired_pos h]; simp [h]
  | succ k ih =>
    by_cases h : i = 0
    · subst h; simp [bytesRequired_zero]
    · rw [bytesRequired_pos h, Nat.add_le_add_iff_right, ih, Nat.div_lt_iff_lt_mul (by omega), Nat.pow_succ]

/-- A written number has no leading zero. -/
theorem head_toBigEndian_ne_zero (i : Nat) : ∀ x t, toBigEndian i = x :: t → x ≠ 0 := by
  induction i using Nat.strongRecOn with
  | _ i ih =>
    intro x t hx
    by_cases h : i = 0
    · subst h; simp [toBigEndian_zero] at hx
    · rw [toBigEndian_pos h] at hx
      cases hd : toBigEndian (i / 256) with
      | cons y s =>
        rw [hd, List.cons_append, List.cons.injEq] at hx
        exact hx.1 ▸ ih _ (by omega) y s hd
      | nil =>
        -- the only digit of `i` is `i` itself
        have hq : i / 256 = 0 := by
          have := length_toBigEndian (i / 256)
          rw [hd, List.length_nil] at this
          by_contra hne
          rw [bytesRequired_pos hne] at this
          omega
        rw [hd, List.nil_append, List.cons.injEq] at hx
        rw [← hx.1]
        intro h0
        have := congrArg UInt8.toNat h0
        rw [UInt8.toNat_ofNat'] at this
        simp at this
        omega

/-- A byte string without a leading zero stands for a number that is not zero, unless it is empty. -/
theorem fromBigEndian_ne_zero {x : UInt8} (hx : x ≠ 0) (t : Bytes) : fromBigEndian (x :: t) ≠ 0 := by
  induction t using List.reverseRecOn with
  | nil =>
    have : x.toNat ≠ 0 := fun h => hx (UInt8.toNat_inj.mp (by simpa using h))
    have e := fromBigEndian_concat [] x
    rw [List.nil_append] at e
    rw [e]
    omega
  | append_singleton t y ih =>
    rw [← List.cons_append, fromBigEndian_concat]
    omega

/-- Writing what was read, when it has no leading zero. -/
theorem toBigEndian_fromBigEndian (b : Bytes) (h : ∀ x t, b = x :: t → x ≠ 0) : toBigEndian (fromBigEndian b) = b := by
  induction b using List.reverseRecOn with
  | nil => exact toBigEndian_zero
  | append_singleton b y ih =>
    have hne : fromBigEndian (b ++ [y]) ≠ 0 := by
      cases b with
      | nil => exact fromBigEndian_ne_zero (h y [] rfl) []
      | cons x t => exact fromBigEndian_ne_zero (h x (t ++ [y]) rfl) (t ++ [y])
    have hb : toBigEndian (fromBigEndian b) = b := ih (fun x t hxt => h x (t ++ [y]) (by rw [hxt]; rfl))
    have hy : y.toNat < 256 := y.toNat_lt
    rw [toBigEndian_pos hne, fromBigEndian_concat]
    have hdiv : (256 * fromBigEndian b + y.toNat) / 256 = fromBigEndian b := by omega
    rw [hdiv, hb]
    congr 2
    apply UInt8.toNat_inj.mp
    rw [UInt8.toNat_ofNat']
    omega

end Webthree
