import Webthree.Lib.BigEndian
import Webthree.Lib.EState
import Webthree.Libsolidity.RationalNumber

/-!
# What the types of rational constants hold

The type that is found for a constant holds it, but for the negative numbers up to -1 that take the bit of their sign in the fractional
part, and but for constants that take more bits than a word, where the null pointer is followed if bytes are asked for.
-/

namespace Webthree

/-! ## The bytes of a number -/

namespace Bigint

/-- The loop counts the bytes of a number that is not negative. -/
theorem bytesLoop_of_nonneg (carriesSign : Bool) {rounds : Nat} {i : Int} (hi : 0 ≤ i) (bytes : Nat)
    (hrounds : Webthree.bytesRequired i.toNat < rounds) :
    bytesLoop carriesSign rounds i bytes = some (bytes + Webthree.bytesRequired i.toNat) := by
  induction rounds generalizing i bytes with
  | zero => omega
  | succ rounds ih =>
    rw [bytesLoop]
    by_cases hzero : i = 0
    · subst hzero
      rw [if_pos rfl, Int.toNat_zero, bytesRequired_zero, Nat.add_zero]
    · have hnat : i.toNat ≠ 0 := by omega
      have hshift : shiftRight carriesSign i = i / 256 := by
        rw [shiftRight, Int.tdiv_eq_ediv_of_nonneg hi, ite_self]
      have hdiv : (i / 256).toNat = i.toNat / 256 := by omega
      rw [bytesRequired_pos hnat] at hrounds ⊢
      rw [if_neg hzero, hshift, ih (by omega) _ (by rw [hdiv]; omega), hdiv]
      congr 1
      omega

/-- A negative number that carries its sign is never shifted out. -/
theorem bytesLoop_of_neg (rounds : Nat) {i : Int} (hi : i < 0) (bytes : Nat) : bytesLoop true rounds i bytes = none := by
  induction rounds generalizing i bytes with
  | zero => rfl
  | succ rounds ih =>
    have hzero : ¬ i = 0 := by omega
    have hshift : shiftRight true i < 0 := by
      rw [shiftRight, if_pos rfl]
      omega
    rw [bytesLoop, if_neg hzero, ih hshift]

end Bigint

namespace Libsolidity

/-- From some number of rounds on, the function ends, and does so without following a null pointer; a result is as it should be. -/
def Outcome {α : Type} (f : Nat → Except TypeFailure α) (P : α → Prop) : Prop :=
  ∃ x, (∃ n, ∀ k ≥ n, f k = x) ∧ x ≠ .error .Running ∧ x ≠ .error .NullDereference ∧ ∀ a, x = .ok a → P a

/-- Some number of rounds is enough for a result. -/
def Returns {α : Type} (f : Nat → Except TypeFailure α) (a : α) : Prop := ∃ n, ∀ k ≥ n, f k = .ok a

section

variable {α β : Type} {f : Nat → Except TypeFailure α} {P : α → Prop} {a : α}

/-- What a computation returns is an outcome of it. -/
theorem Returns.outcome (h : Returns f a) (ha : P a) : Outcome f P := by
  refine ⟨.ok a, h, by simp, by simp, fun b hb => ?_⟩
  cases hb
  exact ha

/-- An outcome is what is returned. -/
theorem Outcome.of_returns (h : Outcome f P) (hf : Returns f a) : P a := by
  obtain ⟨x, ⟨n, hn⟩, -, -, hP⟩ := h
  obtain ⟨n', hn'⟩ := hf
  refine hP a ?_
  rw [← hn (max n n') (le_max_left _ _), hn' _ (le_max_right _ _)]

/-- A computation that fails for good has no outcome. -/
theorem not_outcome_of_error {e : TypeFailure} (he : e = .Running ∨ e = .NullDereference) {n : Nat} (hf : ∀ k ≥ n, f k = .error e) :
    ¬ Outcome f P := by
  rintro ⟨x, ⟨n', hn'⟩, hrunning, hnull, -⟩
  have hx : x = .error e := by
    rw [← hn' (max n n') (le_max_right _ _), hf _ (le_max_left _ _)]
  rcases he with rfl | rfl
  · exact hrunning hx
  · exact hnull hx

/-- A computation goes on with what it returns. -/
theorem Returns.bind {g : Nat → α → Except TypeFailure β} {b : β} (h : Returns f a) (hg : ∀ k, g k a = .ok b) :
    Returns (fun k => f k >>= g k) b := by
  obtain ⟨n, hn⟩ := h
  refine ⟨n, fun k hk => ?_⟩
  dsimp only
  rw [hn k hk, ok_bind, hg]

end

namespace RationalNumberType

variable {carriesSign : Bool} {r : RationalNumberType}

/-- The bytes of a number that is not negative are found. -/
theorem requiredBytes_of_nonneg (carriesSign : Bool) {v : Int} (hv : 0 ≤ v) :
    Returns (fun k => requiredBytes carriesSign k v) (bytesRequired v.toNat) := by
  refine ⟨bytesRequired v.toNat + 1, fun k hk => ?_⟩
  have hloop := Bigint.bytesLoop_of_nonneg carriesSign hv 0 (show bytesRequired v.toNat < k by omega)
  simp only [requiredBytes, Bigint.bytesRequired, hloop, Nat.zero_add]

/-- A number has at most `k` bytes when it is below `2 ^ (8 * k)`. -/
theorem bytes_le {v : Int} (hv : 0 ≤ v) (k : Nat) : bytesRequired v.toNat ≤ k ↔ v < 2 ^ (8 * k) := by
  have hcast : (v.toNat : Int) = v := Int.toNat_of_nonneg hv
  rw [bytesRequired_le_iff, pow_mul, ← hcast]
  norm_cast

/-- A number fits into its bytes. -/
theorem lt_pow_bytes {v : Int} (hv : 0 ≤ v) : v < 2 ^ (bytesRequired v.toNat * 8) := by
  rw [Nat.mul_comm]
  exact (bytes_le hv _).mp (Nat.le_refl _)

/-! ## Integers -/

/-- A whole number is its numerator. -/
theorem num_eq {q : ℚ} (h : q.den = 1) : (q.num : ℚ) = q := (Rat.den_eq_one_iff q).mp h

/-- What is scaled for the sign. -/
def integerCode (value : Int) : Int := if value < 0 then ((0 - value) - 1) * 2 else value

/-- The code of an integer is not negative. -/
theorem integerCode_nonneg (value : Int) : 0 ≤ integerCode value := by
  rw [integerCode]
  split <;> omega

/-- A number is in the range of a type with as many bits as its code. -/
theorem inRange_of_integerCode {value : Int} {bits : Nat} (hbits : 0 < bits) (h : integerCode value < 2 ^ bits) :
    InRange (decide (value < 0)) bits value := by
  obtain ⟨b, rfl⟩ : ∃ b, bits = b + 1 := ⟨bits - 1, by omega⟩
  rw [integerCode] at h
  by_cases hneg : value < 0
  · rw [if_pos hneg] at h
    rw [decide_eq_true hneg, inRange_signed]
    rw [pow_succ] at h ⊢
    omega
  · rw [if_neg hneg] at h
    rw [decide_eq_false hneg, inRange_unsigned]
    omega

/-- The type of an integer, if its code fits into a word. -/
theorem integerType_returns (carriesSign : Bool) (hint : r.m_value.den = 1) (hfits : integerCode r.m_value.num < 2 ^ 256) :
    ∃ t : IntegerType, Returns (fun k => r.integerType carriesSign k) (some t) ∧
      t.isSigned = decide (r.m_value.num < 0) ∧ t.numBits = max (bytesRequired (integerCode r.m_value.num).toNat) 1 * 8 := by
  have hcode := integerCode_nonneg r.m_value.num
  have hbytes : bytesRequired (integerCode r.m_value.num).toNat ≤ 32 := (bytes_le hcode 32).mpr hfits
  have hmake : ∀ m : IntegerType.Modifier, m ≠ .Address → ∃ t : IntegerType,
      IntegerType.make (max (bytesRequired (integerCode r.m_value.num).toNat) 1 * 8) m = .ok t ∧
        t.m_bits = max (bytesRequired (integerCode r.m_value.num).toNat) 1 * 8 ∧ t.m_modifier = m := by
    intro m hm
    have hok : 0 < max (bytesRequired (integerCode r.m_value.num).toNat) 1 * 8 ∧
        max (bytesRequired (integerCode r.m_value.num).toNat) 1 * 8 ≤ 256 ∧
        max (bytesRequired (integerCode r.m_value.num).toNat) 1 * 8 % 8 = 0 := by omega
    simp only [IntegerType.make, if_neg hm]
    rw [dif_pos hok]
    exact ⟨_, rfl, rfl, rfl⟩
  obtain ⟨t, ht, hbits, hmodifier⟩ := hmake (if r.m_value.num < 0 then .Signed else .Unsigned) (by split <;> decide)
  have hsmall : ¬ integerCode r.m_value.num > 2 ^ 256 - 1 := by omega
  have hwhole : r.isFractional = false := by simp [isFractional, hint]
  refine ⟨t, ?_, ?_, hbits⟩
  · have hreturns := (requiredBytes_of_nonneg carriesSign hcode).bind (g := fun _ bytes =>
      some <$> IntegerType.make (max bytes 1 * 8) (if r.m_value.num < 0 then .Signed else .Unsigned)) fun _ => by rw [ht]; rfl
    obtain ⟨n, hn⟩ := hreturns
    refine ⟨n, fun k hk => ?_⟩
    rw [← hn k hk]
    simp only [integerType, hwhole]
    exact if_neg hsmall
  · rw [IntegerType.isSigned, hmodifier]
    by_cases hneg : r.m_value.num < 0
    · simp [hneg]
    · simp [hneg]

/-- An integer whose code is longer than a word has no type. -/
theorem integerType_null (hint : r.m_value.den = 1) (hfits : ¬ integerCode r.m_value.num < 2 ^ 256) (k : Nat) :
    r.integerType carriesSign k = .ok none := by
  have hlarge : integerCode r.m_value.num > 2 ^ 256 - 1 := by omega
  have hwhole : r.isFractional = false := by simp [isFractional, hint]
  simp only [integerType, hwhole]
  exact if_pos hlarge

/-! ## Fixed points -/

/-- What the scaling loop gives. -/
structure Scaled (maxValue value : ℚ) (start : Nat) (scaled : ℚ) (fractionalBits : Nat) : Prop where
  le : start ≤ fractionalBits
  eq : scaled = value * 2 ^ (fractionalBits - start)
  mod : start % 8 = 0 → fractionalBits % 8 = 0
  most : start ≤ 256 → start % 8 = 0 → fractionalBits ≤ 256
  fits : fractionalBits = start ∨ scaled ≤ maxValue
  done : ¬ (scaled * 0x100 ≤ maxValue ∧ scaled.den ≠ 1 ∧ fractionalBits < 256)

/-- The scaling loop multiplies by 256 until the value is whole, too large or scaled by 256 bits. -/
theorem scale_spec (maxValue value : ℚ) (fractionalBits : Nat) :
    Scaled maxValue value fractionalBits (scale maxValue value fractionalBits).1 (scale maxValue value fractionalBits).2 := by
  induction value, fractionalBits using scale.induct maxValue with
  | case1 value fractionalBits hmore ih =>
    rw [scale, if_pos hmore]
    obtain ⟨hle, heq, hmod, hmost, hfits, hdone⟩ := ih
    refine ⟨by omega, ?_, fun h => hmod (by omega), fun _ h => hmost (by omega) (by omega), ?_, hdone⟩
    · have hsplit : (scale maxValue (value * 0x100) (fractionalBits + 8)).2 - fractionalBits =
          8 + ((scale maxValue (value * 0x100) (fractionalBits + 8)).2 - (fractionalBits + 8)) := by omega
      rw [heq, hsplit, pow_add, ← mul_assoc]
      norm_num
    · rcases hfits with hsame | hfits
      · rw [heq, hsame, Nat.sub_self, pow_zero, mul_one]
        exact .inr hmore.1
      · exact .inr hfits
  | case2 value fractionalBits hdone =>
    rw [scale, if_neg hdone]
    exact ⟨Nat.le_refl _, by simp, fun h => h, fun h _ => h, .inl rfl, hdone⟩

/-- The type whose bits before and behind the point are given, with a sign if the value has one. -/
structure SplitType (m_value : ℚ) (integerBits fractionalBits : Nat) (t : FixedPointType) : Prop where
  signed : t.isSigned = decide (m_value < 0)
  fractional : t.fractionalBits = fractionalBits
  num : t.numBits = integerBits + fractionalBits

/-- A type of bits that are whole bytes, 256 at most, can be made. -/
theorem make_split (m_value : ℚ) (integerBits fractionalBits : Nat) (hpos : 0 < integerBits + fractionalBits)
    (hle : integerBits + fractionalBits ≤ 256) (hinteger : integerBits % 8 = 0) (hfractional : fractionalBits % 8 = 0) :
    ∃ t, FixedPointType.make integerBits fractionalBits (if m_value < 0 then .Signed else .Unsigned) = .ok t ∧
      SplitType m_value integerBits fractionalBits t := by
  have hok : 0 < integerBits + fractionalBits ∧ integerBits + fractionalBits ≤ 256 ∧ integerBits % 8 = 0 ∧ fractionalBits % 8 = 0 :=
    ⟨hpos, hle, hinteger, hfractional⟩
  rw [FixedPointType.make, dif_pos hok]
  refine ⟨_, rfl, ?_, rfl, rfl⟩
  by_cases hneg : m_value < 0
  · simp [FixedPointType.isSigned, hneg]
  · simp [FixedPointType.isSigned, hneg]

variable {m_value : ℚ} {totalBits fractionalBits : Nat}

/-- The fixed point type has the bits of the split. -/
theorem fixedPointOfBits_of_split {before behind : Nat} (hsplit : splitBits m_value totalBits fractionalBits = (before, behind))
    (hpos : 0 < before + behind) (hle : before + behind ≤ 256) (hbefore : before % 8 = 0) (hbehind : behind % 8 = 0) :
    ∃ t, fixedPointOfBits m_value totalBits fractionalBits = .ok (some t) ∧ SplitType m_value before behind t := by
  have hbound : ¬ (before > 256 ∨ behind > 256 ∨ behind + before > 256) := by omega
  have hnone : ¬ (before = 0 ∧ behind = 0) := by omega
  obtain ⟨t, ht, htype⟩ := make_split m_value before behind hpos hle hbefore hbehind
  refine ⟨t, ?_, htype⟩
  simp only [fixedPointOfBits, hsplit, if_neg hbound, if_neg hnone, ht]
  rfl

/-- The type is as large as the number, and has all of the bits behind the point. -/
theorem fixedPointOfBits_plain (hplain : ¬ (m_value < 0 ∧ |m_value| < 1 ∧ totalBits > fractionalBits)) (htotal : totalBits % 8 = 0)
    (hmod : fractionalBits % 8 = 0) (hle : totalBits ≤ 256) (hmost : fractionalBits ≤ 256)
    (hsome : ¬ (totalBits = 0 ∧ fractionalBits = 0)) : ∃ t, fixedPointOfBits m_value totalBits fractionalBits = .ok (some t) ∧
      SplitType m_value (totalBits - fractionalBits) fractionalBits t := by
  have hinteger : (if totalBits ≥ fractionalBits then totalBits - fractionalBits else 0) = totalBits - fractionalBits := by
    split <;> omega
  have hsplit : splitBits m_value totalBits fractionalBits = (totalBits - fractionalBits, fractionalBits) := by
    rw [splitBits, if_neg hplain, hinteger]
  exact fixedPointOfBits_of_split hsplit (by omega) (by omega) (by omega) hmod

/-- A number that takes no bits is given eight of them behind the point. -/
theorem fixedPointOfBits_zero (m_value : ℚ) :
    ∃ t, fixedPointOfBits m_value 0 0 = .ok (some t) ∧ SplitType m_value 0 8 t := by
  have hplain : ¬ (m_value < 0 ∧ |m_value| < 1 ∧ 0 > 0) := fun h => Nat.lt_irrefl 0 h.2.2
  obtain ⟨t, ht, htype⟩ := make_split m_value 0 8 (by omega) (by omega) rfl rfl
  refine ⟨t, ?_, htype⟩
  simp only [fixedPointOfBits, splitBits, if_neg hplain]
  rw [if_neg (by decide)]
  simp [ht]

/-- The bit of the sign is given a byte behind the point. -/
theorem fixedPointOfBits_special (hspecial : m_value < 0 ∧ |m_value| < 1 ∧ totalBits > fractionalBits) (hmod : fractionalBits % 8 = 0)
    (hmost : fractionalBits ≤ 248) : ∃ t, fixedPointOfBits m_value totalBits fractionalBits = .ok (some t) ∧
      SplitType m_value 0 (fractionalBits + 8) t := by
  have hsplit : splitBits m_value totalBits fractionalBits = (0, fractionalBits + 8) := by
    rw [splitBits, if_pos hspecial]
  exact fixedPointOfBits_of_split hsplit (by omega) (by omega) rfl (by omega)

/-- The largest value that is scaled. -/
def maxValue (m_value : ℚ) : ℚ := if m_value < 0 then 2 ^ 255 else 2 ^ 256 - 1

/-- The value after scaling, and how many bits it was scaled by. -/
def scaled (m_value : ℚ) : ℚ × Nat := scale (maxValue m_value) |m_value| 0

/-- The integer whose bits are counted. -/
def fixedCode (m_value : ℚ) : Int := if m_value < 0 then (truncate (scaled m_value).1 - 1) * 2 else truncate (scaled m_value).1

/-- The fixed point type in the words of the scaled value. -/
theorem fixedPointType_eq (r : RationalNumberType) (k : Nat) : r.fixedPointType carriesSign k =
    if (scaled r.m_value).1 > maxValue r.m_value then .ok none
    else if fixedCode r.m_value > 2 ^ 256 - 1 then .ok none
    else requiredBytes carriesSign k (fixedCode r.m_value) >>= fun bytes =>
      if ¬ bytes * 8 ≤ 256 then .error .InternalCompilerError else fixedPointOfBits r.m_value (bytes * 8) (scaled r.m_value).2 := rfl

/-- The parts of the specification of the loop for the value of a constant. -/
theorem scaled_spec (m_value : ℚ) : (scaled m_value).1 = |m_value| * 2 ^ (scaled m_value).2 ∧ (scaled m_value).2 % 8 = 0 ∧
    (scaled m_value).2 ≤ 256 ∧ ((scaled m_value).2 = 0 ∨ (scaled m_value).1 ≤ maxValue m_value) ∧
    ¬ ((scaled m_value).1 * 0x100 ≤ maxValue m_value ∧ (scaled m_value).1.den ≠ 1 ∧ (scaled m_value).2 < 256) := by
  have hspec := scale_spec (maxValue m_value) |m_value| 0
  exact ⟨hspec.eq, hspec.mod rfl, hspec.most (by omega) rfl, hspec.fits, hspec.done⟩

/-- The type holds the value, truncated to the bits behind its point. -/
def Holds (t : FixedPointType) (m_value : ℚ) : Prop := InRange t.isSigned t.numBits (truncate (m_value * 2 ^ t.fractionalBits))

/-- A scaled value beyond the largest has no fixed point type. -/
theorem fixedPointType_null (hlarge : (scaled r.m_value).1 > maxValue r.m_value) :
    Returns (fun k => r.fixedPointType carriesSign k) none := by
  refine ⟨0, fun k _ => ?_⟩
  show r.fixedPointType carriesSign k = _
  rw [fixedPointType_eq, if_pos hlarge]

/-- The fixed point type is found when the code fits. -/
theorem fixedPointType_returns {bytes : Nat} {x : Option FixedPointType} (hsmall : ¬ (scaled r.m_value).1 > maxValue r.m_value)
    (hfits : fixedCode r.m_value < 2 ^ 256) (hbytes : Returns (fun k => requiredBytes carriesSign k (fixedCode r.m_value)) bytes)
    (hle : bytes * 8 ≤ 256) (hx : fixedPointOfBits r.m_value (bytes * 8) (scaled r.m_value).2 = .ok x) :
    Returns (fun k => r.fixedPointType carriesSign k) x := by
  obtain ⟨n, hn⟩ := hbytes
  refine ⟨n, fun k hk => ?_⟩
  have hnot : ¬ fixedCode r.m_value > 2 ^ 256 - 1 := by omega
  have hbytes : requiredBytes carriesSign k (fixedCode r.m_value) = .ok bytes := hn k hk
  show r.fixedPointType carriesSign k = _
  rw [fixedPointType_eq, if_neg hsmall, if_neg hnot, hbytes, ok_bind, if_neg (not_not.mpr hle), hx]

/-- The type of a value that is not negative holds it. -/
theorem fixedPointType_nonneg (carriesSign : Bool) (h : 0 ≤ r.m_value) :
    ∃ x, Returns (fun k => r.fixedPointType carriesSign k) x ∧ ∀ t, x = some t → Holds t r.m_value := by
  obtain ⟨heq, hmod, hmost, -, -⟩ := scaled_spec r.m_value
  rw [abs_of_nonneg h] at heq
  have hvalue : 0 ≤ (scaled r.m_value).1 := by
    rw [heq]
    positivity
  have hcode : fixedCode r.m_value = truncate (scaled r.m_value).1 := if_neg (not_lt.mpr h)
  have hmax : maxValue r.m_value = 2 ^ 256 - 1 := if_neg (not_lt.mpr h)
  by_cases hlarge : (scaled r.m_value).1 > maxValue r.m_value
  · exact ⟨none, fixedPointType_null hlarge, by simp⟩
  · have hnonneg : 0 ≤ fixedCode r.m_value := by
      rw [hcode]
      exact truncate_nonneg hvalue
    have hfits : fixedCode r.m_value < 2 ^ 256 := by
      have hle : (truncate (scaled r.m_value).1 : ℚ) ≤ 2 ^ 256 - 1 := by
        rw [← hmax]
        exact (truncate_le hvalue).trans (not_lt.mp hlarge)
      have hle' : truncate (scaled r.m_value).1 ≤ 2 ^ 256 - 1 := by exact_mod_cast hle
      omega
    have hbytes : bytesRequired (fixedCode r.m_value).toNat ≤ 32 := (bytes_le hnonneg 32).mpr hfits
    have hlt := lt_pow_bytes hnonneg
    have hreturns := requiredBytes_of_nonneg carriesSign hnonneg
    have hunsigned : decide (r.m_value < 0) = false := decide_eq_false (not_lt.mpr h)
    by_cases hzero : bytesRequired (fixedCode r.m_value).toNat * 8 = 0 ∧ (scaled r.m_value).2 = 0
    · -- less than one, and given a byte behind the point
      obtain ⟨t, ht, hsigned, hfractional, hnum⟩ := fixedPointOfBits_zero r.m_value
      have hbits : fixedPointOfBits r.m_value (bytesRequired (fixedCode r.m_value).toNat * 8) (scaled r.m_value).2 = .ok (some t) := by
        rw [hzero.1, hzero.2, ht]
      refine ⟨some t, fixedPointType_returns hlarge hfits hreturns (by omega) hbits, fun t' ht' => ?_⟩
      cases ht'
      rw [hzero.1, pow_zero, hcode] at hlt
      have hone : r.m_value < 1 := by
        have hless := lt_truncate_add_one hvalue
        have htrunc : truncate (scaled r.m_value).1 ≤ 0 := by omega
        have hcast : (truncate (scaled r.m_value).1 : ℚ) ≤ 0 := by exact_mod_cast htrunc
        rw [heq, hzero.2, pow_zero, mul_one] at hless hcast
        linarith
      have hscaled : 0 ≤ r.m_value * 2 ^ 8 := by positivity
      have hless : truncate (r.m_value * 2 ^ 8) < 2 ^ 8 := by
        have hle := truncate_le hscaled
        have hcast : (truncate (r.m_value * 2 ^ 8) : ℚ) < 2 ^ 8 := by linarith
        exact_mod_cast hcast
      rw [Holds, hsigned, hunsigned, hfractional, hnum, inRange_unsigned]
      exact ⟨truncate_nonneg hscaled, hless⟩
    · have hplain : ¬ (r.m_value < 0 ∧ |r.m_value| < 1 ∧
          bytesRequired (fixedCode r.m_value).toNat * 8 > (scaled r.m_value).2) := fun hneg => not_lt.mpr h hneg.1
      obtain ⟨t, ht, hsigned, hfractional, hnum⟩ := fixedPointOfBits_plain hplain (by omega) hmod (by omega) hmost hzero
      refine ⟨some t, fixedPointType_returns hlarge hfits hreturns (by omega) ht, fun t' ht' => ?_⟩
      cases ht'
      have hrange : InRange false (bytesRequired (fixedCode r.m_value).toNat * 8) (fixedCode r.m_value) := inRange_unsigned.mpr ⟨hnonneg, hlt⟩
      rw [Holds, hsigned, hunsigned, hfractional, hnum, ← heq, ← hcode]
      exact hrange.mono (by omega)

/-! ## Negative fixed points -/

section

variable {m : ℚ} (hneg : m < 0)

include hneg

/-- A negative value is scaled as its opposite. -/
theorem scaled_neg : (scaled m).1 = -m * 2 ^ (scaled m).2 ∧ 0 < (scaled m).1 ∧
    ((scaled m).2 = 0 ∨ (scaled m).1 ≤ 2 ^ 255) ∧ ¬ ((scaled m).1 * 0x100 ≤ 2 ^ 255 ∧ (scaled m).1.den ≠ 1 ∧ (scaled m).2 < 256) := by
  obtain ⟨heq, -, -, hfits, hdone⟩ := scaled_spec m
  have hmax : maxValue m = 2 ^ 255 := if_pos hneg
  rw [abs_of_neg hneg] at heq
  rw [hmax] at hfits hdone
  refine ⟨heq, ?_, hfits, hdone⟩
  rw [heq]
  have hpos : 0 < -m := neg_pos.mpr hneg
  positivity

/-- Truncated, a negative value has the size of the one that is scaled. -/
theorem truncate_scaled_neg : truncate (m * 2 ^ (scaled m).2) = -truncate (scaled m).1 := by
  have hminus : m * 2 ^ (scaled m).2 = -(scaled m).1 := by
    rw [(scaled_neg hneg).1]
    ring
  rw [hminus, truncate_neg]

/-- If nothing of the value is left, it was scaled as far as it may be. -/
theorem scaled_of_truncate_zero (hzero : truncate (scaled m).1 = 0) : (scaled m).1 < 1 ∧ (scaled m).2 = 256 := by
  obtain ⟨heq, hpos, -, hdone⟩ := scaled_neg hneg
  have hmost := (scaled_spec m).2.2.1
  have hone : (scaled m).1 < 1 := by
    have hlt := lt_truncate_add_one hpos.le
    rw [hzero] at hlt
    simpa using hlt
  have hfraction : (scaled m).1.den ≠ 1 := by
    intro hden
    have hsame := truncate_of_den hden
    rw [hzero] at hsame
    simp only [Int.cast_zero] at hsame
    linarith
  refine ⟨hone, ?_⟩
  by_contra hne
  refine hdone ⟨?_, hfraction, by omega⟩
  have hbig : (0x100 : ℚ) ≤ 2 ^ 255 := by norm_num
  linarith

/-- Nothing of the value is left if and only if it is too small for 256 bits behind the point. -/
theorem truncate_scaled_eq_zero_iff : truncate (scaled m).1 = 0 ↔ -(1 / 2 ^ 256) < m := by
  obtain ⟨heq, hpos, -, -⟩ := scaled_neg hneg
  have hmost := (scaled_spec m).2.2.1
  constructor
  · intro hzero
    obtain ⟨hone, hlast⟩ := scaled_of_truncate_zero hneg hzero
    rw [heq, hlast] at hone
    have hdiv : -m < 1 / 2 ^ 256 := by
      rw [lt_div_iff₀ (by positivity)]
      exact hone
    linarith
  · intro htiny
    have hone : (scaled m).1 < 1 := by
      have hpow : (2 : ℚ) ^ (scaled m).2 ≤ 2 ^ 256 := pow_le_pow_right₀ (by norm_num) hmost
      have hdiv : -m * 2 ^ 256 < 1 := by
        rw [← lt_div_iff₀ (by positivity)]
        linarith
      have hle : -m * 2 ^ (scaled m).2 ≤ -m * 2 ^ 256 := mul_le_mul_of_nonneg_left hpow (by linarith)
      rw [heq]
      linarith
    have hlt : (truncate (scaled m).1 : ℚ) < 1 := lt_of_le_of_lt (truncate_le hpos.le) hone
    have hlt' : truncate (scaled m).1 < 1 := by exact_mod_cast hlt
    have hnonneg := truncate_nonneg hpos.le
    omega

/-- The code of a negative value has one bit more, for its sign. -/
theorem fixedCode_neg : fixedCode m = (truncate (scaled m).1 - 1) * 2 := if_pos hneg

/-- A value that is not too large to be scaled has a code that is not too large. -/
theorem fixedCode_lt_of_neg (hsmall : ¬ (scaled m).1 > maxValue m) : fixedCode m < 2 ^ 256 := by
  obtain ⟨-, hpos, -, -⟩ := scaled_neg hneg
  have hmax : maxValue m = 2 ^ 255 := if_pos hneg
  rw [hmax] at hsmall
  have hle : (truncate (scaled m).1 : ℚ) ≤ 2 ^ 255 := (truncate_le hpos.le).trans (not_lt.mp hsmall)
  have hle' : truncate (scaled m).1 ≤ 2 ^ 255 := by exact_mod_cast hle
  rw [fixedCode_neg hneg]
  omega

/-- Half of the range behind the point is not enough for the values that are given a byte for the sign. -/
theorem le_of_special (hsmall : ¬ (scaled m).1 > maxValue m) (hv : 1 ≤ truncate (scaled m).1)
    (hbits : bytesRequired (fixedCode m).toNat * 8 > (scaled m).2) : (scaled m).2 ≤ 248 ∧ m ≤ -(1 / 2 + 1 / 2 ^ 248) := by
  obtain ⟨heq, hpos, -, -⟩ := scaled_neg hneg
  obtain ⟨-, hmod, -, -, -⟩ := scaled_spec m
  have hcode := fixedCode_neg hneg
  have hnonneg : 0 ≤ fixedCode m := by omega
  have hbytes : bytesRequired (fixedCode m).toNat ≤ 32 := (bytes_le hnonneg 32).mpr (fixedCode_lt_of_neg hneg hsmall)
  have hmost : (scaled m).2 ≤ 248 := by omega
  have hlarge : ¬ fixedCode m < 2 ^ (8 * ((scaled m).2 / 8)) := by
    rw [← bytes_le hnonneg]
    omega
  have hsame : 8 * ((scaled m).2 / 8) = (scaled m).2 := by omega
  rw [hsame, hcode, not_lt] at hlarge
  have hlarge' : (2 : ℚ) ^ (scaled m).2 ≤ ((truncate (scaled m).1 : ℚ) - 1) * 2 := by exact_mod_cast hlarge
  have hle := (truncate_le hpos.le).trans heq.le
  have hP : (0 : ℚ) < 2 ^ (scaled m).2 := by positivity
  have hpow : (2 : ℚ) ^ (scaled m).2 ≤ 2 ^ 248 := pow_le_pow_right₀ (by norm_num) hmost
  have hshare : 2 ^ (scaled m).2 * (1 / 2 ^ 248 : ℚ) ≤ 1 := by
    rw [mul_one_div, div_le_one (by positivity)]
    exact hpow
  have hscaled : (1 / 2 + 1 / 2 ^ 248 : ℚ) * 2 ^ (scaled m).2 ≤ -m * 2 ^ (scaled m).2 := by linarith
  have hm := le_of_mul_le_mul_right hscaled hP
  exact ⟨hmost, by linarith⟩

/-- Of the negative values only -1 takes no bits. -/
theorem eq_neg_one (hv : truncate (scaled m).1 = 1) (hbits : (scaled m).2 = 0) : m = -1 := by
  obtain ⟨heq, hpos, -, hdone⟩ := scaled_neg hneg
  have hlt := lt_truncate_add_one hpos.le
  rw [hv] at hlt
  have hden : (scaled m).1.den = 1 := by
    by_contra hden
    refine hdone ⟨?_, hden, by omega⟩
    have hbig : (0x100 : ℚ) * 2 ≤ 2 ^ 255 := by norm_num
    have hcast : ((1 : Int) : ℚ) = 1 := rfl
    rw [hcast] at hlt
    linarith
  have hsame := truncate_of_den hden
  rw [hv, heq, hbits] at hsame
  simp at hsame
  linarith

end

/-- The type of a negative value holds it, unless the sign is put behind the point for a value up to -1; it is found if a negative number is
shifted out, or the value is not too small. -/
theorem fixedPointType_neg (hneg : r.m_value < 0) (hsize : ¬ (-1 ≤ r.m_value ∧ r.m_value ≤ -(1 / 2 + 1 / 2 ^ 248)))
    (htiny : carriesSign = true → ¬ -(1 / 2 ^ 256) < r.m_value) :
    ∃ x, Returns (fun k => r.fixedPointType carriesSign k) x ∧ ∀ t, x = some t → Holds t r.m_value := by
  obtain ⟨-, hmod, hmost, -, -⟩ := scaled_spec r.m_value
  obtain ⟨-, hpos, -, -⟩ := scaled_neg hneg
  have hsigned' : decide (r.m_value < 0) = true := decide_eq_true hneg
  have hcode := fixedCode_neg hneg
  by_cases hlarge : (scaled r.m_value).1 > maxValue r.m_value
  · exact ⟨none, fixedPointType_null hlarge, by simp⟩
  · have hfits := fixedCode_lt_of_neg hneg hlarge
    have hnonneg := truncate_nonneg hpos.le
    by_cases hzero : truncate (scaled r.m_value).1 = 0
    · -- nothing is left of the value
      have hshifted : carriesSign = false := by
        by_contra hcarries
        exact htiny (by simpa using hcarries) ((truncate_scaled_eq_zero_iff hneg).mp hzero)
      subst hshifted
      rw [hzero] at hcode
      have hbytes : Returns (fun k => requiredBytes false k (fixedCode r.m_value)) 1 := by
        rw [hcode]
        refine ⟨2, fun k hk => ?_⟩
        obtain ⟨k, rfl⟩ := Nat.exists_eq_add_of_le' hk
        rfl
      have hlast := (scaled_of_truncate_zero hneg hzero).2
      have hplain : ¬ (r.m_value < 0 ∧ |r.m_value| < 1 ∧ 1 * 8 > (scaled r.m_value).2) := fun h => by omega
      obtain ⟨t, ht, hsigned, hfractional, hnum⟩ := fixedPointOfBits_plain hplain (by omega) hmod (by omega) hmost (by omega)
      refine ⟨some t, fixedPointType_returns hlarge hfits hbytes (by omega) ht, fun t' ht' => ?_⟩
      cases ht'
      rw [Holds, hsigned, hsigned', hfractional, truncate_scaled_neg hneg, hzero, inRange_signed]
      have hpow : (0 : Int) < 2 ^ t.numBits := by positivity
      constructor
      · omega
      · omega
    · have hnonneg' : 0 ≤ fixedCode r.m_value := by omega
      have hbytes : bytesRequired (fixedCode r.m_value).toNat ≤ 32 := (bytes_le hnonneg' 32).mpr hfits
      have hlt := lt_pow_bytes hnonneg'
      have hreturns := requiredBytes_of_nonneg carriesSign hnonneg'
      have hsome : ¬ (bytesRequired (fixedCode r.m_value).toNat * 8 = 0 ∧ (scaled r.m_value).2 = 0) := by
        rintro ⟨hnone, hbits⟩
        rw [hnone, pow_zero, hcode] at hlt
        have hone := eq_neg_one hneg (by omega) hbits
        refine hsize ⟨hone.ge, ?_⟩
        rw [hone]
        norm_num
      have hplain : ¬ (r.m_value < 0 ∧ |r.m_value| < 1 ∧ bytesRequired (fixedCode r.m_value).toNat * 8 > (scaled r.m_value).2) := by
        rintro ⟨-, habs, hbits⟩
        rw [abs_of_neg hneg] at habs
        exact hsize ⟨by linarith, (le_of_special hneg hlarge (by omega) hbits).2⟩
      obtain ⟨t, ht, hsigned, hfractional, hnum⟩ := fixedPointOfBits_plain hplain (by omega) hmod (by omega) hmost hsome
      refine ⟨some t, fixedPointType_returns hlarge hfits hreturns (by omega) ht, fun t' ht' => ?_⟩
      cases ht'
      obtain ⟨n, hn⟩ : ∃ n, t.numBits = n + 1 := ⟨t.numBits - 1, by omega⟩
      have hle : bytesRequired (fixedCode r.m_value).toNat * 8 ≤ n + 1 := by omega
      have hwide : fixedCode r.m_value < 2 ^ (n + 1) := lt_of_lt_of_le hlt (pow_le_pow_right₀ (by omega) hle)
      rw [Holds, hsigned, hsigned', hfractional, truncate_scaled_neg hneg, hn, inRange_signed]
      rw [hcode, pow_succ] at hwide
      have hpow : (0 : Int) < 2 ^ n := by positivity
      rw [pow_succ]
      omega

/-- For -1 itself eight bits are put behind the point, and none before it. -/
theorem fixedPointType_neg_one (carriesSign : Bool) (h : r.m_value = -1) :
    ∃ t, Returns (fun k => r.fixedPointType carriesSign k) (some t) ∧ ¬ Holds t r.m_value := by
  have hneg : r.m_value < 0 := by
    rw [h]
    norm_num
  have hscaled : scaled r.m_value = (1, 0) := by
    have hdone : ¬ ((1 : ℚ) * 0x100 ≤ maxValue (-1) ∧ (1 : ℚ).den ≠ 1 ∧ 0 < 256) := fun hmore => hmore.2.1 rfl
    have habs : |(-1 : ℚ)| = 1 := by norm_num
    rw [h, scaled, habs, scale, if_neg hdone]
  have hcode : fixedCode r.m_value = 0 := by
    have hone : truncate 1 = 1 := truncate_intCast 1
    rw [fixedCode_neg hneg, hscaled, hone]
    rfl
  have hsmall : ¬ (scaled r.m_value).1 > maxValue r.m_value := by
    rw [hscaled, h, maxValue]
    norm_num
  obtain ⟨t, ht, hsigned, hfractional, hnum⟩ := fixedPointOfBits_zero r.m_value
  have hbytes : Returns (fun k => requiredBytes carriesSign k (fixedCode r.m_value)) 0 := by
    have hreturns := requiredBytes_of_nonneg carriesSign (show 0 ≤ fixedCode r.m_value by omega)
    rwa [hcode, Int.toNat_zero, bytesRequired_zero, ← hcode] at hreturns
  have hbits : fixedPointOfBits r.m_value (0 * 8) (scaled r.m_value).2 = .ok (some t) := by
    rw [hscaled, Nat.zero_mul, ht]
  refine ⟨t, fixedPointType_returns hsmall (by omega) hbytes (by omega) hbits, fun hholds => ?_⟩
  have htrunc : truncate (r.m_value * 2 ^ 8) = -256 := by
    have hcast : r.m_value * 2 ^ 8 = ((-256 : Int) : ℚ) := by
      rw [h]
      norm_num
    rw [hcast, truncate_intCast]
  rw [Holds, hsigned, decide_eq_true hneg, hfractional, hnum, htrunc] at hholds
  exact absurd hholds (by decide)

/-- More than half of the range is left of a value between -1 and -1/2. -/
theorem half_lt_truncate {m : ℚ} (hlow : -1 < m) (hhigh : m ≤ -(1 / 2 + 1 / 2 ^ 248)) :
    (scaled m).2 ≤ 248 ∧ 2 ^ (scaled m).2 + 2 ≤ 2 * truncate (scaled m).1 := by
  have hhalf : (0 : ℚ) < 1 / 2 ^ 248 := by positivity
  have hneg : m < 0 := by linarith
  obtain ⟨heq, hpos, hfits, hdone⟩ := scaled_neg hneg
  obtain ⟨-, hmod, hmost, -, -⟩ := scaled_spec m
  have hP : (0 : ℚ) < 2 ^ (scaled m).2 := by positivity
  have hless : (scaled m).1 < 2 ^ (scaled m).2 := by
    have hmul : -m * 2 ^ (scaled m).2 < 1 * 2 ^ (scaled m).2 := mul_lt_mul_of_pos_right (by linarith) hP
    rwa [← heq, one_mul] at hmul
  have hlarge : (1 / 2 + 1 / 2 ^ 248) * 2 ^ (scaled m).2 ≤ (scaled m).1 := by
    rw [heq]
    exact mul_le_mul_of_nonneg_right (by linarith) hP.le
  have hlast : (scaled m).2 ≤ 248 := by
    by_contra hmore
    have hall : (scaled m).2 = 256 := by omega
    rcases hfits with hnone | hfits
    · omega
    · rw [hall] at hlarge
      have hmore' : (2 : ℚ) ^ 255 < (1 / 2 + 1 / 2 ^ 248) * 2 ^ 256 := by norm_num
      linarith
  refine ⟨hlast, ?_⟩
  by_cases hden : (scaled m).1.den = 1
  · -- the value is an integer after scaling
    have hsame := truncate_of_den hden
    rw [← hsame] at hless hlarge
    have hless' : truncate (scaled m).1 < 2 ^ (scaled m).2 := by exact_mod_cast hless
    have hmore : (2 : ℚ) ^ (scaled m).2 < 2 * truncate (scaled m).1 := by
      have hsmall : 0 < 1 / 2 ^ 248 * (2 : ℚ) ^ (scaled m).2 := mul_pos hhalf hP
      linarith
    have hmore' : 2 ^ (scaled m).2 < 2 * truncate (scaled m).1 := by exact_mod_cast hmore
    by_cases hnone : (scaled m).2 = 0
    · rw [hnone, pow_zero] at hless' hmore'
      omega
    · obtain ⟨n, hn⟩ : ∃ n, (scaled m).2 = n + 1 := ⟨(scaled m).2 - 1, by omega⟩
      rw [hn, pow_succ] at hmore' ⊢
      omega
  · -- the value is as large as it may be
    have hstop : ¬ (scaled m).1 * 0x100 ≤ 2 ^ 255 := fun hroom => hdone ⟨hroom, hden, by omega⟩
    have hbits : (scaled m).2 = 248 := by
      by_contra hne
      have hpow : (2 : ℚ) ^ (scaled m).2 ≤ 2 ^ 240 := pow_le_pow_right₀ (by norm_num) (by omega)
      refine hstop ?_
      have hroom : (2 : ℚ) ^ 240 * 0x100 ≤ 2 ^ 255 := by norm_num
      linarith
    rw [hbits] at hlarge ⊢
    have hint : (((2 ^ 247 + 1 : Int)) : ℚ) ≤ (scaled m).1 := by
      have hsum : (((2 ^ 247 + 1 : Int)) : ℚ) = (1 / 2 + 1 / 2 ^ 248) * 2 ^ 248 := by norm_num
      rw [hsum]
      exact hlarge
    have hle := le_truncate hint (by norm_num)
    omega

/-- The values up to -1 whose sign is put behind the point are not held. -/
theorem fixedPointType_not_holds (carriesSign : Bool) (hlow : -1 ≤ r.m_value) (hhigh : r.m_value ≤ -(1 / 2 + 1 / 2 ^ 248)) :
    ∃ t, Returns (fun k => r.fixedPointType carriesSign k) (some t) ∧ ¬ Holds t r.m_value := by
  rcases hlow.eq_or_lt with hone | hlow
  · exact fixedPointType_neg_one carriesSign hone.symm
  · have hhalf : (0 : ℚ) < 1 / 2 ^ 248 := by positivity
    have hneg : r.m_value < 0 := by linarith
    obtain ⟨heq, hpos, -, -⟩ := scaled_neg hneg
    obtain ⟨-, hmod, -, -, -⟩ := scaled_spec r.m_value
    obtain ⟨hlast, hhalf'⟩ := half_lt_truncate hlow hhigh
    have hP : (0 : ℚ) < 2 ^ (scaled r.m_value).2 := by positivity
    have hP' : (0 : Int) < 2 ^ (scaled r.m_value).2 := by positivity
    have hsmall : ¬ (scaled r.m_value).1 > maxValue r.m_value := by
      have hmax : maxValue r.m_value = 2 ^ 255 := if_pos hneg
      have hless : -r.m_value * 2 ^ (scaled r.m_value).2 ≤ 1 * 2 ^ (scaled r.m_value).2 :=
        mul_le_mul_of_nonneg_right (by linarith) hP.le
      have hpow : (2 : ℚ) ^ (scaled r.m_value).2 ≤ 2 ^ 255 := pow_le_pow_right₀ (by norm_num) (by omega)
      rw [hmax, heq]
      linarith
    have hcode := fixedCode_neg hneg
    have hnonneg : 0 ≤ fixedCode r.m_value := by omega
    have hfits := fixedCode_lt_of_neg hneg hsmall
    have hbytes : bytesRequired (fixedCode r.m_value).toNat ≤ 32 := (bytes_le hnonneg 32).mpr hfits
    have hmore : bytesRequired (fixedCode r.m_value).toNat * 8 > (scaled r.m_value).2 := by
      by_contra hfew
      have hlt := (bytes_le hnonneg ((scaled r.m_value).2 / 8)).mp (by omega)
      have hsame : 8 * ((scaled r.m_value).2 / 8) = (scaled r.m_value).2 := by omega
      rw [hsame] at hlt
      omega
    have hspecial : r.m_value < 0 ∧ |r.m_value| < 1 ∧ bytesRequired (fixedCode r.m_value).toNat * 8 > (scaled r.m_value).2 := by
      refine ⟨hneg, ?_, hmore⟩
      rw [abs_of_neg hneg]
      linarith
    obtain ⟨t, ht, hsigned, hfractional, hnum⟩ := fixedPointOfBits_special hspecial hmod hlast
    refine ⟨t, fixedPointType_returns hsmall hfits (requiredBytes_of_nonneg carriesSign hnonneg) (by omega) ht, fun hholds => ?_⟩
    have hminus : r.m_value * 2 ^ ((scaled r.m_value).2 + 8) = -((scaled r.m_value).1 * 2 ^ 8) := by
      rw [heq, pow_add]
      ring
    have hscaled : truncate (scaled r.m_value).1 * 256 ≤ truncate ((scaled r.m_value).1 * 2 ^ 8) := by
      refine le_truncate ?_ (by omega)
      have hle := truncate_le hpos.le
      push_cast
      linarith
    rw [Holds, hsigned, decide_eq_true hneg, hfractional, hnum, hminus, truncate_neg, Nat.zero_add, inRange_signed, pow_add] at hholds
    omega

/-- The loop does not end for a small negative value whose sign is carried along. -/
theorem fixedPointType_running (hneg : r.m_value < 0) (htiny : -(1 / 2 ^ 256) < r.m_value) (k : Nat) :
    r.fixedPointType true k = .error .Running := by
  have hzero := (truncate_scaled_eq_zero_iff hneg).mpr htiny
  have hone := (scaled_of_truncate_zero hneg hzero).1
  have hsmall : ¬ (scaled r.m_value).1 > maxValue r.m_value := by
    have hmax : maxValue r.m_value = 2 ^ 255 := if_pos hneg
    have hbig : (1 : ℚ) ≤ 2 ^ 255 := by norm_num
    rw [hmax]
    linarith
  have hcode : fixedCode r.m_value = -2 := by
    rw [fixedCode_neg hneg, hzero]
    rfl
  have hnot : ¬ fixedCode r.m_value > 2 ^ 256 - 1 := by omega
  have hloop : Bigint.bytesLoop true k (-2) 0 = none := Bigint.bytesLoop_of_neg k (by decide) 0
  rw [fixedPointType_eq, if_neg hsmall, if_neg hnot, hcode]
  simp only [requiredBytes, Bigint.bytesRequired, hloop, error_bind]

end RationalNumberType

/-! ## Conversions -/

/-- The type has a value that is exactly the number; for bytes, those of the number without a sign or in two's complement. -/
def ValueType.Represents : ValueType → ℚ → Prop
  | .integer t, m => ∃ n : Int, m = n ∧ InRange t.isSigned t.numBits n
  | .fixedPoint t, m => ∃ n : Int, m * 2 ^ t.fractionalBits = n ∧ InRange t.isSigned t.numBits n
  | .fixedBytes t, m => ∃ n : Int, m = n ∧ (InRange false (8 * t.m_bytes) n ∨ InRange true (8 * t.m_bytes) n)
  | .other, _ => False

/-- What one fixed point type represents, those represent that it is converted to. -/
theorem FixedPointType.represents {t t' : FixedPointType} (h : t.isImplicitlyConvertibleTo (.fixedPoint t') = true) {m : ℚ}
    (hm : (ValueType.fixedPoint t).Represents m) : (ValueType.fixedPoint t').Represents m := by
  obtain ⟨n, hn, hrange⟩ := hm
  rw [isImplicitlyConvertibleTo] at h
  split at h
  · cases h
  · rename_i hless
    obtain ⟨d, hd⟩ : ∃ d, t'.m_fractionalBits = t.m_fractionalBits + d := ⟨t'.m_fractionalBits - t.m_fractionalBits, by omega⟩
    refine ⟨n * 2 ^ d, ?_, ?_⟩
    · rw [fractionalBits, hd, pow_add, ← mul_assoc]
      rw [fractionalBits] at hn
      rw [hn]
      push_cast
      rfl
    · have hscaled := hrange.scale d
      rw [numBits] at hscaled ⊢
      cases hsigned : t.isSigned with
      | true =>
        rw [hsigned, if_pos rfl] at h
        rw [hsigned] at hscaled
        rw [h]
        exact hscaled.mono (by omega)
      | false =>
        rw [hsigned, if_neg (by decide)] at h
        rw [hsigned] at hscaled
        cases hsigned' : t'.isSigned with
        | true =>
          rw [hsigned'] at h
          have hmore : t'.m_integerBits > t.m_integerBits := by simpa using h
          exact hscaled.with_sign (by omega)
        | false => exact hscaled.mono (by omega)

namespace RationalNumberType

variable {carriesSign : Bool} {r : RationalNumberType} {convertTo : ValueType}

/-- A number below a word of ones shifted right fits into the bits that are left. -/
theorem lt_of_le_shiftRight {x : Int} {n : Nat} (hn : n ≤ 256) (h : x ≤ (((-1 : U256) >>> (256 - n)).toNat : Int)) : x < 2 ^ n := by
  have hall : (-1 : U256).toNat = 2 ^ 256 - 1 := by decide
  have hsplit : 2 ^ (256 - n) * 2 ^ n = 2 ^ 256 := by
    rw [← pow_add]
    congr 1
    omega
  have hlt : (2 ^ 256 - 1) / 2 ^ (256 - n) < 2 ^ n := by
    rw [Nat.div_lt_iff_lt_mul (by positivity), Nat.mul_comm, hsplit]
    norm_num
  rw [BitVec.toNat_ushiftRight, hall, Nat.shiftRight_eq_div_pow] at h
  have hlt' : (((2 ^ 256 - 1) / 2 ^ (256 - n) : Nat) : Int) < ((2 ^ n : Nat) : Int) := by exact_mod_cast hlt
  push_cast at hlt' h
  omega

/-- A number below a shifted one is at most that power of two. -/
theorem le_of_le_shiftLeft {x : Int} {n : Nat} (h : x ≤ (((1 : U256) <<< n).toNat : Int)) : x ≤ 2 ^ n := by
  have hle : ((1 : U256) <<< n).toNat ≤ 2 ^ n := by
    rw [BitVec.toNat_shiftLeft, Nat.shiftLeft_eq]
    have hone : (1 : U256).toNat = 1 := rfl
    rw [hone, Nat.one_mul]
    exact Nat.mod_le _ _
  exact h.trans (by exact_mod_cast hle)

/-- An integer that fits its type is represented by it. -/
theorem fitsInteger_represents {t : IntegerType} (h : r.fitsInteger t = true) : (ValueType.integer t).Represents r.m_value := by
  have hbits := t.bits_pos
  have hmost := t.bits_le
  obtain ⟨b, hb⟩ : ∃ b, t.m_bits = b + 1 := ⟨t.m_bits - 1, by omega⟩
  have hpos : (0 : Int) < 2 ^ b := by positivity
  simp only [fitsInteger] at h
  by_cases hzero : r.m_value = 0
  · refine ⟨0, by rw [hzero]; rfl, ?_⟩
    rw [IntegerType.numBits, hb]
    cases t.isSigned with
    | true =>
      rw [inRange_signed, pow_succ]
      omega
    | false =>
      rw [inRange_unsigned, pow_succ]
      omega
  rw [if_neg hzero] at h
  by_cases hwhole : r.isFractional = true
  · rw [if_pos hwhole] at h
    cases h
  have hden : r.m_value.den = 1 := by simpa [isFractional] using hwhole
  rw [if_neg hwhole] at h
  refine ⟨r.m_value.num, (num_eq hden).symm, ?_⟩
  rw [IntegerType.numBits] at h ⊢
  by_cases hvalue : r.m_value > 0
  · rw [if_pos hvalue] at h
    have hnum : 0 < r.m_value.num := Rat.num_pos.mpr hvalue
    have hle := of_decide_eq_true h
    cases hsigned : t.isSigned with
    | true =>
      have hshift : 256 - t.m_bits + (if t.isSigned = true then 1 else 0) = 256 - b := by
        rw [hsigned, if_pos rfl]
        omega
      rw [hshift] at hle
      have hlt := lt_of_le_shiftRight (by omega) hle
      rw [inRange_signed, hb, pow_succ]
      omega
    | false =>
      have hshift : 256 - t.m_bits + (if t.isSigned = true then 1 else 0) = 256 - t.m_bits := by
        rw [hsigned, if_neg (by decide), Nat.add_zero]
      rw [hshift] at hle
      have hlt := lt_of_le_shiftRight hmost hle
      rw [inRange_unsigned]
      omega
  · rw [if_neg hvalue] at h
    obtain ⟨hsigned, hle⟩ := Bool.and_eq_true_iff.mp h
    have hnum : r.m_value.num ≤ 0 := not_lt.mp fun hlt => hvalue (Rat.num_pos.mp hlt)
    have hle' := of_decide_eq_true hle
    rw [hsigned, if_pos rfl, hb, Nat.add_sub_cancel] at hle'
    have hlow := le_of_le_shiftLeft hle'
    rw [hsigned, inRange_signed, hb, pow_succ]
    omega

/-! ## The constants and the types -/

/-- The functions end without following a null pointer; a type that the value is converted to represents it; and the types that are found
hold it. -/
structure Sound (carriesSign : Bool) (r : RationalNumberType) (convertTo : ValueType) : Prop where
  conversion : Outcome (fun k => r.isImplicitlyConvertibleTo carriesSign k convertTo) fun b => b = true → convertTo.Represents r.m_value
  integer : Outcome (fun k => r.integerType carriesSign k) fun x => ∀ t, x = some t → InRange t.isSigned t.numBits (truncate r.m_value)
  fixed : Outcome (fun k => r.fixedPointType carriesSign k) fun x => ∀ t, x = some t → Holds t r.m_value
  mobile : Outcome (fun k => r.mobileType carriesSign k) fun _ => True

/-- The values and types for which all is well. -/
structure WellSized (carriesSign : Bool) (r : RationalNumberType) (convertTo : ValueType) : Prop where
  /-- It is not a value up to -1 whose sign is put behind the point. -/
  half : ¬ (-1 ≤ r.m_value ∧ r.m_value ≤ -(1 / 2 + 1 / 2 ^ 248))
  /-- If a sign is carried along, it is not too small a negative value. -/
  tiny : carriesSign = true → ¬ (-(1 / 2 ^ 256) < r.m_value ∧ r.m_value < 0)
  /-- An integer that is converted to bytes fits into a word. -/
  word : ∀ t, convertTo = .fixedBytes t → r.m_value.den = 1 → -2 ^ 255 ≤ r.m_value ∧ r.m_value < 2 ^ 256

/-- The code fits into a word when the integer is one of a word, signed or unsigned. -/
theorem integerCode_lt_iff (value : Int) : integerCode value < 2 ^ 256 ↔ -2 ^ 255 ≤ value ∧ value < 2 ^ 256 := by
  rw [integerCode]
  split <;> omega

/-- A whole value is one of a word when its code fits. -/
theorem word_iff (hden : r.m_value.den = 1) :
    (-2 ^ 255 ≤ r.m_value ∧ r.m_value < 2 ^ 256) ↔ integerCode r.m_value.num < 2 ^ 256 := by
  rw [integerCode_lt_iff, ← num_eq hden]
  norm_cast

/-- A whole value is its numerator when truncated. -/
theorem truncate_num (hden : r.m_value.den = 1) : truncate r.m_value = r.m_value.num := by
  rw [← num_eq hden, truncate_intCast, Rat.num_intCast]

/-- A fraction has no integer type. -/
theorem integerType_fractional (hden : r.m_value.den ≠ 1) (k : Nat) : r.integerType carriesSign k = .error .InternalCompilerError := by
  have hfractional : r.isFractional = true := by simp [isFractional, hden]
  simp only [integerType, hfractional, if_pos, throw_eq_error]

/-- The type of an integer is found, and holds it, or there is none. -/
theorem integerType_holds (carriesSign : Bool) (hden : r.m_value.den = 1) : ∃ x, Returns (fun k => r.integerType carriesSign k) x ∧
    ∀ t, x = some t → InRange t.isSigned t.numBits r.m_value.num := by
  by_cases hfits : integerCode r.m_value.num < 2 ^ 256
  · obtain ⟨t, ht, hsigned, hbits⟩ := integerType_returns carriesSign hden hfits
    refine ⟨some t, ht, fun t' ht' => ?_⟩
    cases ht'
    have hlt := lt_pow_bytes (integerCode_nonneg r.m_value.num)
    rw [hsigned]
    refine inRange_of_integerCode (by omega) (lt_of_lt_of_le hlt ?_)
    exact pow_le_pow_right₀ (by omega) (by omega)
  · exact ⟨none, ⟨0, fun k _ => integerType_null hden hfits k⟩, by simp⟩

/-- For a well sized value the fixed point type is found and holds it. -/
theorem fixedPointType_holds (h : WellSized carriesSign r convertTo) :
    ∃ x, Returns (fun k => r.fixedPointType carriesSign k) x ∧ ∀ t, x = some t → Holds t r.m_value := by
  by_cases hneg : r.m_value < 0
  · exact fixedPointType_neg hneg h.half fun hcarries htiny => h.tiny hcarries ⟨htiny, hneg⟩
  · exact fixedPointType_nonneg carriesSign (not_lt.mp hneg)

/-- The mobile type is always found. -/
theorem mobileType_outcome (h : WellSized carriesSign r convertTo) : Outcome (fun k => r.mobileType carriesSign k) fun _ => True := by
  by_cases hden : r.m_value.den = 1
  · obtain ⟨x, hx, -⟩ := integerType_holds carriesSign hden
    have hwhole : r.isFractional = false := by simp [isFractional, hden]
    have hmobile := hx.bind (g := fun _ x => .ok (x.map ValueType.integer)) fun _ => rfl
    have hreturns : Returns (fun k => r.mobileType carriesSign k) (x.map ValueType.integer) := by
      simp only [mobileType, hwhole]
      exact hmobile
    exact hreturns.outcome trivial
  · obtain ⟨x, hx, -⟩ := fixedPointType_holds h
    have hfractional : r.isFractional = true := by simp [isFractional, hden]
    have hmobile := hx.bind (g := fun _ x => .ok (x.map ValueType.fixedPoint)) fun _ => rfl
    have hreturns : Returns (fun k => r.mobileType carriesSign k) (x.map ValueType.fixedPoint) := by
      simp only [mobileType, hfractional]
      exact hmobile
    exact hreturns.outcome trivial

/-- What a value is converted to represents it. -/
theorem isImplicitlyConvertibleTo_outcome (h : WellSized carriesSign r convertTo) :
    Outcome (fun k => r.isImplicitlyConvertibleTo carriesSign k convertTo) fun b => b = true → convertTo.Represents r.m_value := by
  cases convertTo with
  | integer t => exact Returns.outcome ⟨0, fun k _ => rfl⟩ fitsInteger_represents
  | other => exact Returns.outcome ⟨0, fun k _ => rfl⟩ fun hfalse => by cases hfalse
  | fixedPoint t =>
    obtain ⟨x, hx, hholds⟩ := fixedPointType_holds h
    cases x with
    | none => exact Returns.outcome (hx.bind fun _ => rfl) fun hfalse => by cases hfalse
    | some fixed =>
      refine Returns.outcome (hx.bind fun _ => rfl) fun htrue => ?_
      obtain ⟨hden, hconvertible⟩ := Bool.and_eq_true_iff.mp htrue
      have hsame := truncate_of_den (of_decide_eq_true hden)
      exact FixedPointType.represents hconvertible ⟨_, hsame.symm, hholds fixed rfl⟩
  | fixedBytes t =>
    by_cases hden : r.m_value.den = 1
    · have hfits := (word_iff hden).mp (h.word t rfl hden)
      obtain ⟨type, htype, hsigned, hbits⟩ := integerType_returns carriesSign hden hfits
      have hwhole : r.isFractional = false := by simp [isFractional, hden]
      have hresult : Returns (fun k => r.isImplicitlyConvertibleTo carriesSign k (.fixedBytes t))
          (decide (t.m_bytes * 8 ≥ type.numBits)) := by
        simp only [isImplicitlyConvertibleTo, hwhole]
        exact htype.bind fun _ => rfl
      refine hresult.outcome fun htrue => ⟨r.m_value.num, (num_eq hden).symm, ?_⟩
      have hle := of_decide_eq_true htrue
      have hlt := lt_pow_bytes (integerCode_nonneg r.m_value.num)
      have hrange : InRange (decide (r.m_value.num < 0)) (8 * t.m_bytes) r.m_value.num := by
        refine inRange_of_integerCode (by omega) (lt_of_lt_of_le hlt ?_)
        exact pow_le_pow_right₀ (by omega) (by omega)
      cases hneg : decide (r.m_value.num < 0) with
      | true =>
        rw [hneg] at hrange
        exact .inr hrange
      | false =>
        rw [hneg] at hrange
        exact .inl hrange
    · have hfractional : r.isFractional = true := by simp [isFractional, hden]
      have hresult : Returns (fun k => r.isImplicitlyConvertibleTo carriesSign k (.fixedBytes t)) false := by
        refine ⟨0, fun k _ => ?_⟩
        simp only [isImplicitlyConvertibleTo, hfractional]
        rfl
      exact hresult.outcome fun hfalse => by cases hfalse

/-- The pointer that is null for an integer beyond a word is followed. -/
theorem isImplicitlyConvertibleTo_null {t : FixedBytesType} (hden : r.m_value.den = 1)
    (hword : ¬ (-2 ^ 255 ≤ r.m_value ∧ r.m_value < 2 ^ 256)) (k : Nat) :
    r.isImplicitlyConvertibleTo carriesSign k (.fixedBytes t) = .error .NullDereference := by
  have hwhole : r.isFractional = false := by simp [isFractional, hden]
  rw [word_iff hden] at hword
  simp only [isImplicitlyConvertibleTo, hwhole, integerType_null hden hword k]
  rfl

/-- For every value and every type, the functions end safely and the types are right if and only if the sizes are so. -/
theorem sound_iff_wellSized (carriesSign : Bool) (r : RationalNumberType) (convertTo : ValueType) :
    r.Sound carriesSign convertTo ↔ r.WellSized carriesSign convertTo := by
  constructor
  · intro h
    refine ⟨?_, ?_, ?_⟩
    · rintro ⟨hlow, hhigh⟩
      obtain ⟨t, ht, hnot⟩ := fixedPointType_not_holds carriesSign hlow hhigh
      exact hnot (h.fixed.of_returns ht t rfl)
    · rintro rfl ⟨htiny, hneg⟩
      exact not_outcome_of_error (n := 0) (.inl rfl) (fun k _ => fixedPointType_running hneg htiny k) h.fixed
    · rintro t rfl hden
      by_contra hword
      exact not_outcome_of_error (n := 0) (.inr rfl) (fun k _ => isImplicitlyConvertibleTo_null hden hword k) h.conversion
  · intro h
    refine ⟨isImplicitlyConvertibleTo_outcome h, ?_, ?_, mobileType_outcome h⟩
    · by_cases hden : r.m_value.den = 1
      · obtain ⟨x, hx, hrange⟩ := integerType_holds carriesSign hden
        rw [truncate_num hden]
        exact hx.outcome hrange
      · exact ⟨.error .InternalCompilerError, ⟨0, fun k _ => integerType_fractional hden k⟩, by simp, by simp, by simp⟩
    · obtain ⟨x, hx, hholds⟩ := fixedPointType_holds h
      exact hx.outcome hholds

/-- The null pointer is followed for 2 ^ 256 and bytes32, and the type of -1 does not hold it. -/
theorem not_sound : ¬ Sound false ⟨2 ^ 256⟩ (.fixedBytes ⟨32, by decide⟩) ∧ ∀ convertTo, ¬ Sound false ⟨-1⟩ convertTo := by
  constructor
  · intro h
    have hden : ((2 : ℚ) ^ 256).den = 1 := by decide +kernel
    have hword : ¬ (-2 ^ 255 ≤ (2 : ℚ) ^ 256 ∧ (2 : ℚ) ^ 256 < 2 ^ 256) := fun hlt => lt_irrefl _ hlt.2
    exact not_outcome_of_error (n := 0) (.inr rfl) (fun k _ => isImplicitlyConvertibleTo_null hden hword k) h.conversion
  · intro convertTo h
    obtain ⟨t, ht, hnot⟩ := fixedPointType_neg_one (r := ⟨-1⟩) false rfl
    exact hnot (h.fixed.of_returns ht t rfl)

end RationalNumberType

end Libsolidity

end Webthree
