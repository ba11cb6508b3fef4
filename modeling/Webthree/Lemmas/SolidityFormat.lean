import Mathlib.Data.List.TakeWhile
import Mathlib.Data.Rat.Cast.Order
import Mathlib.Tactic.NormNum
import Mathlib.Tactic.FieldSimp
import Webthree.Lemmas.TypeName

/-!
# Single values

What the formatters write for a value of a type, in whole words, and that they read it back.
-/

namespace Webthree.Web3

namespace Solidity

/-- A number in a word of 64 digits. -/
def word (n : Nat) : List Char := (numeral 16 n).leftpad 64 '0'

theorem length_word {n : Nat} (hn : n < 2 ^ 256) : (word n).length = 64 := by
  have h := (length_numeral_le_iff (b := 16) (n := n) (by decide) (k := 64) (by decide)).mpr (lt_of_lt_of_le hn (by decide))
  rw [word, List.leftpad, List.length_append, List.length_replicate]
  omega

theorem ofNumeral_word (n : Nat) : ofNumeral 16 (word n) = some n := ofNumeral_leftpad (by decide) (by decide) 64 n

theorem all_word (n : Nat) : (word n).all (isDigitIn 16) = true := by
  have h := ofNumeral_word n
  rw [ofNumeral] at h
  split at h
  · rename_i hall
    exact hall.2
  · cases h

theorem parseHex_of_all {s : List Char} (hs : s.all (isDigitIn 16) = true) : parseHex s = ofNumeral 16 s := by
  rw [parseHex, List.takeWhile_eq_self_iff.mpr (List.all_eq_true.mp hs)]

theorem parseHex_word (n : Nat) : parseHex (word n) = some n := by
  rw [parseHex_of_all (all_word n), ofNumeral_word]

theorem padLeft_numeral_word {n : Nat} (hn : n < 2 ^ 256) : padLeft (numeral 16 n) 64 = some (word n) := by
  have h := (length_numeral_le_iff (b := 16) (n := n) (by decide) (k := 64) (by decide)).mpr (lt_of_lt_of_le hn (by decide))
  rw [padLeft, if_pos (by omega), word]

theorem formatInputNumber_natCast {n : Nat} (hn : n < 2 ^ 256) : formatInputNumber n = some (word n) := by
  have hpos : ¬ ((n : ℚ) < 0) := not_lt.mpr (Nat.cast_nonneg n)
  have hround : ((n : ℚ).num.tdiv (n : ℚ).den) = (n : Int) := by
    rw [Rat.num_natCast, Rat.den_natCast]
    exact Int.tdiv_one _
  rw [formatInputNumber, toTwosComplement, if_neg hpos, hround, toString16, if_neg (by omega), Int.toNat_natCast]
  exact padLeft_numeral_word hn

theorem formatInputNumber_intCast {z : Int} (hz : z < 0) (hz' : -2 ^ 255 ≤ z) :
    formatInputNumber z = some (word (2 ^ 256 + z).toNat) := by
  have hneg : (z : ℚ) < 0 := Int.cast_lt_zero.mpr hz
  have hcast : (2 ^ 256 - 1 + (z : ℚ) + 1) = ((2 ^ 256 + z).toNat : ℕ) := by
    have h : (((2 ^ 256 + z).toNat : ℕ) : ℤ) = 2 ^ 256 + z := Int.toNat_of_nonneg (by omega)
    have h' := congrArg (fun x : ℤ => (x : ℚ)) h
    simp only [Int.cast_natCast, Int.cast_add, Int.cast_pow, Int.cast_ofNat] at h'
    rw [h']
    ring
  have h := formatInputNumber_natCast (n := (2 ^ 256 + z).toNat) (by omega)
  rw [formatInputNumber, toTwosComplement, if_neg (not_lt.mpr (Nat.cast_nonneg _))] at h
  rw [formatInputNumber, toTwosComplement, if_pos hneg, hcast]
  exact h

/-! ## Signs -/

/-- The first digit of a word. -/
theorem ofNumeral_take_word {n : Nat} (hn : n < 2 ^ 256) : ofNumeral 16 ((word n).take 1) = some (n / 16 ^ 63) := by
  have hall := all_word n
  have hlen := length_word hn
  have hvalue : numberOf 16 (word n) = n := by
    have h := ofNumeral_word n
    rw [ofNumeral] at h
    split at h
    · exact Option.some.inj h
    · cases h
  cases hw : word n with
  | nil => rw [hw] at hlen; cases hlen
  | cons c rest =>
    rw [hw, List.all_cons, Bool.and_eq_true] at hall
    have hrest : rest.length = 63 := by
      rw [hw, List.length_cons] at hlen
      omega
    have hsplit : numberOf 16 [c] * 16 ^ 63 + numberOf 16 rest = n := by
      have h := numberOf_append (b := 16) [c] rest
      rw [hrest, List.singleton_append, ← hw, hvalue] at h
      exact h.symm
    have hlt : numberOf 16 rest < 16 ^ 63 := hrest ▸ numberOf_lt hall.2
    have hone : [c] ≠ [] ∧ [c].all (isDigitIn 16) = true := ⟨List.cons_ne_nil _ _, by simp [hall.1]⟩
    have hquot : n / 16 ^ 63 = numberOf 16 [c] := by
      rw [← hsplit, Nat.add_comm, Nat.add_mul_div_right _ _ (by decide), Nat.div_eq_of_lt hlt, Nat.zero_add]
    rw [List.take_succ_cons, List.take_zero, ofNumeral, if_pos hone, hquot]

theorem signedIsNegative_word {n : Nat} (hn : n < 2 ^ 256) : signedIsNegative (word n) = some (decide (2 ^ 252 ≤ n)) := by
  have hdigit : ∀ d < 16, ((numeral 2 d).head? = some '1') = (d ≠ 0) := by decide
  have hlt : n / 16 ^ 63 < 16 := Nat.div_lt_of_lt_mul (lt_of_lt_of_le hn (by decide))
  have hpow : (16 : Nat) ^ 63 = 2 ^ 252 := by decide
  rw [signedIsNegative, ofNumeral_take_word hn, Option.map_some]
  congr 1
  rw [decide_eq_decide, hdigit _ hlt]
  rw [hpow]
  have hpos : 0 < (2 : Nat) ^ 252 := by decide
  rw [Ne, Nat.div_eq_zero_iff]
  omega

theorem orZero_word {n : Nat} (hn : n < 2 ^ 256) : orZero (word n) = word n := by
  rw [orZero, if_neg]
  intro h
  have := length_word hn
  rw [h] at this
  cases this

theorem outputInt_word {n : Nat} (hn : n < 2 ^ 256) :
    outputInt (word n) = (some (if 2 ^ 252 ≤ n then (n : Int) - 2 ^ 256 else (n : Int)) : Option Int) := by
  have hsub : (n : Int) - (2 ^ 256 - 1) - 1 = (n : Int) - 2 ^ 256 := by omega
  rw [outputInt, orZero_word hn, ofNumeral_word, signedIsNegative_word hn]
  by_cases h : 2 ^ 252 ≤ n
  · rw [if_pos h, decide_eq_true h, ← hsub]
    rfl
  · rw [if_neg h, decide_eq_false h]
    rfl

/-! ## Values of types -/

/-- Digits as the code writes them. -/
def HexDigits (digits : List Char) : Prop := ∀ c ∈ digits, ∃ d < 16, c = digitChar d

/-- A string with the prefix of digits. -/
def hex (digits : List Char) : Value := .str ('0' :: 'x' :: digits)

namespace Base

variable (p : Packages)

/-- The sizes that there are. -/
def Valid : Base → Prop
  | fixedBytes size => 1 ≤ size ∧ size ≤ 32
  | _ => True

/-- The values of a type. A string of the language has fewer than 2^53 characters. -/
def Has : Base → Value → Prop
  | address, v => ∃ digits, v = hex digits ∧ HexDigits digits ∧ digits.length = 40
  | bool, v => ∃ b, v = .bool b
  | int _, v => ∃ z : Int, v = .num z ∧ -2 ^ 255 ≤ z ∧ z < 2 ^ 255
  | uint _, v => ∃ n : Nat, v = .num n ∧ n < 2 ^ 256
  | bytes, v => ∃ digits, v = hex digits ∧ HexDigits digits ∧ 2 ∣ digits.length ∧ digits.length < 2 ^ 53
  | fixedBytes size, v => ∃ digits, v = hex digits ∧ HexDigits digits ∧ digits.length = 2 * size
  | string, v => ∃ s, v = .str s ∧ '\x00' ∉ s ∧ s.length < 2 ^ 53
  | real _ _, v => ∃ z : Int, v = .num (z / 2 ^ 128) ∧ -2 ^ 255 ≤ z ∧ z < 2 ^ 255
  | ureal _ _, v => ∃ n : Nat, v = .num (n / 2 ^ 128) ∧ n < 2 ^ 256

/-- The values that their formatters read back: `signedIsNegative` takes a number from 2^252 on for a negative one, and the quotient of
a real must be exact. -/
def Exact : Base → Value → Prop
  | int _, v => ∀ z : Int, v = .num z → z < 2 ^ 252
  | real _ _, v => ∀ z : Int, v = .num (z / 2 ^ 128) → z < 2 ^ 252 ∧ p.dividedBy z = z / 2 ^ 128
  | ureal _ _, v => ∀ z : Int, v = .num (z / 2 ^ 128) → z < 2 ^ 252 ∧ p.dividedBy z = z / 2 ^ 128
  | _, _ => True

/-- The number of words that a value takes. -/
def words : Base → Value → Nat
  | bytes, .str s => 1 + ((s.length - 2) / 2 + 31) / 32
  | string, .str s => 1 + ((p.encode s).length + 31) / 32
  | _, _ => 1

end Base

/-- What the packages promise: the codec is UTF-8. -/
structure Packages.Exact (p : Packages) : Prop where
  decode_encode : ∀ s, p.decode (p.encode s) = some s
  zero_not_mem : ∀ s, '\x00' ∉ s → 0 ∉ p.encode s
  length_encode : ∀ s, (p.encode s).length ≤ 4 * s.length

theorem HexDigits.all {digits : List Char} (h : HexDigits digits) : digits.all (isDigitIn 16) = true := by
  refine List.all_eq_true.mpr fun c hc => ?_
  obtain ⟨d, hd, rfl⟩ := h c hc
  rw [isDigitIn, digitValue_digitChar d (by omega), Option.any_some, decide_eq_true hd]

/-- Digits with zeros in front are the word of their number. -/
theorem word_value {digits : List Char} (h : HexDigits digits) (hlen : digits.length ≤ 64) :
    word (numberOf 16 digits) = List.replicate (64 - digits.length) '0' ++ digits := by
  have hlt : numberOf 16 digits < 2 ^ 256 :=
    calc numberOf 16 digits < 16 ^ digits.length := numberOf_lt h.all
      _ ≤ 16 ^ 64 := Nat.pow_le_pow_right (by decide) hlen
      _ = 2 ^ 256 := by decide
  have hword : ∀ c ∈ word (numberOf 16 digits), ∃ d < 16, c = digitChar d := fun c hc => by
    rcases List.mem_append.mp hc with hc | hc
    · exact ⟨0, by decide, List.eq_of_mem_replicate hc⟩
    · exact digit_of_mem_numeral (by decide) hc
  have hpadded : ∀ c ∈ List.replicate (64 - digits.length) '0' ++ digits, ∃ d < 16, c = digitChar d := fun c hc => by
    rcases List.mem_append.mp hc with hc | hc
    · exact ⟨0, by decide, List.eq_of_mem_replicate hc⟩
    · exact h c hc
  refine numberOf_injective (by decide) hword hpadded ?_ ?_
  · rw [length_word hlt, List.length_append, List.length_replicate]
    omega
  · rw [numberOf_zeros, word, List.leftpad, numberOf_zeros, numberOf_numeral (by decide) (by decide)]

/-! ## Values in one word -/

/-- What `encode` writes for a value in one word, and what `decode` reads. -/
structure Cell (p : Packages) (b : Base) (v : Value) (s : List Char) : Prop where
  input : b.solidityType.inputFormatter p v = some s
  length : s.length = 64
  output : b.solidityType.outputFormatter p (s.take (b.unit * 2)) = some v

theorem cell_of_word {p : Packages} {b : Base} {v : Value} {n : Nat} (hn : n < 2 ^ 256) (hb : b.unit = 32)
    (hi : b.solidityType.inputFormatter p v = some (word n)) (ho : b.solidityType.outputFormatter p (word n) = some v) :
    Cell p b v (word n) := by
  have hlen := length_word hn
  refine ⟨hi, hlen, ?_⟩
  rw [hb, List.take_of_length_le (by omega)]
  exact ho

/-- A whole number that the formatter of numbers with a sign reads back. -/
theorem signed_word {z : Int} (hz : -2 ^ 255 ≤ z) (hz' : z < 2 ^ 252) :
    ∃ n < 2 ^ 256, formatInputNumber z = some (word n) ∧ outputInt (word n) = some z := by
  rcases Int.lt_or_le z 0 with hneg | hpos
  · refine ⟨(2 ^ 256 + z).toNat, by omega, formatInputNumber_intCast hneg hz, ?_⟩
    rw [outputInt_word (by omega), if_pos (by omega)]
    congr 1
    omega
  · obtain ⟨n, rfl⟩ := Int.eq_ofNat_of_zero_le hpos
    have hn : n < 2 ^ 256 := by omega
    refine ⟨n, hn, ?_, ?_⟩
    · have h := formatInputNumber_natCast hn
      rwa [← Int.cast_natCast] at h
    · rw [outputInt_word hn, if_neg (by omega)]

theorem real_word {p : Packages} {z : Int} (hz : -2 ^ 255 ≤ z) (he : z < 2 ^ 252 ∧ p.dividedBy z = z / 2 ^ 128) :
    ∃ n < 2 ^ 256, formatInputReal (.num (z / 2 ^ 128)) = some (word n) ∧ formatOutputReal p (word n) = some (.num (z / 2 ^ 128)) := by
  obtain ⟨n, hn, hi, ho⟩ := signed_word hz he.1
  have hmul : (z : ℚ) / 2 ^ 128 * 2 ^ 128 = z := div_mul_cancel₀ _ (by norm_num)
  refine ⟨n, hn, ?_, ?_⟩
  · rw [formatInputReal, toBigNumber, Option.bind_some, hmul, hi]
  · rw [formatOutputReal, ho, Option.map_some, he.2]

theorem formatInputBytes_hex {digits : List Char} {size : Nat} (h1 : 1 ≤ size) (h32 : size ≤ 32) (hlen : digits.length = 2 * size) :
    formatInputBytes (hex digits) = some (digits ++ List.replicate (64 - digits.length) '0') := by
  have hcount : wordCount digits = 1 := by
    rw [wordCount, hlen]
    omega
  have hpad : padRight digits (wordCount digits * 64) = some (digits.rightpad 64 '0') := by
    rw [hcount]
    exact if_pos (by omega)
  exact hpad

theorem exists_cell {p : Packages} {b : Base} {v : Value} (hb : b.Valid) (hd : b.solidityType.isDynamicType = false) (hv : b.Has v)
    (he : b.Exact p v) : ∃ s, Cell p b v s := by
  cases b with
  | address =>
    obtain ⟨digits, rfl, hdigits, hlen⟩ := hv
    have hlt : numberOf 16 digits < 2 ^ 256 :=
      calc numberOf 16 digits < 16 ^ digits.length := numberOf_lt hdigits.all
        _ ≤ 2 ^ 256 := by rw [hlen]; decide
    have hne : digits ≠ [] := by
      rintro rfl
      cases hlen
    refine ⟨_, cell_of_word hlt rfl ?_ ?_⟩
    · rw [Base.solidityType, SolidityType.inputFormatter, formatInputInt, hex, toBigNumber, ofNumeral, if_pos ⟨hne, hdigits.all⟩]
      exact formatInputNumber_natCast hlt
    · rw [Base.solidityType, SolidityType.outputFormatter, formatOutputAddress, length_word hlt, word_value hdigits (by omega), hlen]
      rfl
  | bool =>
    obtain ⟨b, rfl⟩ := hv
    cases b with
    | false => exact ⟨_, rfl, rfl, rfl⟩
    | true => exact ⟨_, rfl, rfl, rfl⟩
  | int bits =>
    obtain ⟨z, rfl, hz, -⟩ := hv
    obtain ⟨n, hn, hi, ho⟩ := signed_word hz (he z rfl)
    refine ⟨_, cell_of_word hn rfl hi ?_⟩
    rw [Base.solidityType, SolidityType.outputFormatter, formatOutputInt, ho, Option.map_some]
  | uint bits =>
    obtain ⟨n, rfl, hn⟩ := hv
    refine ⟨_, cell_of_word hn rfl (formatInputNumber_natCast hn) ?_⟩
    rw [Base.solidityType, SolidityType.outputFormatter, formatOutputUInt, orZero_word hn, ofNumeral_word, Option.map_some]
  | bytes => cases hd
  | fixedBytes size =>
    obtain ⟨digits, rfl, -, hlen⟩ := hv
    refine ⟨digits ++ List.replicate (64 - digits.length) '0', formatInputBytes_hex hb.1 hb.2 hlen, ?_, ?_⟩
    · have := hb.2
      rw [List.length_append, List.length_replicate]
      omega
    · rw [Base.solidityType, SolidityType.outputFormatter, formatOutputBytes, Base.unit, List.take_left' (by omega)]
      rfl
  | string => cases hd
  | real whole part =>
    obtain ⟨z, rfl, hz, -⟩ := hv
    obtain ⟨n, hn, hi, ho⟩ := real_word hz (he z rfl)
    exact ⟨_, cell_of_word hn rfl hi ho⟩
  | ureal whole part =>
    obtain ⟨n, rfl, -⟩ := hv
    have he := he n (by rw [Int.cast_natCast])
    obtain ⟨m, hm, hi, ho⟩ := real_word (p := p) (z := n) (by omega) he
    rw [Int.cast_natCast] at hi ho
    exact ⟨_, cell_of_word hm rfl hi ho⟩

/-! ## Values with a length -/

/-- What `encode` writes for a value with a length, and what `decode` reads: the length says how many words there are. -/
structure Row (p : Packages) (b : Base) (v : Value) (s : List Char) : Prop where
  input : b.solidityType.inputFormatter p v = some s
  length : s.length = 64 * b.words p v
  count : ∃ n, parseHex (s.take 64) = some n ∧ s.length = (1 + (n + 31) / 32) * 64
  output : b.solidityType.outputFormatter p s = some v

/-- Digits with their length in front, in whole words. -/
theorem withLength_eq {digits : List Char} {n : Nat} (hlen : digits.length = 2 * n) (hn : n < 2 ^ 256) :
    ∃ s, withLength digits = some s ∧ s.length = (1 + (n + 31) / 32) * 64 ∧ s.take 64 = word n ∧ dynamicDigits s = some digits := by
  have hcast : ((digits.length : ℚ) / 2) = (n : ℚ) := by
    rw [hlen, Nat.cast_mul, Nat.cast_ofNat]
    exact mul_div_cancel_left₀ _ (by norm_num)
  have hcount : wordCount digits * 64 = (n + 31) / 32 * 64 := by
    rw [wordCount, hlen]
    omega
  have hpad : padRight digits (wordCount digits * 64) = some (digits ++ List.replicate ((n + 31) / 32 * 64 - digits.length) '0') := by
    rw [hcount]
    exact if_pos (by omega)
  have htake := length_word hn
  refine ⟨word n ++ (digits ++ List.replicate ((n + 31) / 32 * 64 - digits.length) '0'), ?_, ?_, List.take_left' htake, ?_⟩
  · rw [withLength, hcast, formatInputNumber_natCast hn, hpad]
    rfl
  · rw [List.length_append, htake, List.length_append, List.length_replicate]
    omega
  · rw [dynamicDigits, List.take_left' htake, ofNumeral_word, Option.map_some, List.drop_left' htake, List.take_left' (by omega)]

theorem hexByte_eq (c : UInt8) : ∃ x y, hexByte c = [x, y] ∧ parseHex [x, y] = some c.toNat ∧ isDigitIn 16 y = true := by
  have hle := (length_numeral_le_iff (b := 16) (n := c.toNat) (by decide) (k := 2) (by decide)).mpr c.toNat_lt
  have hlen : (hexByte c).length = 2 := by
    rw [hexByte, List.leftpad, List.length_append, List.length_replicate]
    omega
  have hread : ofNumeral 16 (hexByte c) = some c.toNat := ofNumeral_leftpad (by decide) (by decide) 2 _
  have hall : (hexByte c).all (isDigitIn 16) = true := by
    rw [ofNumeral] at hread
    split at hread
    · rename_i h
      exact h.2
    · cases hread
  obtain ⟨x, y, hxy⟩ := List.length_eq_two.mp hlen
  rw [hxy] at hread hall
  refine ⟨x, y, hxy, by rw [parseHex_of_all hall, hread], ?_⟩
  rw [List.all_cons, List.all_cons, Bool.and_eq_true, Bool.and_eq_true] at hall
  exact hall.2.1

/-- The digits of bytes without a NUL are read back. -/
theorem codes_hexBytes {bytes : List UInt8} (h : 0 ∉ bytes) : codes (bytes.flatMap hexByte) = bytes := by
  induction bytes with
  | nil => rfl
  | cons c bytes ih =>
    rw [List.mem_cons, not_or] at h
    obtain ⟨x, y, hxy, hread, -⟩ := hexByte_eq c
    have hc : c.toNat ≠ 0 := fun h0 => h.1 (UInt8.toNat_inj.mp (by rw [h0]; rfl))
    rw [List.flatMap_cons, hxy, List.cons_append, List.cons_append, List.nil_append, codes, hread]
    split
    · rename_i h0
      exact absurd (Option.some.inj h0) hc
    · rw [Option.getD_some, UInt8.ofNat_toNat, ih h.2]

theorem length_hexBytes (bytes : List UInt8) : (bytes.flatMap hexByte).length = 2 * bytes.length := by
  induction bytes with
  | nil => rfl
  | cons c bytes ih =>
    obtain ⟨x, y, hxy, -⟩ := hexByte_eq c
    rw [List.flatMap_cons, List.length_append, hxy, ih, List.length_cons, List.length_cons, List.length_cons, List.length_nil]
    omega

theorem exists_row {p : Packages} (hp : p.Exact) {b : Base} {v : Value} (hd : b.solidityType.isDynamicType = true) (hv : b.Has v) :
    ∃ s, Row p b v s := by
  cases b with
  | bytes =>
    obtain ⟨digits, rfl, -, ⟨n, hn⟩, hlen⟩ := hv
    obtain ⟨s, hinput, hlength, htake, houtput⟩ := withLength_eq hn (by omega)
    refine ⟨s, hinput, ?_, ⟨n, by rw [htake, parseHex_word], hlength⟩, ?_⟩
    · have hwords : Base.bytes.words p (hex digits) = 1 + (n + 31) / 32 := by
        rw [hex, Base.words, List.length_cons, List.length_cons, hn]
        omega
      rw [hlength, hwords]
      omega
    · rw [Base.solidityType, SolidityType.outputFormatter, formatOutputDynamicBytes, houtput, Option.map_some]
      rfl
  | string =>
    obtain ⟨s, rfl, hnul, hlen⟩ := hv
    have hzero := hp.zero_not_mem s hnul
    have hle := hp.length_encode s
    have hall : (p.encode s).takeWhile (· ≠ 0) = p.encode s :=
      List.takeWhile_eq_self_iff.mpr fun c hc => decide_eq_true fun h0 => hzero (h0 ▸ hc)
    have hdigits : fromUtf8 p (.str s) = some ((p.encode s).flatMap hexByte) := by
      rw [fromUtf8, hall]
    obtain ⟨row, hinput, hlength, htake, houtput⟩ := withLength_eq (length_hexBytes (p.encode s)) (by omega)
    refine ⟨row, ?_, ?_, ⟨_, by rw [htake, parseHex_word], hlength⟩, ?_⟩
    · rw [Base.solidityType, SolidityType.inputFormatter, formatInputString, hdigits, Option.bind_some, hinput]
    · rw [hlength, Base.words]
      omega
    · have hread : toUtf8 p ((p.encode s).flatMap hexByte) = some s := by
        have hprefix : ((p.encode s).flatMap hexByte).take 2 ≠ ['0', 'x'] := by
          cases p.encode s with
          | nil => exact fun h => by cases h
          | cons c bytes =>
            obtain ⟨x, y, hxy, -, hy⟩ := hexByte_eq c
            rw [List.flatMap_cons, hxy]
            rintro h
            cases h
            exact absurd hy (by decide)
        rw [toUtf8, if_neg hprefix, codes_hexBytes hzero, hp.decode_encode]
      rw [Base.solidityType, SolidityType.outputFormatter, formatOutputString, houtput]
      exact congrArg (fun o => o.bind fun s => some (Value.str s)) hread
  | _ => cases hd

end Solidity

end Webthree.Web3
