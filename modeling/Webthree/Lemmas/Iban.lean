import Mathlib.Data.List.TakeWhile
import Webthree.Core.ICAP
import Webthree.Web3.Iban

/-!
# Check digits, and numerals in base 36

Both sides compute the same number from a country and the data: one as it goes along the characters, the other by a string of
decimal digits, which it reduces by blocks. With the check digits in place the number is one more than a multiple of 97.
-/

namespace Webthree

open Web3 Iban

/-! ## Characters -/

theorem isUpper_iff (c : Char) : c.isUpper = true ↔ 65 ≤ c.toNat ∧ c.toNat ≤ 90 := decide_eq_true_iff

theorem isUpperOrDigit_iff (c : Char) : isUpperOrDigit c = true ↔ (48 ≤ c.toNat ∧ c.toNat ≤ 57) ∨ (65 ≤ c.toNat ∧ c.toNat ≤ 90) := by
  rw [isUpperOrDigit, Bool.or_eq_true, isDigit_iff, isUpper_iff]

theorem toUpper_of_upperOrDigit {c : Char} (hc : isUpperOrDigit c = true) : c.toUpper = c := by
  refine dif_neg fun hl => ?_
  have h1 := (isUpperOrDigit_iff c).mp hc
  have h2 : 97 ≤ c.toNat ∧ c.toNat ≤ 122 := hl
  omega

theorem toUpper_of_all {s : List Char} (hs : s.all isUpperOrDigit = true) : toUpper s = s := by
  rw [toUpper, List.map_congr_left fun c hc => toUpper_of_upperOrDigit (List.all_eq_true.mp hs c hc), List.map_id']

/-! ## Base 36 -/

theorem toUpper_digitChar : ∀ d < 36, (digitChar d).toUpper = c_alphabet.getD d '0' ∧ isUpperOrDigit (digitChar d).toUpper = true := by
  decide

theorem toBase36_eq (a : Nat) : toBase36 a = (digitsOf 36 a).map Char.toUpper := by
  induction a using Nat.strongRecOn with
  | ind a ih =>
    rw [toBase36]
    split
    · rename_i ha
      rw [ha, digitsOf_zero]
      rfl
    · rename_i ha
      have hmod : a - a / 36 * 36 = a % 36 := by omega
      rw [ih (a / 36) (by omega), hmod, digitsOf_pos (n := a) (by decide) (by omega), List.map_append, List.map_singleton,
        (toUpper_digitChar _ (Nat.mod_lt _ (by decide))).1]

theorem all_toBase36 (a : Nat) : (toBase36 a).all isUpperOrDigit = true := by
  rw [toBase36_eq, List.all_map, List.all_eq_true]
  intro c hc
  obtain ⟨d, hd, rfl⟩ := digit_of_mem (by decide) hc
  exact (toUpper_digitChar d hd).2

theorem numberOf_toBase36 (a : Nat) : numberOf 36 (toBase36 a) = a := by
  rw [toBase36_eq]
  exact numberOf_map_digitsOf (by decide) digitValue_toUpper_digitChar a

/-- In upper case, and padded, the numeral of `web3.js` is that of the other side. -/
theorem padLeft_numeral (a : Nat) : (padLeft (numeral 36 a) 15).map Char.toUpper = (toBase36 a).leftpad 30 '0' := by
  have hzero : ∀ k, (List.replicate k '0').map Char.toUpper = List.replicate k '0' := fun k => by
    rw [List.map_replicate]
    rfl
  rw [toBase36_eq, padLeft, List.leftpad, List.leftpad, List.map_append, hzero, numeral, List.length_map]
  split
  · rename_i ha
    rw [ha, digitsOf_zero]
    rfl
  · rfl

theorem digitValue_of_upper {c : Char} (hc : 65 ≤ c.toNat ∧ c.toNat ≤ 90) : digitValue c = some (c.toNat - 55) := by
  have h0 : ¬ ('0' ≤ c ∧ c ≤ '9') := fun h => by
    have h : 48 ≤ c.toNat ∧ c.toNat ≤ 57 := h
    omega
  have ha : ¬ ('a' ≤ c ∧ c ≤ 'z') := fun h => by
    have h : 97 ≤ c.toNat ∧ c.toNat ≤ 122 := h
    omega
  have hletter : 'A' ≤ c ∧ c ≤ 'Z' := hc
  rw [digitValue, if_neg h0, if_neg ha, if_pos hletter]

theorem isDigitIn_of_upperOrDigit {c : Char} (hc : isUpperOrDigit c = true) : isDigitIn 36 c = true := by
  rcases (isUpperOrDigit_iff c).mp hc with hc | hc
  · rw [isDigitIn, digitValue_of_isDigit ((isDigit_iff c).mpr hc), Option.any_some, decide_eq_true (by omega)]
  · rw [isDigitIn, digitValue_of_upper hc, Option.any_some, decide_eq_true (by omega)]

/-- The arithmetic of an address gives the value of a numeral, as far as it goes. -/
theorem fromBase36_eq {s : List Char} (hs : s.all isUpperOrDigit = true) : fromBase36 s = BitVec.ofNat 160 (numberOf 36 s) := by
  have hfrom : ∀ n, s.foldl (fun (ret : Address) c => ret * 36 + BitVec.ofInt 160 (if c < 'A' then (c.toNat : Int) - 48
      else (c.toNat : Int) - 65 + 10)) (BitVec.ofNat 160 n) = BitVec.ofNat 160 (numberFrom 36 n s) := by
    induction s with
    | nil => exact fun n => rfl
    | cons c s ih =>
      intro n
      rw [List.all_cons, Bool.and_eq_true] at hs
      have hd : (if c < 'A' then (c.toNat : Int) - 48 else (c.toNat : Int) - 65 + 10) = ((digitValue c).getD 0 : Nat) := by
        rcases (isUpperOrDigit_iff c).mp hs.1 with hc | hc
        · have hlt : c < 'A' := show c.toNat < 65 by omega
          rw [if_pos hlt, digitValue_of_isDigit ((isDigit_iff c).mpr hc), Option.getD_some]
          omega
        · have hlt : ¬ c < 'A' := show ¬ c.toNat < 65 by omega
          rw [if_neg hlt, digitValue_of_upper hc, Option.getD_some]
          omega
      have hstep : BitVec.ofNat 160 n * 36 + BitVec.ofInt 160 ((digitValue c).getD 0 : Nat) =
          BitVec.ofNat 160 (n * 36 + (digitValue c).getD 0) := by
        rw [BitVec.ofInt_natCast, show (36 : Address) = BitVec.ofNat 160 36 from rfl, ← BitVec.ofNat_mul, ← BitVec.ofNat_add]
      rw [List.foldl_cons, hd, hstep, ih hs.2]
      rfl
  exact hfrom 0

/-! ## Decimal digits -/

/-- A character, as decimal digits. -/
def decimal (n : Char) : List Char := if 'A' ≤ n ∧ n ≤ 'Z' then numeral 10 (n.toNat - 65 + 10) else [n]

theorem all_decimal {s : List Char} (hs : s.all isUpperOrDigit = true) : (s.flatMap decimal).all (isDigitIn 10) = true := by
  rw [List.all_flatMap, List.all_eq_true]
  intro c hc
  rw [decimal]
  split
  · exact all_numeral (by decide) (by decide) _
  · rename_i hletter
    have hc := (isUpperOrDigit_iff c).mp (List.all_eq_true.mp hs c hc)
    have hdigit : c.isDigit = true := (isDigit_iff c).mpr (hc.resolve_right hletter)
    rw [List.all_cons, List.all_nil, Bool.and_true, isDigitIn_ten, hdigit]

/-- Digits are their own decimal digits. -/
theorem flatMap_decimal_of_digits {s : List Char} (hs : s.all Char.isDigit = true) : s.flatMap decimal = s := by
  induction s with
  | nil => rfl
  | cons c s ih =>
    rw [List.all_cons, Bool.and_eq_true] at hs
    have hletter : ¬ ('A' ≤ c ∧ c ≤ 'Z') := fun h => by
      have h : 65 ≤ c.toNat ∧ c.toNat ≤ 90 := h
      have := (isDigit_iff c).mp hs.1
      omega
    rw [List.flatMap_cons, ih hs.2, decimal, if_neg hletter]
    rfl

theorem length_numeral_two {k : Nat} (h : 10 ≤ k) (h' : k < 100) : (numeral 10 k).length = 2 := by
  have h1 := (length_numeral_le_iff (b := 10) (n := k) (by decide) (k := 1) (by decide)).not.mpr (by omega)
  have h2 := (length_numeral_le_iff (b := 10) (n := k) (by decide) (k := 2) (by decide)).mpr (by omega)
  omega

/-- The first four characters go behind the others, and all become digits. -/
theorem iso13616Prepare_eq {p d : List Char} (hp : p.length = 4) (hall : (p ++ d).all isUpperOrDigit = true) :
    iso13616Prepare (p ++ d) = (d ++ p).flatMap decimal := by
  have hupper : (p ++ d).map Char.toUpper = p ++ d := toUpper_of_all hall
  rw [iso13616Prepare, hupper]
  rw [List.drop_left' hp, List.take_left' hp]
  rfl

/-- The loop of `iban` computes what the decimal digits are worth. -/
theorem tot_eq {s : List Char} (hs : s.all isUpperOrDigit = true) (n : Nat) :
    s.foldl (fun (tot : Int) x => if 'A' ≤ x then tot * 100 + x.toNat - 65 + 10 else tot * 10 + x.toNat - 48) n =
      (numberFrom 10 n (s.flatMap decimal) : Nat) := by
  induction s generalizing n with
  | nil => rfl
  | cons c s ih =>
    rw [List.all_cons, Bool.and_eq_true] at hs
    have hstep : (if 'A' ≤ c then (n : Int) * 100 + c.toNat - 65 + 10 else (n : Int) * 10 + c.toNat - 48) = (numberFrom 10 n (decimal c) : Nat) := by
      rcases (isUpperOrDigit_iff c).mp hs.1 with hc | hc
      · have hletter : ¬ 'A' ≤ c := show ¬ 65 ≤ c.toNat by omega
        rw [if_neg hletter, decimal, if_neg fun h => hletter h.1, numberFrom, List.foldl_cons, List.foldl_nil,
          digitValue_of_isDigit ((isDigit_iff c).mpr hc), Option.getD_some]
        omega
      · have hletter : 'A' ≤ c ∧ c ≤ 'Z' := hc
        rw [if_pos hletter.1, decimal, if_pos hletter, numberFrom_eq, numberOf_numeral (by decide) (by decide), length_numeral_two (by omega) (by omega)]
        omega
    rw [List.foldl_cons, hstep, ih hs.2, List.flatMap_cons, numberFrom_append]

/-! ## Remainders -/

theorem parseInt_eq {s : List Char} (hne : s ≠ []) (hs : s.all (isDigitIn 10) = true) : parseInt s = some (numberOf 10 s) := by
  have hdigits : s.all Char.isDigit = true := by
    rw [← hs]
    exact congrArg s.all (funext fun c => (isDigitIn_ten c).symm)
  rw [parseInt, List.takeWhile_eq_self_iff.mpr (List.all_eq_true.mp hdigits), ofNumeral, if_pos ⟨hne, hs⟩]

/-- The remainder of a block of digits goes in front of the rest. -/
theorem mod9710_eq {s : List Char} (hne : s ≠ []) (hs : s.all (isDigitIn 10) = true) : mod9710 s = some (numberOf 10 s % 97) := by
  induction hk : s.length using Nat.strongRecOn generalizing s with
  | ind k ih =>
    rw [mod9710]
    split
    · rename_i hlen
      have hsplit : (s.take 9).all (isDigitIn 10) = true ∧ (s.drop 9).all (isDigitIn 10) = true := by
        rw [← Bool.and_eq_true, ← List.all_append, List.take_append_drop]
        exact hs
      have hblock : s.take 9 ≠ [] := by
        intro h
        have := congrArg List.length h
        rw [List.length_take, List.length_nil] at this
        omega
      rw [parseInt_eq hblock hsplit.1]
      have hall : (numeral 10 (numberOf 10 (s.take 9) % 97) ++ s.drop 9).all (isDigitIn 10) = true := by
        rw [List.all_append, all_numeral (by decide) (by decide), hsplit.2]
        rfl
      have hshort := length_numeral_mod (numberOf 10 (s.take 9))
      have hrec := ih _ (by rw [List.length_append, List.length_drop]; omega)
        (List.append_ne_nil_of_left_ne_nil (numeral_ne_nil (by decide) _) _) hall rfl
      dsimp only
      have hvalue : numberOf 10 s = numberOf 10 (s.take 9) * 10 ^ (s.drop 9).length + numberOf 10 (s.drop 9) := by
        rw [← numberOf_append, List.take_append_drop]
      rw [hrec, numberOf_append, numberOf_numeral (by decide) (by decide), hvalue, Nat.add_mod, Nat.mul_mod, Nat.mod_mod, ← Nat.mul_mod,
        ← Nat.add_mod]
    · rw [parseInt_eq hne hs]
      rfl

/-! ## Check digits -/

/-- The check digits for a number. -/
def checkDigits (tot : Nat) : List Char := (numeral 10 (98 - tot % 97)).leftpad 2 '0'

theorem length_leftpad_numeral {k : Nat} (h : k < 100) : ((numeral 10 k).leftpad 2 '0').length = 2 := by
  have := (length_numeral_le_iff (b := 10) (n := k) (by decide) (k := 2) (by decide)).mpr (by omega)
  rw [List.leftpad, List.length_append, List.length_replicate]
  omega

theorem checkDigits_spec (tot : Nat) : (checkDigits tot).length = 2 ∧ (checkDigits tot).all Char.isDigit = true ∧
    numberOf 10 (checkDigits tot) = 98 - tot % 97 := by
  refine ⟨length_leftpad_numeral (by omega), ?_, ?_⟩
  · have hall := all_numeral (b := 10) (by decide) (by decide) (98 - tot % 97)
    have hchars : (fun c => isDigitIn 10 c) = Char.isDigit := funext isDigitIn_ten
    rw [← hchars, checkDigits, List.leftpad, List.all_append, hall, Bool.and_true, List.all_eq_true]
    intro c hc
    rw [List.eq_of_mem_replicate hc]
    rfl
  · rw [checkDigits, List.leftpad, numberOf_zeros, numberOf_numeral (by decide) (by decide)]

/-- What `slice(-2)` leaves of a numeral with a zero in front. -/
theorem slice_two {k : Nat} (h : k < 100) : ('0' :: numeral 10 k).drop (('0' :: numeral 10 k).length - 2) = (numeral 10 k).leftpad 2 '0' := by
  have hle := (length_numeral_le_iff (b := 10) (n := k) (by decide) (k := 2) (by decide)).mpr (by omega)
  have hpos := List.length_pos_of_ne_nil (numeral_ne_nil (b := 10) (by decide) k)
  rw [List.leftpad, List.length_cons]
  rcases Nat.lt_or_ge (numeral 10 k).length 2 with hlt | hge
  · have h1 : (numeral 10 k).length = 1 := by omega
    rw [h1]
    rfl
  · have h2 : (numeral 10 k).length = 2 := by omega
    rw [h2]
    rfl

/-- What is worth the data with the country and two zeros behind it. -/
def checkNumber (d : List Char) : Nat := numberOf 10 ((d ++ ['X', 'E', '0', '0']).flatMap decimal)

variable {d : List Char} (hd : d.all isUpperOrDigit = true)

include hd

theorem iban_eq : ICAP.iban ['X', 'E'] d = ['X', 'E'] ++ checkDigits (checkNumber d) ++ d := by
  have hall : (d ++ ['X', 'E'] ++ ['0', '0']).all isUpperOrDigit = true := by
    rw [List.all_append, List.all_append, hd]
    rfl
  have htot := tot_eq hall 0
  have hcheck : (98 - (checkNumber d : Int).tmod 97).toNat = 98 - checkNumber d % 97 := by
    rw [Int.tmod_eq_emod_of_nonneg (Int.natCast_nonneg _)]
    omega
  rw [ICAP.iban, toUpper_of_all hd, show toUpper ['X', 'E'] = ['X', 'E'] from rfl]
  rw [show (0 : Int) = ((0 : Nat) : Int) from rfl, htot, List.append_assoc d]
  exact congrArg (fun k => ['X', 'E'] ++ (numeral 10 k).leftpad 2 '0' ++ d) hcheck

theorem fromBban_eq : fromBban d = some ⟨ICAP.iban ['X', 'E'] d⟩ := by
  have hall : (['X', 'E', '0', '0'] ++ d).all isUpperOrDigit = true := by
    rw [List.all_append, hd]
    rfl
  have hall' : (d ++ ['X', 'E', '0', '0']).all isUpperOrDigit = true := by
    rw [List.all_append, hd]
    rfl
  have hprepare : iso13616Prepare (['X', 'E'] ++ ['0', '0'] ++ d) = (d ++ ['X', 'E', '0', '0']).flatMap decimal :=
    iso13616Prepare_eq rfl hall
  have hne : (d ++ ['X', 'E', '0', '0']).flatMap decimal ≠ [] := by
    rw [List.flatMap_append]
    exact List.append_ne_nil_of_right_ne_nil _ (by simp [decimal])
  have hslice := slice_two (k := 98 - checkNumber d % 97) (by omega)
  rw [fromBban, hprepare, mod9710_eq hne (all_decimal hall'), iban_eq hd]
  exact congrArg (fun c => some (Iban.mk (['X', 'E'] ++ c ++ d))) hslice

/-- The number of a string with its check digits is one more than a multiple of 97. -/
theorem mod9710_iban : mod9710 (iso13616Prepare (ICAP.iban ['X', 'E'] d)) = some 1 := by
  obtain ⟨hlen, hdigits, hvalue⟩ := checkDigits_spec (checkNumber d)
  have hcheck : (checkDigits (checkNumber d)).all isUpperOrDigit = true := by
    refine List.all_eq_true.mpr fun c hc => ?_
    rw [isUpperOrDigit, List.all_eq_true.mp hdigits c hc]
    rfl
  have hall : (['X', 'E'] ++ checkDigits (checkNumber d) ++ d).all isUpperOrDigit = true := by
    rw [List.all_append, List.all_append, hd, hcheck]
    rfl
  have hall' : (d ++ ['X', 'E'] ++ checkDigits (checkNumber d)).all isUpperOrDigit = true := by
    rw [List.all_append, List.all_append, hd, hcheck]
    rfl
  have hfour : (['X', 'E'] ++ checkDigits (checkNumber d)).length = 4 := by rw [List.length_append, hlen]; rfl
  have hprepare : iso13616Prepare (ICAP.iban ['X', 'E'] d) = (d ++ ['X', 'E'] ++ checkDigits (checkNumber d)).flatMap decimal := by
    rw [iban_eq hd, iso13616Prepare_eq hfour hall, List.append_assoc d]
  -- with zeros in place of the check digits the number is a multiple of a hundred
  have htotal : checkNumber d = numberOf 10 ((d ++ ['X', 'E']).flatMap decimal) * 100 := by
    have hzeros : (d ++ ['X', 'E', '0', '0']).flatMap decimal = (d ++ ['X', 'E']).flatMap decimal ++ ['0', '0'] := by
      rw [show d ++ ['X', 'E', '0', '0'] = d ++ ['X', 'E'] ++ ['0', '0'] by simp, @List.flatMap_append _ _ (d ++ ['X', 'E'])]
      rfl
    rw [checkNumber, hzeros, numberOf_append]
    rfl
  have hne : (d ++ ['X', 'E'] ++ checkDigits (checkNumber d)).flatMap decimal ≠ [] := by
    rw [List.flatMap_append, List.flatMap_append]
    exact List.append_ne_nil_of_left_ne_nil (List.append_ne_nil_of_right_ne_nil _ (by simp [decimal, numeral_ne_nil])) _
  rw [hprepare, mod9710_eq hne (all_decimal hall'), List.flatMap_append, flatMap_decimal_of_digits hdigits, numberOf_append, hlen, hvalue]
  rw [htotal]
  congr 1
  omega

end Webthree
