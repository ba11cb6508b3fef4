import Webthree.Lib.Numeral

/-!
# Iban of web3.js

`iban.js`, on strings of ASCII characters, with what it takes from `BigNumber`: numerals of whole numbers in other bases, which are
read and written exactly.
-/

namespace Webthree

namespace Web3

/-- `new BigNumber(string, base)`; `none` if it is not a number. A hexadecimal numeral may have a prefix. -/
def bigNumber (string : List Char) (base : Nat) : Option Nat :=
  if base = 16 ∧ (string.take 2).map Char.toLower = ['0', 'x'] then ofNumeral base (string.drop 2) else ofNumeral base string

/-- `parseInt(string, 10)` of a string without a sign or a blank in front; `none` if there is no digit. -/
def parseInt (string : List Char) : Option Nat := ofNumeral 10 (string.takeWhile Char.isDigit)

/-- `padLeft` -/
def padLeft (string : List Char) (bytes : Nat) : List Char := string.leftpad (bytes * 2) '0'

/-- `iso13616Prepare` -/
def iso13616Prepare (iban : List Char) : List Char :=
  let iban := iban.map Char.toUpper
  (iban.drop 4 ++ iban.take 4).flatMap fun n =>
    if 'A' ≤ n ∧ n ≤ 'Z' then numeral 10 (n.toNat - 65 + 10) else [n]

theorem length_numeral_mod (n : Nat) : (numeral 10 (n % 97)).length ≤ 2 :=
  (length_numeral_le_iff (by decide) (by decide)).mpr (by omega)

/-- `mod9710`; `none` if a block is not a number. -/
def mod9710 (remainder : List Char) : Option Nat :=
  if h : 2 < remainder.length then
    match parseInt (remainder.take 9) with
    | none => none
    | some n => mod9710 (numeral 10 (n % 97) ++ remainder.drop 9)
  else (parseInt remainder).map (· % 97)
termination_by remainder.length
decreasing_by
  have := length_numeral_mod n
  rw [List.length_append, List.length_drop]
  omega

/-- `Iban` -/
structure Iban where
  _iban : List Char
deriving DecidableEq

namespace Iban

/-- `Iban.fromBban` -/
def fromBban (bban : List Char) : Option Iban := do
  let countryCode := ['X', 'E']
  let remainder ← mod9710 (iso13616Prepare (countryCode ++ ['0', '0'] ++ bban))
  let digits := '0' :: numeral 10 (98 - remainder)
  let checkDigit := digits.drop (digits.length - 2)
  return ⟨countryCode ++ checkDigit ++ bban⟩

/-- `Iban.fromAddress` -/
def fromAddress (address : List Char) : Option Iban := do
  let asBn ← bigNumber address 16
  let base36 := numeral 36 asBn
  fromBban ((padLeft base36 15).map Char.toUpper)

/-- `[0-9A-Z]` -/
def isUpperOrDigit (c : Char) : Bool := c.isDigit || c.isUpper

/-- The regular expression of `isValid`. -/
def hasForm (s : List Char) : Bool :=
  let rest := s.drop 4
  s.take 2 = ['X', 'E'] && ((s.drop 2).take 2).length = 2 && ((s.drop 2).take 2).all Char.isDigit &&
    (rest.take 3 = ['E', 'L', 'E'] && (rest.drop 3).length = 13 && (rest.drop 3).all isUpperOrDigit ||
      (rest.length = 30 || rest.length = 31) && rest.all isUpperOrDigit)

/-- `isValid` -/
def isValid (i : Iban) : Bool := hasForm i._iban && mod9710 (iso13616Prepare i._iban) = some 1

/-- `isDirect` -/
def isDirect (i : Iban) : Bool := i._iban.length = 34 || i._iban.length = 35

/-- `isIndirect` -/
def isIndirect (i : Iban) : Bool := i._iban.length = 20

/-- `institution` -/
def institution (i : Iban) : List Char := if i.isIndirect then (i._iban.drop 7).take 4 else []

/-- `client` -/
def client (i : Iban) : List Char := if i.isIndirect then i._iban.drop 11 else []

/-- `address`; `none` if the rest is not a number. -/
def address (i : Iban) : Option (List Char) :=
  if i.isDirect then (bigNumber (i._iban.drop 4) 36).map fun asBn => padLeft (numeral 16 asBn) 20 else some []

end Iban

end Web3

end Webthree
