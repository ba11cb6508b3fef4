import Mathlib.Data.Rat.Floor
import Webthree.Lib.Numeral

/-!
# Types of the coder

`SolidityType` of `web3.js` and its members, on type names: which name belongs to which type, the dimensions of arrays, the formatters
of single values, and `encode` and `decode`. An offset that is not a number is `none`.
-/

namespace Webthree.Web3

namespace Solidity

/-! ## Names -/

/-- The matches of `\[[0-9]*\]`; the first argument is a match that has begun. -/
def brackets : Option (List Char) → List Char → List (List Char)
  | _, [] => []
  | none, c :: s => if c = '[' then brackets (some ['[']) s else brackets none s
  | some m, c :: s =>
    if c.isDigit then brackets (some (m ++ [c])) s
    else if c = ']' then (m ++ [']']) :: brackets none s
    else if c = '[' then brackets (some ['[']) s
    else brackets none s

/-- `nestedTypes`, with no element where the source has `null`. -/
def nestedTypes (name : List Char) : List (List Char) := brackets none name

/-- `isDynamicArray` -/
def isDynamicArray (name : List Char) : Bool := (nestedTypes name).getLast?.any fun t => !t.any Char.isDigit

/-- `isStaticArray` -/
def isStaticArray (name : List Char) : Bool := (nestedTypes name).getLast?.any fun t => t.any Char.isDigit

/-- `staticArrayLength` -/
def staticArrayLength (name : List Char) : Nat :=
  match (nestedTypes name).getLast? with
  | none => 1
  | some t => if t.any Char.isDigit then numberOf 10 (t.filter Char.isDigit) else 1

/-- `nestedName` -/
def nestedName (name : List Char) : List Char :=
  match (nestedTypes name).getLast? with
  | none => name
  | some t => name.take (name.length - t.length)

theorem ne_nil_of_mem_brackets (o : Option (List Char)) (name : List Char) : ∀ t ∈ brackets o name, t ≠ [] := by
  induction name generalizing o with
  | nil => simp [brackets]
  | cons c s ih =>
    intro t ht
    cases o with
    | none =>
      rw [brackets] at ht
      split at ht
      · exact ih _ t ht
      · exact ih _ t ht
    | some m =>
      rw [brackets] at ht
      split at ht
      · exact ih _ t ht
      · split at ht
        · rcases List.mem_cons.mp ht with rfl | ht
          · simp
          · exact ih _ t ht
        · split at ht
          · exact ih _ t ht
          · exact ih _ t ht

theorem length_nestedName {name : List Char} (h : isDynamicArray name = true ∨ isStaticArray name = true) :
    (nestedName name).length < name.length := by
  rw [isDynamicArray, isStaticArray] at h
  rw [nestedName]
  cases hl : (nestedTypes name).getLast? with
  | none => simp [hl] at h
  | some t =>
    have ht : t ≠ [] := ne_nil_of_mem_brackets none name t (List.mem_of_getLast? hl)
    have hname : name ≠ [] := by
      rintro rfl
      simp [nestedTypes, brackets] at hl
    have h1 := List.length_pos_of_ne_nil ht
    have h2 := List.length_pos_of_ne_nil hname
    dsimp only
    rw [List.length_take]
    omega

/-! ## Types -/

/-- The members of `SolidityType`. -/
inductive SolidityType where
  | address
  | bool
  | int
  | uint
  | dynamicBytes
  | bytes
  | string
  | real
  | ureal
deriving DecidableEq

/-- `^(\[([0-9]*)\])*$`; the first argument says whether a bracket is open. -/
def isArrays : Bool → List Char → Bool
  | false, [] => true
  | true, [] => false
  | false, c :: s => c = '[' && isArrays true s
  | true, c :: s => if c.isDigit then isArrays true s else c = ']' && isArrays false s

/-- What follows a stem at the start of a name. -/
def after (stem name : List Char) : Option (List Char) := if stem.isPrefixOf name then some (name.drop stem.length) else none

/-- The match of an expression that a word stands for, anywhere in a name. -/
def hasInside (word name : List Char) : Bool := name.tails.any fun s => word.isPrefixOf s

/-- `^stem(\[([0-9]*)\])*$` -/
def isUnsized (stem name : List Char) : Bool := (after stem name).any fun s => isArrays false s

/-- `^stem([0-9]*)?(\[([0-9]*)\])*$` -/
def isSized (stem name : List Char) : Bool := (after stem name).any fun s => isArrays false (s.dropWhile Char.isDigit)

namespace SolidityType

/-- `isType`. The expressions for addresses and for reals match a name that has theirs anywhere. -/
def isType (t : SolidityType) (name : List Char) : Bool :=
  match t with
  | address => hasInside ['a', 'd', 'd', 'r', 'e', 's', 's'] name
  | bool => isUnsized ['b', 'o', 'o', 'l'] name
  | int => isSized ['i', 'n', 't'] name
  | uint => isSized ['u', 'i', 'n', 't'] name
  | dynamicBytes => isUnsized ['b', 'y', 't', 'e', 's'] name
  | bytes => (after ['b', 'y', 't', 'e', 's'] name).any fun s => s.head?.any Char.isDigit && isArrays false (s.dropWhile Char.isDigit)
  | string => isUnsized ['s', 't', 'r', 'i', 'n', 'g'] name
  | real => hasInside ['r', 'e', 'a', 'l'] name
  | ureal => isSized ['u', 'r', 'e', 'a', 'l'] name

/-- `isDynamicType` -/
def isDynamicType : SolidityType → Bool
  | dynamicBytes => true
  | string => true
  | _ => false

/-- `staticPartLength`, in bytes. -/
def staticPartLength (t : SolidityType) (name : List Char) : Nat :=
  match t with
  | bytes => numberOf 10 ((name.drop 5).takeWhile Char.isDigit) * staticArrayLength name
  | _ => 32 * staticArrayLength name

end SolidityType

/-! ## Formatters -/

/-- The values that parameters take. -/
inductive Value where
  | num (number : ℚ)
  | bool (b : Bool)
  | str (s : List Char)
  | arr (items : List Value)

/-- What the code takes from the packages `utf8` and `bignumber.js`: the codec, and the quotient of a number by 2^128, which is
rounded. -/
structure Packages where
  encode : List Char → List UInt8
  decode : List UInt8 → Option (List Char)
  dividedBy : Int → ℚ

/-- `padLeft`; `none` for the `RangeError` of a string that is too long. -/
def padLeft (string : List Char) (chars : Nat) : Option (List Char) :=
  if string.length ≤ chars + 1 then some (string.leftpad chars '0') else none

/-- `padRight`; `none` for the `RangeError` of a string that is too long. -/
def padRight (string : List Char) (chars : Nat) : Option (List Char) :=
  if string.length ≤ chars + 1 then some (string.rightpad chars '0') else none

/-- `toTwosComplement` -/
def toTwosComplement (number : ℚ) : ℚ := if number < 0 then (2 ^ 256 - 1) + number + 1 else number

/-- `toString(16)` of a whole number. -/
def toString16 (number : Int) : List Char :=
  if number < 0 then '-' :: numeral 16 number.natAbs else numeral 16 number.toNat

/-- `formatInputInt` of a number; `round` leaves out the part behind the point. -/
def formatInputNumber (number : ℚ) : Option (List Char) :=
  let rounded := toTwosComplement number
  padLeft (toString16 (rounded.num.tdiv rounded.den)) 64

/-- `toBigNumber`; `none` for what is not a number. -/
def toBigNumber : Value → Option ℚ
  | .num number => some number
  | .str ('0' :: 'x' :: digits) => (ofNumeral 16 digits).map fun n => (n : ℚ)
  | .str digits => (ofNumeral 10 digits).map fun n => (n : ℚ)
  | _ => none

/-- `formatInputInt` -/
def formatInputInt (v : Value) : Option (List Char) := (toBigNumber v).bind formatInputNumber

/-- `formatInputReal` -/
def formatInputReal (v : Value) : Option (List Char) := (toBigNumber v).bind fun number => formatInputNumber (number * 2 ^ 128)

/-- `toHex(value).substr(2)` of a string with the prefix. -/
def toHex : Value → Option (List Char)
  | .str ('0' :: 'x' :: digits) => some digits
  | _ => none

/-- The digits of a byte, two at least. -/
def hexByte (code : UInt8) : List Char := (numeral 16 code.toNat).leftpad 2 '0'

/-- `fromUtf8(value).substr(2)`: what is before the first NUL. -/
def fromUtf8 (p : Packages) : Value → Option (List Char)
  | .str s => some (((p.encode s).takeWhile (· ≠ 0)).flatMap hexByte)
  | _ => none

/-- The number of words for a row of digits. -/
def wordCount (result : List Char) : Nat := (result.length + 63) / 64

/-- `formatInputBytes` -/
def formatInputBytes (v : Value) : Option (List Char) := do
  let result ← toHex v
  padRight result (wordCount result * 64)

/-- What `formatInputDynamicBytes` and `formatInputString` make of digits: their length in front. -/
def withLength (result : List Char) : Option (List Char) := do
  let length ← formatInputNumber (result.length / 2)
  let padded ← padRight result (wordCount result * 64)
  return length ++ padded

/-- `formatInputDynamicBytes` -/
def formatInputDynamicBytes (v : Value) : Option (List Char) := (toHex v).bind withLength

/-- `formatInputString` -/
def formatInputString (p : Packages) (v : Value) : Option (List Char) := (fromUtf8 p v).bind withLength

/-- `formatInputBool` -/
def formatInputBool (v : Value) : Option (List Char) :=
  match v with
  | .bool b => some (List.replicate 63 '0' ++ [if b then '1' else '0'])
  | _ => none

/-- `signedIsNegative`: the first digit has a one in front in base two. -/
def signedIsNegative (value : List Char) : Option Bool :=
  (ofNumeral 16 (value.take 1)).map fun digit => (numeral 2 digit).head? = some '1'

/-- `param.staticPart() || "0"` -/
def orZero (value : List Char) : List Char := if value = [] then ['0'] else value

/-- The number that `formatOutputInt` makes. -/
def outputInt (param : List Char) : Option Int := do
  let value := orZero param
  let number ← ofNumeral 16 value
  if ← signedIsNegative value then return number - (2 ^ 256 - 1) - 1
  else return number

/-- `formatOutputInt` -/
def formatOutputInt (param : List Char) : Option Value := (outputInt param).map fun number : Int => .num number

/-- `formatOutputUInt` -/
def formatOutputUInt (param : List Char) : Option Value := (ofNumeral 16 (orZero param)).map fun number : Nat => .num number

/-- `formatOutputReal` -/
def formatOutputReal (p : Packages) (param : List Char) : Option Value := (outputInt param).map fun number : Int => .num (p.dividedBy number)

/-- `formatOutputUReal` -/
def formatOutputUReal (p : Packages) (param : List Char) : Option Value :=
  (ofNumeral 16 (orZero param)).map fun number : Nat => .num (p.dividedBy number)

/-- `formatOutputBool` -/
def formatOutputBool (param : List Char) : Option Value := some (.bool (param = List.replicate 63 '0' ++ ['1']))

/-- `formatOutputBytes` -/
def formatOutputBytes (param : List Char) : Option Value := some (.str ('0' :: 'x' :: param))

/-- The digits behind the length, in `formatOutputDynamicBytes` and `formatOutputString`. -/
def dynamicDigits (param : List Char) : Option (List Char) :=
  (ofNumeral 16 (param.take 64)).map fun length => (param.drop 64).take (length * 2)

/-- `formatOutputDynamicBytes` -/
def formatOutputDynamicBytes (param : List Char) : Option Value := (dynamicDigits param).map fun digits => .str ('0' :: 'x' :: digits)

/-- `parseInt('0x' + digits)`; `none` if there is no digit. -/
def parseHex (digits : List Char) : Option Nat := ofNumeral 16 (digits.takeWhile (isDigitIn 16))

/-- The loop of `toUtf8`: the codes before the first NUL. A code that is not a number becomes the character NUL. -/
def codes : List Char → List UInt8
  | [] => []
  | [c] => match parseHex [c] with
    | some 0 => []
    | code => [UInt8.ofNat (code.getD 0)]
  | c :: d :: hex => match parseHex [c, d] with
    | some 0 => []
    | code => UInt8.ofNat (code.getD 0) :: codes hex

/-- `toUtf8` -/
def toUtf8 (p : Packages) (hex : List Char) : Option (List Char) :=
  p.decode (codes (if hex.take 2 = ['0', 'x'] then hex.drop 2 else hex))

/-- `formatOutputString` -/
def formatOutputString (p : Packages) (param : List Char) : Option Value := do
  let digits ← dynamicDigits param
  let s ← toUtf8 p digits
  return .str s

/-- `formatOutputAddress` -/
def formatOutputAddress (param : List Char) : Option Value := some (.str ('0' :: 'x' :: param.drop (param.length - 40)))

namespace SolidityType

/-- `_inputFormatter(value, name).encode()`; `none` for an exception, and for a value that is not of the type. -/
def inputFormatter (p : Packages) (t : SolidityType) (v : Value) : Option (List Char) :=
  match t with
  | address => formatInputInt v
  | bool => formatInputBool v
  | int => formatInputInt v
  | uint => formatInputInt v
  | dynamicBytes => formatInputDynamicBytes v
  | bytes => formatInputBytes v
  | string => formatInputString p v
  | real => formatInputReal v
  | ureal => formatInputReal v

/-- `_outputFormatter`, on the part that it reads of the parameter. -/
def outputFormatter (p : Packages) (t : SolidityType) (param : List Char) : Option Value :=
  match t with
  | address => formatOutputAddress param
  | bool => formatOutputBool param
  | int => formatOutputInt param
  | uint => formatOutputUInt param
  | dynamicBytes => formatOutputDynamicBytes param
  | bytes => formatOutputBytes param
  | string => formatOutputString p param
  | real => formatOutputReal p param
  | ureal => formatOutputUReal p param

end SolidityType

/-! ## Encoding and decoding -/

/-- What `encode` returns: a string, or an array, with its length in front if it is dynamic. -/
inductive Encoded where
  | leaf (s : List Char)
  | dynamicArr (length : List Char) (items : List Encoded)
  | staticArr (items : List Encoded)

namespace SolidityType

/-- `encode`; `none` for an exception, and for a value that is not of the type. -/
@[semireducible] def encode (p : Packages) (t : SolidityType) (v : Value) (name : List Char) : Option Encoded :=
  if _h : isDynamicArray name then
    match v with
    | .arr items => do
      let length ← formatInputNumber items.length
      let result ← items.mapM fun v => encode p t v (nestedName name)
      return .dynamicArr length result
    | _ => none
  else if _h : isStaticArray name then
    match v with
    | .arr items => do
      let result ← (List.range (staticArrayLength name)).mapM fun i => do
        let v ← items[i]?
        encode p t v (nestedName name)
      return .staticArr result
    | _ => none
  else (t.inputFormatter p v).map .leaf
termination_by name.length
decreasing_by
  · exact length_nestedName (.inl _h)
  · exact length_nestedName (.inr _h)

end SolidityType

/-- `substr`; a start that is not a number counts as zero. -/
def substr (string : List Char) (start : Option Nat) (length : Nat) : List Char := (string.drop (start.getD 0)).take length

/-- Up to the next multiple of 32. -/
def roundUp (length : Nat) : Nat := (length + 31) / 32 * 32

namespace SolidityType

/-- `decode`. The loops over items go in steps of the rounded length. -/
@[semireducible] def decode (p : Packages) (t : SolidityType) (bytes : List Char) (offset : Option Nat) (name : List Char) :
    Option Value :=
  let roundedNestedStaticPartLength := roundUp (t.staticPartLength (nestedName name))
  if _h : isDynamicArray name then do
    let arrayOffset := parseHex (substr bytes (offset.map (· * 2)) 64)
    let length := parseHex (substr bytes (arrayOffset.map (· * 2)) 64)
    let arrayStart := arrayOffset.map (· + 32)
    let result ← (List.range (if roundedNestedStaticPartLength = 0 then 0 else length.getD 0)).mapM fun i =>
      decode p t bytes (arrayStart.map (· + i * roundedNestedStaticPartLength)) (nestedName name)
    return .arr result
  else if _h : isStaticArray name then do
    let length := staticArrayLength name
    let result ← (List.range (if roundedNestedStaticPartLength = 0 then 0 else length)).mapM fun i =>
      decode p t bytes (offset.map (· + i * roundedNestedStaticPartLength)) (nestedName name)
    return .arr result
  else if t.isDynamicType then
    let dynamicOffset := parseHex (substr bytes (offset.map (· * 2)) 64)
    let length := parseHex (substr bytes (dynamicOffset.map (· * 2)) 64)
    let chars := match length with
      | none => 0
      | some length => (1 + (length + 31) / 32) * 64
    t.outputFormatter p (substr bytes (dynamicOffset.map (· * 2)) chars)
  else t.outputFormatter p (substr bytes (offset.map (· * 2)) (t.staticPartLength name * 2))
termination_by name.length
decreasing_by
  · exact length_nestedName (.inl _h)
  · exact length_nestedName (.inr _h)

end SolidityType

end Solidity

end Webthree.Web3
