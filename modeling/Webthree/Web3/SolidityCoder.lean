import Webthree.Web3.SolidityType

/-!
# The coder

`SolidityCoder` of `web3.js`: the heads and tails of parameters, with the offsets inside nested arrays, and the offsets that
`decodeParams` reads at. Numbers are exact, as they are in the source below 2^53.
-/

namespace Webthree.Web3

namespace Solidity

/-- What `ToNumber` makes of a string of hexadecimal digits in lower case: a numeral, one with an exponent, or one in base two; `none` for `NaN`. -/
def toNumber (string : List Char) : Option ℚ :=
  let mantissa := string.takeWhile Char.isDigit
  let isNumeral := fun digits : List Char => digits ≠ [] ∧ digits.all Char.isDigit = true
  if string = [] then some 0
  else
    match string.drop mantissa.length with
    | [] => some (numberOf 10 mantissa)
    | 'e' :: exponent => if isNumeral mantissa ∧ isNumeral exponent then some (numberOf 10 mantissa * 10 ^ numberOf 10 exponent) else none
    | 'b' :: digits => if mantissa = ['0'] then (ofNumeral 2 digits).map fun n => (n : ℚ) else none
    | _ => none

/-- The element `[0]`, where it is a string. -/
def Encoded.first : Encoded → List Char
  | .leaf s => s.take 1
  | .dynamicArr length _ => length
  | .staticArr _ => []

/-- The loops of `encodeWithOffset` that write an offset for each item; the list holds the items before these. -/
def nestedOffsets (offset : Option ℚ) (nestedStaticPartLength : Nat) : Nat → ℚ → List Encoded → Option (List Char)
  | _, _, [] => some []
  | i, previousLength, e :: es => do
    let previousLength := previousLength + (toNumber e.first).getD 0
    let word ← formatInputNumber ((offset.map (· + i * nestedStaticPartLength + previousLength * 32)).getD 0)
    let rest ← nestedOffsets offset nestedStaticPartLength (i + 1) previousLength es
    return word ++ rest

/-- `encodeWithOffset` -/
@[semireducible] def encodeWithOffset (name : List Char) (t : SolidityType) (encoded : Encoded) (offset : Option ℚ) :
    Option (List Char) :=
  let nestedStaticPartLength := t.staticPartLength (nestedName name)
  -- the sum of a number with what is not a number is not a number
  let additionalOffset := fun result : List Char => do
    let offset ← offset
    let additional ← toNumber result
    return offset + additional / 2
  if _h : isDynamicArray name then
    match encoded with
    | .dynamicArr length items => do
      let offsets ← (
        if isDynamicArray (nestedName name) then nestedOffsets offset nestedStaticPartLength 1 2 (.leaf length :: items).dropLast
        else some [])
      items.foldlM (fun result e => do
        let nested ← encodeWithOffset (nestedName name) t e (additionalOffset result)
        return result ++ nested) (length ++ offsets)
    | _ => none
  else if _h : isStaticArray name then
    match encoded with
    | .staticArr items => do
      let offsets ← (
        if isDynamicArray (nestedName name) then nestedOffsets offset nestedStaticPartLength 0 0 (.staticArr [] :: items).dropLast
        else some [])
      items.foldlM (fun result e => do
        let nested ← encodeWithOffset (nestedName name) t e (additionalOffset result)
        return result ++ nested) offsets
    | _ => none
  else
    match encoded with
    | .leaf s => some s
    | _ => none
termination_by name.length
decreasing_by
  · exact length_nestedName (.inl _h)
  · exact length_nestedName (.inr _h)

/-- A parameter, with its type and what `encode` returned for it. -/
structure Param where
  name : List Char
  solidityType : SolidityType
  encoded : Encoded

namespace Param

/-- `isDynamic` -/
def isDynamic (q : Param) : Bool := isDynamicArray q.name || q.solidityType.isDynamicType

/-- `encodeWithOffset` of the parameter. -/
def withOffset (q : Param) (dynamicOffset : ℚ) : Option (List Char) :=
  encodeWithOffset q.name q.solidityType q.encoded (some dynamicOffset)

end Param

/-- The first loop of `encodeMultiWithOffset`: an offset for a dynamic parameter, the others in place. -/
def writeHeads : List Param → List Char → ℚ → Option (List Char × ℚ)
  | [], result, dynamicOffset => some (result, dynamicOffset)
  | q :: qs, result, dynamicOffset => do
    if q.isDynamic then
      let word ← formatInputNumber dynamicOffset
      let e ← q.withOffset dynamicOffset
      writeHeads qs (result ++ word) (dynamicOffset + e.length / 2)
    else
      let e ← q.withOffset dynamicOffset
      writeHeads qs (result ++ e) dynamicOffset

/-- The second loop, which goes on with the offset that the first one left. -/
def writeTails : List Param → List Char → ℚ → Option (List Char)
  | [], result, _ => some result
  | q :: qs, result, dynamicOffset => do
    if q.isDynamic then
      let e ← q.withOffset dynamicOffset
      writeTails qs (result ++ e) (dynamicOffset + e.length / 2)
    else writeTails qs result dynamicOffset

/-- `encodeMultiWithOffset` -/
def encodeMultiWithOffset (params : List Param) (dynamicOffset : ℚ) : Option (List Char) := do
  let (result, dynamicOffset) ← writeHeads params [] dynamicOffset
  writeTails params result dynamicOffset

/-- The types, in the order of the coder. -/
def solidityTypes : List SolidityType := [.address, .bool, .int, .uint, .dynamicBytes, .bytes, .string, .real, .ureal]

/-- `_requireType`; `none` for the exception. -/
def requireType (name : List Char) : Option SolidityType := solidityTypes.find? (·.isType name)

/-- `encode` of each parameter; `none` also if there are more types than parameters. -/
def encodeEach (p : Packages) : List (List Char) → List Value → Option (List Param)
  | [], _ => some []
  | name :: types, v :: params => do
    let solidityType ← requireType name
    let encoded ← solidityType.encode p v name
    let rest ← encodeEach p types params
    return ⟨name, solidityType, encoded⟩ :: rest
  | _ :: _, [] => none

/-- `encodeParams` -/
def encodeParams (p : Packages) (types : List (List Char)) (params : List Value) : Option (List Char) := do
  let encodeds ← encodeEach p types params
  let dynamicOffset := (encodeds.map fun q => roundUp (q.solidityType.staticPartLength q.name)).sum
  encodeMultiWithOffset encodeds dynamicOffset

/-- The loop of `getOffsets`: each length with those before it. -/
def runningSums : Nat → List Nat → List Nat
  | _, [] => []
  | sum, length :: lengths => (sum + length) :: runningSums (sum + length) lengths

/-- `getOffsets`, from the static lengths. -/
def getOffsets (lengths : List Nat) : List Nat := (runningSums 0 lengths).zipWith (· - ·) lengths

/-- `decodeParams` -/
def decodeParams (p : Packages) (types : List (List Char)) (bytes : List Char) : Option (List Value) := do
  let solidityTypes ← types.mapM requireType
  let offsets := getOffsets (solidityTypes.zipWith SolidityType.staticPartLength types)
  (types.zip (solidityTypes.zip offsets)).mapM fun (name, solidityType, offset) => solidityType.decode p bytes offset name

end Solidity

end Webthree.Web3
