import Webthree.Evm.Instruction
import Webthree.Lib.NumberFormat

/-!
# Types of rational constants

`RationalNumberType` with the types that its values are converted to. A loop of `bytesRequired` is given a number of rounds, and a type
that may be a null pointer is an option.
-/

namespace Webthree

namespace Bigint

/-- `>>= 8` of a `bigint`: whether a negative one carries its sign along or not, as a comment on `bytesRequired` has it, is for the library
to say. -/
def shiftRight (carriesSign : Bool) (i : Int) : Int := if carriesSign then i / 256 else i.tdiv 256

/-- The loop of `bytesRequired`, as long as there are rounds left. -/
def bytesLoop (carriesSign : Bool) : (rounds : Nat) → (i : Int) → (bytes : Nat) → Option Nat
  | 0, _, _ => none
  | rounds + 1, i, bytes => if i = 0 then some bytes else bytesLoop carriesSign rounds (shiftRight carriesSign i) (bytes + 1)

/-- `bytesRequired` -/
def bytesRequired (carriesSign : Bool) (rounds : Nat) (i : Int) : Option Nat := bytesLoop carriesSign rounds i 0

end Bigint

namespace Libsolidity

/-- How the functions of types fail. -/
inductive TypeFailure where
  /-- An assertion fails. -/
  | InternalCompilerError
  | NullDereference
  /-- There are no rounds left. -/
  | Running
deriving DecidableEq, Repr

/-- `IntegerType::Modifier` -/
inductive IntegerType.Modifier where
  | Unsigned
  | Signed
  | Address
deriving DecidableEq, Repr

/-- `IntegerType`, with what its constructor asserts. -/
structure IntegerType where
  m_bits : Nat
  m_modifier : IntegerType.Modifier
  bits_pos : 0 < m_bits
  bits_le : m_bits ≤ 256
  bits_mod : m_bits % 8 = 0
  address_bits : m_modifier = .Address → m_bits = 160
deriving DecidableEq

/-- `FixedPointType::Modifier` -/
inductive FixedPointType.Modifier where
  | Unsigned
  | Signed
deriving DecidableEq, Repr

/-- `FixedPointType`, with what its constructor asserts. -/
structure FixedPointType where
  m_integerBits : Nat
  m_fractionalBits : Nat
  m_modifier : FixedPointType.Modifier
  bits_pos : 0 < m_integerBits + m_fractionalBits
  bits_le : m_integerBits + m_fractionalBits ≤ 256
  integerBits_mod : m_integerBits % 8 = 0
  fractionalBits_mod : m_fractionalBits % 8 = 0
deriving DecidableEq

/-- `FixedBytesType`, with what its constructor asserts. -/
structure FixedBytesType where
  m_bytes : Nat
  bytes_le : m_bytes ≤ 32
deriving DecidableEq

/-- The types that constants are converted to, and the others. -/
inductive ValueType where
  | integer (t : IntegerType)
  | fixedPoint (t : FixedPointType)
  | fixedBytes (t : FixedBytesType)
  | other
deriving DecidableEq

namespace IntegerType

/-- The constructor. -/
def make (bits : Nat) (modifier : Modifier) : Except TypeFailure IntegerType :=
  let m_bits := if modifier = .Address then 160 else bits
  if h : 0 < m_bits ∧ m_bits ≤ 256 ∧ m_bits % 8 = 0 then .ok ⟨m_bits, modifier, h.1, h.2.1, h.2.2, fun ha => if_pos ha⟩
  else .error .InternalCompilerError

def numBits (t : IntegerType) : Nat := t.m_bits

def isSigned (t : IntegerType) : Bool := t.m_modifier = .Signed

end IntegerType

namespace FixedPointType

/-- The constructor. -/
def make (integerBits fractionalBits : Nat) (modifier : Modifier) : Except TypeFailure FixedPointType :=
  if h : 0 < integerBits + fractionalBits ∧ integerBits + fractionalBits ≤ 256 ∧ integerBits % 8 = 0 ∧ fractionalBits % 8 = 0 then
    .ok ⟨integerBits, fractionalBits, modifier, h.1, h.2.1, h.2.2.1, h.2.2.2⟩
  else .error .InternalCompilerError

def numBits (t : FixedPointType) : Nat := t.m_integerBits + t.m_fractionalBits

def fractionalBits (t : FixedPointType) : Nat := t.m_fractionalBits

def isSigned (t : FixedPointType) : Bool := t.m_modifier = .Signed

/-- `isImplicitlyConvertibleTo` -/
def isImplicitlyConvertibleTo (t : FixedPointType) : ValueType → Bool
  | .fixedPoint convertTo =>
    if convertTo.m_integerBits < t.m_integerBits ∨ convertTo.m_fractionalBits < t.m_fractionalBits then false
    else if t.isSigned then convertTo.isSigned
    else !convertTo.isSigned || convertTo.m_integerBits > t.m_integerBits
  | _ => false

end FixedPointType

/-- `RationalNumberType` -/
structure RationalNumberType where
  m_value : ℚ
deriving DecidableEq

namespace RationalNumberType

variable (carriesSign : Bool) (rounds : Nat)

/-- `isFractional` -/
def isFractional (r : RationalNumberType) : Bool := r.m_value.den ≠ 1

/-- The bytes required for a value, unless the rounds do not suffice. -/
def requiredBytes (value : Int) : Except TypeFailure Nat :=
  match Bigint.bytesRequired carriesSign rounds value with
  | some bytes => .ok bytes
  | none => .error .Running

/-- `integerType` -/
def integerType (r : RationalNumberType) : Except TypeFailure (Option IntegerType) := do
  if r.isFractional then throw .InternalCompilerError
  else do
    let value := r.m_value.num
    -- a negative number is converted to a positive one of the same bit requirements
    let value' := if value < 0 then ((0 - value) - 1) * 2 else value
    if value' > 2 ^ 256 - 1 then pure none
    else do
      let bytes ← requiredBytes carriesSign rounds value'
      some <$> IntegerType.make (max bytes 1 * 8) (if value < 0 then .Signed else .Unsigned)

/-- The loop of `fixedPointType`: the value is scaled until it is an integer, or as far as it fits. -/
def scale (maxValue value : ℚ) (fractionalBits : Nat) : ℚ × Nat :=
  if value * 0x100 ≤ maxValue ∧ value.den ≠ 1 ∧ fractionalBits < 256 then scale maxValue (value * 0x100) (fractionalBits + 8)
  else (value, fractionalBits)
termination_by 256 - fractionalBits

/-- The bits before and behind the point, where the number takes so many in all. -/
def splitBits (m_value : ℚ) (totalBits fractionalBits : Nat) : Nat × Nat :=
  -- numbers between -1 and 0 have their sign bit in the fractional part
  if m_value < 0 ∧ |m_value| < 1 ∧ totalBits > fractionalBits then (0, fractionalBits + 8)
  else (if totalBits ≥ fractionalBits then totalBits - fractionalBits else 0, fractionalBits)

/-- The end of `fixedPointType`, where the number takes so many bits in all. -/
def fixedPointOfBits (m_value : ℚ) (totalBits fractionalBits : Nat) : Except TypeFailure (Option FixedPointType) := do
  let (integerBits, fractionalBits) := splitBits m_value totalBits fractionalBits
  if integerBits > 256 ∨ fractionalBits > 256 ∨ fractionalBits + integerBits > 256 then pure none
  else do
    let fractionalBits := if integerBits = 0 ∧ fractionalBits = 0 then 8 else fractionalBits
    some <$> FixedPointType.make integerBits fractionalBits (if m_value < 0 then .Signed else .Unsigned)

/-- `fixedPointType` -/
def fixedPointType (r : RationalNumberType) : Except TypeFailure (Option FixedPointType) := do
  let maxValue : ℚ := if r.m_value < 0 then 2 ^ 255 else 2 ^ 256 - 1
  let (value, fractionalBits) := scale maxValue |r.m_value| 0
  if value > maxValue then pure none
  else do
    let v := truncate value
    -- one bit more for the sign, and one number more for the negative ones
    let v' := if r.m_value < 0 then (v - 1) * 2 else v
    if v' > 2 ^ 256 - 1 then pure none
    else do
      let totalBits := (← requiredBytes carriesSign rounds v') * 8
      if ¬ totalBits ≤ 256 then throw .InternalCompilerError
      else fixedPointOfBits r.m_value totalBits fractionalBits

/-- `mobileType` -/
def mobileType (r : RationalNumberType) : Except TypeFailure (Option ValueType) := do
  if !r.isFractional then pure ((← r.integerType carriesSign rounds).map .integer)
  else pure ((← r.fixedPointType carriesSign rounds).map .fixedPoint)

/-- `isImplicitlyConvertibleTo` an integer type. -/
def fitsInteger (r : RationalNumberType) (targetType : IntegerType) : Bool :=
  if r.m_value = 0 then true
  else if r.isFractional then false
  else
    let forSignBit := if targetType.isSigned then 1 else 0
    if r.m_value > 0 then
      r.m_value.num ≤ (((-1 : U256) >>> (256 - targetType.numBits + forSignBit)).toNat : Int)
    else targetType.isSigned && -r.m_value.num ≤ (((1 : U256) <<< (targetType.numBits - forSignBit)).toNat : Int)

/-- `isImplicitlyConvertibleTo` -/
def isImplicitlyConvertibleTo (r : RationalNumberType) (convertTo : ValueType) : Except TypeFailure Bool := do
  match convertTo with
  | .integer targetType => pure (r.fitsInteger targetType)
  | .fixedPoint _ =>
    match ← r.fixedPointType carriesSign rounds with
    | some fixed =>
      let value := r.m_value * 2 ^ fixed.fractionalBits
      pure (value.den = 1 && fixed.isImplicitlyConvertibleTo convertTo)
    | none => pure false
  | .fixedBytes fixedBytes =>
    if !r.isFractional then do
      match ← r.integerType carriesSign rounds with
      | some type => pure (fixedBytes.m_bytes * 8 ≥ type.numBits)
      | none => throw .NullDereference
    else pure false
  | .other => pure false

end RationalNumberType

end Libsolidity

end Webthree
