import Webthree.Lib.BigEndian

/-!
# Base 58

`toBase58` and `fromBase58`, which convert a digit at a time in a buffer of estimated length. What the code may not do is an error: read
or erase behind the end of a buffer, fail an assertion, or increment an `int` beyond its largest value.
-/

namespace Webthree

inductive Base58Error where
  /-- "Invalid character in base-58 string" -/
  | invalid_argument
  | assertion
  | outOfBounds
  | overflow
deriving DecidableEq, Repr

/-- An `_alphabet`. -/
structure Base58Alphabet where
  chars : List Char
  length_eq : chars.length = 58
  nodup : chars.Nodup

def AlphabetIPFS : Base58Alphabet :=
  ⟨"123456789ABCDEFGHJKLMNPQRSTUVWXYZabcdefghijkmnopqrstuvwxyz".toList, by decide, by decide⟩

def AlphabetFlickr : Base58Alphabet :=
  ⟨"123456789abcdefghijkmnopqrstuvwxyzABCDEFGHJKLMNPQRSTUVWXYZ".toList, by decide, by decide⟩

namespace Base58

/-- What stands behind the characters of a string. -/
def terminator : Char := Char.ofNat 0

/-- `_alphabet[i]` -/
def charAt (alphabet : Base58Alphabet) (i : UInt8) : Except Base58Error Char :=
  match (alphabet.chars ++ [terminator])[i.toNat]? with
  | none => throw .outOfBounds
  | some c => return c

/-- `_alphabet[0]` -/
def first (alphabet : Base58Alphabet) : Char := alphabet.chars.headD terminator

/-- `zeroes++` -/
def increment (zeroes : Nat) : Except Base58Error Nat := if zeroes + 1 < 2 ^ 31 then return zeroes + 1 else throw .overflow

/-- The loop over a buffer from its end, and the carry that is left. -/
def carryLoop (factor base : Nat) : (it : Bytes) → (carry : Nat) → Bytes × Nat
  | [], carry => ([], carry)
  | x :: it, carry =>
    let carry := carry + factor * x.toNat
    let (it, carry') := carryLoop factor base it (carry / base)
    (UInt8.ofNat (carry % base) :: it, carry')

/-- "buffer = buffer * factor + carry", and the assertion that nothing is carried out. -/
def multiplyAdd (factor base : Nat) (buffer : Bytes) (carry : Nat) : Except Base58Error Bytes :=
  let (it, carry) := carryLoop factor base buffer.reverse carry
  if carry = 0 then return it.reverse else throw .assertion

/-- The loop over what is converted. -/
def convertLoop {α : Type} (factor base : Nat) (digit : α → Except Base58Error Nat) : List α → Bytes → Except Base58Error Bytes
  | [], buffer => return buffer
  | x :: xs, buffer => do
    let carry ← digit x
    let buffer ← multiplyAdd factor base buffer carry
    convertLoop factor base digit xs buffer

/-- "Skip and count leading '1's." At the end of the string its terminator is compared, and nothing is behind that. -/
def skipFirst (zero : Char) : (index : List Char) → (zeroes : Nat) → Except Base58Error (Nat × List Char)
  | [], zeroes => if terminator = zero then throw .outOfBounds else return (zeroes, [])
  | c :: index, zeroes => if c = zero then do skipFirst zero index (← increment zeroes) else return (zeroes, c :: index)

/-- `_alphabet.find(*index)` -/
def digitOf (alphabet : Base58Alphabet) (c : Char) : Except Base58Error Nat :=
  match alphabet.chars.idxOf? c with
  | none => throw .invalid_argument
  | some carry => return carry

/-- "Skip leading zeroes.", where `front` and `erase` need an element. -/
def eraseZeroes : Bytes → Except Base58Error Bytes
  | [] => throw .outOfBounds
  | x :: ret => if x = 0 then eraseZeroes ret else return x :: ret

/-- "Skip & count leading zeroes." -/
def skipZeroes : (begin : Bytes) → (zeroes : Nat) → Except Base58Error (Nat × Bytes)
  | [], zeroes => return (zeroes, [])
  | x :: begin, zeroes => if x = 0 then do skipZeroes begin (← increment zeroes) else return (zeroes, x :: begin)

end Base58

open Base58

def fromBase58 (s : List Char) (alphabet : Base58Alphabet) : Except Base58Error Bytes := do
  let (zeroes, index) ← skipFirst (first alphabet) s 0
  let ret := List.replicate ((s.length - zeroes) * 733 / 1000 + 1) 0
  let ret ← convertLoop 58 256 (digitOf alphabet) index ret
  let ret ← eraseZeroes ret
  return List.replicate zeroes 0 ++ ret

def toBase58 (d : Bytes) (alphabet : Base58Alphabet) : Except Base58Error (List Char) := do
  let (zeroes, begin) ← skipZeroes d 0
  let b58 := List.replicate (begin.length * 138 / 100 + 1) 0
  let b58 ← convertLoop 256 58 (fun x => return x.toNat) begin b58
  let ret ← (b58.dropWhile (· = 0)).mapM (charAt alphabet)
  return List.replicate zeroes '1' ++ ret

end Webthree
