import Webthree.Rlp.Convert
import Webthree.Trie.TrieCommon

/-!
# Hex-prefix keys in bytes

The overloads of `hexPrefixEncode`, `NibbleSlice`, `keyOf` and `isLeaf` as they index bytes. Offsets are natural numbers where they are
`unsigned` and integers where they are `int`, so that what is said of them is about buffers of fewer than 2^31 nibbles; a byte behind the
end of a buffer is an error.
-/

namespace Webthree

namespace HexPrefix

inductive HexPrefixError where
  | outOfRange
  | assertionFailed
  | rlp (e : RLPError)
deriving DecidableEq, Repr

/-- `operator[]` of a buffer. -/
def byteAt (data : Bytes) (i : Nat) : Except HexPrefixError UInt8 :=
  match data[i]? with
  | none => throw .outOfRange
  | some b => return b

/-- `nibble(_data, _i)` -/
def nibble (data : Bytes) (i : Nat) : Except HexPrefixError UInt8 := do
  let b ← byteAt data (i / 2)
  return if i % 2 = 1 then b &&& 15 else b >>> 4

/-! ## Writing -/

/-- The loop of `hexPrefixEncode` over a nibble vector. -/
@[semireducible] def packLoop (hexVector : Bytes) (last i : Nat) (ret : Bytes) : Except HexPrefixError Bytes := do
  if i < last then
    let n ← byteAt hexVector i
    let m ← byteAt hexVector (i + 1)
    packLoop hexVector last (i + 2) (ret ++ [n * 16 + m])
  else return ret
termination_by last - i

/-- `hexPrefixEncode(_hexVector, _leaf, _begin, _end)` -/
def hexPrefixEncode (hexVector : Bytes) (leaf : Bool) (b e : Int) : Except HexPrefixError Bytes := do
  let first := b.toNat
  let last := (if e < 0 then hexVector.length + 1 + e else e).toNat
  let odd := (last - first) % 2 ≠ 0
  if odd then
    let n ← byteAt hexVector first
    packLoop hexVector last (first + 1) [hexPrefixFlags leaf odd ||| n]
  else packLoop hexVector last first [hexPrefixFlags leaf odd]

/-- The loops of the other overloads: `d` is odd when the nibble goes onto the back of the string. -/
@[semireducible] def nibbleLoop (data : Bytes) (last i : Nat) (st : Bytes × Nat) : Except HexPrefixError (Bytes × Nat) := do
  if i < last then
    let n ← nibble data i
    let ret := if st.2 &&& 1 ≠ 0 then st.1.dropLast ++ [st.1.getLastD 0 ||| n] else st.1 ++ [n <<< 4]
    nibbleLoop data last (i + 1) (ret, st.2 + 1)
  else return st
termination_by last - i

/-- `hexPrefixEncode(_data, _leaf, _beginNibble, _endNibble, _offset)` -/
def hexPrefixEncodeRef (data : Bytes) (leaf : Bool) (beginNibble endNibble : Int) (offset : Nat) : Except HexPrefixError Bytes := do
  let first := (beginNibble + offset).toNat
  let last := ((if endNibble < 0 then (data.length * 2 - offset) + 1 + endNibble else endNibble) + offset).toNat
  let odd := (last - first) &&& 1 ≠ 0
  let st ← nibbleLoop data last first ([hexPrefixFlags leaf odd], if odd then 1 else 2)
  return st.1

/-- `hexPrefixEncode(_d1, _o1, _d2, _o2, _leaf)` -/
def hexPrefixEncodeRefs (d1 : Bytes) (o1 : Nat) (d2 : Bytes) (o2 : Nat) (leaf : Bool) : Except HexPrefixError Bytes := do
  let end1 := d1.length * 2
  let end2 := d2.length * 2
  let odd := (end1 - o1 + end2 - o2) &&& 1 ≠ 0
  let st ← nibbleLoop d1 end1 o1 ([hexPrefixFlags leaf odd], if odd then 1 else 2)
  let st ← nibbleLoop d2 end2 o2 st
  return st.1

/-! ## Reading -/

/-- `NibbleSlice` -/
structure Slice where
  data : Bytes
  offset : Nat
deriving DecidableEq, Repr

def Slice.size (s : Slice) : Nat := s.data.length * 2 - s.offset

/-- `operator[]` of a slice. -/
def Slice.get (s : Slice) (i : Nat) : Except HexPrefixError UInt8 := nibble s.data (s.offset + i)

/-- `keyOf(_hpe)` -/
def keyOfBytes (hpe : Bytes) : Except HexPrefixError Slice := do
  if hpe.length = 0 then return ⟨hpe, 0⟩
  else if (← byteAt hpe 0) &&& 0x10 ≠ 0 then return ⟨hpe, 1⟩
  else return ⟨hpe, 2⟩

/-- What the class `RLP` throws is thrown. -/
def liftRlp {α : Type} (x : Except RLPError α) : Except HexPrefixError α := x.mapError .rlp

/-- `_twoItem[0].payload()` -/
def keyPayload (twoItem : RLP) : Except HexPrefixError Bytes := do
  let key ← liftRlp (twoItem.index 0)
  let pl ← liftRlp key.payload
  return pl.toBytes

/-- `keyOf(_twoItem)` -/
def keyOf (twoItem : RLP) : Except HexPrefixError Slice := do keyOfBytes (← keyPayload twoItem)

def isLeaf (twoItem : RLP) : Except HexPrefixError Bool := do
  let count ← liftRlp twoItem.itemCount
  if twoItem.isList ∧ count = 2 then
    let pl ← keyPayload twoItem
    return (← byteAt pl 0) &&& 0x20 ≠ 0
  else throw .assertionFailed

end HexPrefix

end Webthree
