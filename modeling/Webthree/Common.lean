import Webthree.Lib.BigEndian

/-!
# Fixed-width types

`u256`, `h160` and `h256`, and the conversions between them.
-/

namespace Webthree

/-- `u256` -/
abbrev U256 := BitVec 256

/-- `Address`, an `h160`. -/
abbrev Address := BitVec 160

/-- `h256` -/
structure H256 where
  bytes : Bytes
  length_eq : bytes.length = 32
deriving DecidableEq, Repr

namespace H256

/-- `(u256)_h` -/
def toU256 (h : H256) : U256 := BitVec.ofNat 256 (fromBigEndian h.bytes)

/-- `(h256)_u` -/
def ofU256 (x : U256) : H256 :=
  ⟨(List.range 32).map fun i => UInt8.ofNat (x.toNat >>> (8 * (31 - i))), by rw [List.length_map, List.length_range]⟩

/-- `right160`, the last twenty bytes. -/
def right160 (h : H256) : Address := h.toU256.truncate 160

/-- `firstBitSet`, counted from the most significant bit; 256 if there is none. -/
def firstBitSet (x : U256) : Nat := if x = 0 then 256 else 255 - x.toNat.log2

end H256

/-- `asAddress`: the low-order 160 bits of a stack entry. -/
def asAddress (item : U256) : Address := item.truncate 160

/-- `fromAddress` -/
def fromAddress (a : Address) : U256 := a.zeroExtend 256

/-- `u2s` -/
def u2s (u : U256) : Int := u.toInt

/-- `s2u` -/
def s2u (s : Int) : U256 := BitVec.ofInt 256 s

/-- `boost::multiprecision::powm` -/
@[semireducible] def powm (b e m : Nat) : Nat :=
  if e = 0 then 1 % m
  else
    let r := powm (b * b % m) (e / 2) m
    if e % 2 = 1 then b * r % m else r
termination_by e
decreasing_by omega

end Webthree
