import Webthree.Common
import Webthree.Lib.Patch

/-!
# Hashes and their bytes

`FixedHash` on the way to a stream and back: the bytes of an address or a bloom, and a hash with the bytes that were read.
-/

namespace Webthree

/-- The bytes of a `FixedHash` of `n` bytes. -/
def hashBytes (n : Nat) {w : Nat} (a : BitVec w) : Bytes := toBigEndianIn n a.toNat

/-- The `FixedHash` of so many bits with these bytes. -/
def hashOfBytes (w : Nat) (b : Bytes) : BitVec w := BitVec.ofNat w (fromBigEndian b)

/-- `h256` of the bytes that were read for it. -/
def H256.ofBytes (b : Bytes) : H256 := if h : b.length = 32 then ⟨b, h⟩ else H256.ofU256 0

theorem fromBigEndian_lt (b : Bytes) : fromBigEndian b < 256 ^ b.length := by
  induction b using List.reverseRecOn with
  | nil => exact Nat.zero_lt_one
  | append_singleton b x ih =>
    have hx : x.toNat < 256 := x.toNat_lt
    rw [fromBigEndian_concat, List.length_append, List.length_singleton, Nat.pow_succ]
    omega

/-- Bytes are the bytes of the number they stand for. -/
theorem toBigEndianIn_fromBigEndian (b : Bytes) : toBigEndianIn b.length (fromBigEndian b) = b := by
  induction b using List.reverseRecOn with
  | nil => rfl
  | append_singleton b x ih =>
    have hx : x.toNat < 256 := x.toNat_lt
    have hdiv : (256 * fromBigEndian b + x.toNat) / 256 = fromBigEndian b := by omega
    have hbyte : UInt8.ofNat (256 * fromBigEndian b + x.toNat) = x := by
      apply UInt8.toNat_inj.mp
      rw [UInt8.toNat_ofNat']
      omega
    rw [List.length_append, List.length_singleton, toBigEndianIn, fromBigEndian_concat, hdiv, hbyte, ih]

section

variable {n w : Nat}

@[simp]
theorem length_hashBytes (a : BitVec w) : (hashBytes n a).length = n := length_toBigEndianIn n _

variable (hw : w = 8 * n)

include hw

/-- As many values in bits as in bytes. -/
theorem two_pow_bits : 2 ^ w = 256 ^ n := by rw [hw, Nat.pow_mul]

theorem hashOfBytes_hashBytes (a : BitVec w) : hashOfBytes w (hashBytes n a) = a := by
  apply BitVec.eq_of_toNat_eq
  rw [hashOfBytes, hashBytes, fromBigEndian_toBigEndianIn, BitVec.toNat_ofNat, ← two_pow_bits hw, Nat.mod_mod,
    Nat.mod_eq_of_lt a.isLt]

theorem hashBytes_hashOfBytes {b : Bytes} (hb : b.length = n) : hashBytes n (hashOfBytes w b) = b := by
  have hlt := fromBigEndian_lt b
  rw [hb, ← two_pow_bits hw] at hlt
  rw [hashBytes, hashOfBytes, BitVec.toNat_ofNat, Nat.mod_eq_of_lt hlt, ← hb, toBigEndianIn_fromBigEndian]

end

namespace H256

/-- Bytes taken out of a number by shifts are its last bytes. -/
theorem map_shift_eq (n v : Nat) : (List.range n).map (fun i => UInt8.ofNat (v >>> (8 * (n - 1 - i)))) = toBigEndianIn n v := by
  induction n generalizing v with
  | zero => rfl
  | succ n ih =>
    rw [List.range_succ, List.map_append, toBigEndianIn, ← ih]
    congr 1
    · refine List.map_congr_left fun i hi => ?_
      have hi' := List.mem_range.mp hi
      have hplace : 8 * (n + 1 - 1 - i) = 8 + 8 * (n - 1 - i) := by omega
      rw [hplace, Nat.shiftRight_add, Nat.shiftRight_eq_div_pow v 8]
    · simp

theorem bytes_ofU256 (x : U256) : (ofU256 x).bytes = toBigEndianIn 32 x.toNat := map_shift_eq 32 x.toNat

theorem toU256_ofU256 (x : U256) : (ofU256 x).toU256 = x := by
  apply BitVec.eq_of_toNat_eq
  rw [toU256, bytes_ofU256, fromBigEndian_toBigEndianIn, BitVec.toNat_ofNat]
  have := x.isLt
  omega

theorem ofU256_toU256 (h : H256) : ofU256 h.toU256 = h := by
  have hbytes : (ofU256 h.toU256).bytes = h.bytes := by
    have hlt := fromBigEndian_lt h.bytes
    rw [h.length_eq] at hlt
    rw [bytes_ofU256, toU256, BitVec.toNat_ofNat, Nat.mod_eq_of_lt (by omega), ← h.length_eq, toBigEndianIn_fromBigEndian]
  cases h
  cases hx : ofU256 _
  simp_all

theorem ofBytes_bytes (h : H256) : ofBytes h.bytes = h := dif_pos h.length_eq

theorem bytes_ofBytes {b : Bytes} (h : b.length = 32) : (ofBytes b).bytes = b := by rw [ofBytes, dif_pos h]

end H256

end Webthree
