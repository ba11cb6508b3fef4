import Webthree.Lib.BigEndian
import Mathlib.Data.BitVec
import Mathlib.Data.List.GetD

/-!
# Byte memories

A memory as the byte at every address, where the addresses go round. What is read are the bytes from an address on, and what is
written is read again; a write is not seen from far enough away in both directions.
-/

namespace Webthree

/-- A byte at every address of so many bits. -/
abbrev ByteMemory (w : Nat) := BitVec w → UInt8

namespace ByteMemory

variable {w : Nat}

/-- So many bytes from an address on. -/
def read (m : ByteMemory w) (a : BitVec w) (n : Nat) : Bytes := (List.range n).map fun i => m (a + BitVec.ofNat w i)

/-- Bytes written from an address on. -/
def write (m : ByteMemory w) (a : BitVec w) (bs : Bytes) : ByteMemory w := fun x => bs.getD (x - a).toNat (m x)

/-- So many bytes are read. -/
@[simp]
theorem length_read (m : ByteMemory w) (a : BitVec w) (n : Nat) : (m.read a n).length = n := by
  rw [read, List.length_map, List.length_range]

/-- A byte is read at its distance from the start. -/
@[simp]
theorem getElem_read (m : ByteMemory w) (a : BitVec w) {n i : Nat} (hi : i < (m.read a n).length) :
    (m.read a n)[i] = m (a + BitVec.ofNat w i) := by
  simp [read]

/-- The first bytes that are read are those of a shorter reading. -/
theorem take_read (m : ByteMemory w) (a : BitVec w) {k n : Nat} (h : k ≤ n) : (m.read a n).take k = m.read a k := by
  rw [read, ← List.map_take, List.take_range, Nat.min_eq_left h, read]

/-- A read of one range behind the other. -/
theorem read_add (m : ByteMemory w) (a : BitVec w) (n k : Nat) :
    m.read a (n + k) = m.read a n ++ m.read (a + BitVec.ofNat w n) k := by
  rw [read, read, read, List.range_add, List.map_append, List.map_map]
  congr 1
  refine List.map_congr_left fun i _ => ?_
  simp [BitVec.ofNat_add, BitVec.add_assoc]

/-- A read of many ranges of one size. -/
theorem read_mul (m : ByteMemory w) (a : BitVec w) (size k : Nat) :
    m.read a (size * k) = (List.range k).flatMap fun i => m.read (a + BitVec.ofNat w (size * i)) size := by
  induction k with
  | zero => rfl
  | succ k ih =>
    rw [Nat.mul_succ, read_add, ih, List.range_succ, List.flatMap_append]
    simp

/-- The distance from the start is found again. -/
theorem toNat_add_ofNat_sub (a : BitVec w) {i : Nat} (hi : i < 2 ^ w) : (a + BitVec.ofNat w i - a).toNat = i := by
  have hcancel : a + BitVec.ofNat w i - a = BitVec.ofNat w i := by ring
  rw [hcancel, BitVec.toNat_ofNat, Nat.mod_eq_of_lt hi]

/-- What was written is read. -/
theorem read_write (m : ByteMemory w) (a : BitVec w) {bs : Bytes} (h : bs.length ≤ 2 ^ w) : (m.write a bs).read a bs.length = bs := by
  refine List.ext_getElem (length_read _ _ _) fun i _ hi => ?_
  rw [getElem_read, write, toNat_add_ofNat_sub a (by omega), List.getD_eq_getElem bs _ hi]

/-- A write that is far enough away is not seen. -/
theorem read_write_apart (m : ByteMemory w) {a b : BitVec w} {bs : Bytes} {n : Nat} (hab : n ≤ (a - b).toNat)
    (hba : bs.length ≤ (b - a).toNat) : (m.write a bs).read b n = m.read b n := by
  refine List.map_congr_left fun i hi => ?_
  have hi := List.mem_range.mp hi
  rw [write, List.getD_eq_default]
  -- the address is behind what was written, and not so far behind that it is before it again
  have hsplit : b + BitVec.ofNat w i - a = b - a + BitVec.ofNat w i := by ring
  have hlt : i < 2 ^ w := by omega
  have hround : (b - a).toNat + i < 2 ^ w := by
    have hneg : a - b = -(b - a) := by ring
    rw [hneg, BitVec.toNat_neg] at hab
    have := (b - a).isLt
    by_cases hzero : (b - a).toNat = 0
    · omega
    · rw [Nat.mod_eq_of_lt (by omega)] at hab
      omega
  rw [hsplit, BitVec.toNat_add, BitVec.toNat_ofNat, Nat.mod_eq_of_lt hlt, Nat.mod_eq_of_lt hround]
  omega

/-- Writing what is there changes nothing. -/
theorem write_read (m : ByteMemory w) (a : BitVec w) (n : Nat) : m.write a (m.read a n) = m := by
  funext x
  rw [write]
  by_cases h : (x - a).toNat < (m.read a n).length
  · have hback : a + (x - a) = x := by ring
    rw [List.getD_eq_getElem _ _ h, getElem_read, BitVec.ofNat_toNat, BitVec.setWidth_eq, hback]
  · rw [List.getD_eq_default _ _ (Nat.le_of_not_lt h)]

end ByteMemory

end Webthree
