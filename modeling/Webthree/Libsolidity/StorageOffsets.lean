import Mathlib.Logic.Function.Basic
import Webthree.Evm.Instruction

/-!
# Positions in storage

`StorageOffsets::computeOffsets` and its use by `MemberList`. Of a type only what the positions depend on is kept.
-/

namespace Webthree

namespace Libsolidity

/-- What a type says about its values in storage, with what holds for all types of the language. -/
structure StorageType where
  canBeStored : Bool
  storageBytes : Nat
  storageSize : U256
  bytes_pos : 1 ≤ storageBytes
  bytes_le : storageBytes ≤ 32
  size_pos : 1 ≤ storageSize.toNat
  bytes_of_size : 1 < storageSize.toNat → storageBytes = 32

inductive StorageError where
  /-- "Object too large for storage." -/
  | TypeError
  /-- The assertion "Invalid storage size." fails. -/
  | InternalCompilerError
deriving DecidableEq, Repr

namespace StorageType

/-- `IntegerType`, where the constructor asserts what the number of bits is. An address is one of 160 bits. -/
def integer (m_bits : Nat) (h : 0 < m_bits ∧ m_bits ≤ 256 ∧ m_bits % 8 = 0) : StorageType where
  canBeStored := true
  storageBytes := m_bits / 8
  storageSize := 1
  bytes_pos := by omega
  bytes_le := by omega
  size_pos := by decide
  bytes_of_size := fun h => absurd h (by decide)

def address : StorageType := integer 160 (by decide)

/-- A type that says nothing of its own, such as `MappingType` or `ArrayType` of dynamic length. -/
def slot : StorageType where
  canBeStored := true
  storageBytes := 32
  storageSize := 1
  bytes_pos := by decide
  bytes_le := by decide
  size_pos := by decide
  bytes_of_size := fun _ => rfl

/-- The number of slots of `ArrayType` of fixed length. -/
def arraySlots (baseType : StorageType) (m_length : U256) : Nat :=
  if baseType.storageBytes = 0 then 1
  else if baseType.storageBytes < 32 then
    let itemsPerSlot := 32 / baseType.storageBytes
    (m_length.toNat + (itemsPerSlot - 1)) / itemsPerSlot
  else m_length.toNat * baseType.storageSize.toNat

/-- `ArrayType` of fixed length, which throws "Array too large for storage." when it is asked for its size. -/
def array (baseType : StorageType) (m_length : U256) : Except StorageError StorageType :=
  if h : arraySlots baseType m_length < 2 ^ 256 then
    .ok
      { canBeStored := true
        storageBytes := 32
        storageSize := BitVec.ofNat 256 (max 1 (arraySlots baseType m_length))
        bytes_pos := by decide
        bytes_le := by decide
        size_pos := by rw [BitVec.toNat_ofNat, Nat.mod_eq_of_lt (by omega)]; omega
        bytes_of_size := fun _ => rfl }
  else .error .TypeError

end StorageType

structure StorageOffsets where
  m_storageSize : U256
  m_offsets : Nat → Option (U256 × Nat)

namespace StorageOffsets

/-- The local variables of the loop over the types. -/
structure Cursor where
  slotOffset : Nat
  byteOffset : Nat
  offsets : Nat → Option (U256 × Nat)

namespace Cursor

/-- The slot and the byte where a type goes. -/
def room (c : Cursor) (type : StorageType) : Nat × Nat :=
  if c.byteOffset + type.storageBytes > 32 then (c.slotOffset + 1, 0) -- would overflow, go to next slot
  else (c.slotOffset, c.byteOffset)

/-- The slot and the byte behind a type. -/
def behind (type : StorageType) (slotOffset byteOffset : Nat) : Nat × Nat :=
  if type.storageSize = 1 ∧ byteOffset + type.storageBytes ≤ 32 then (slotOffset, byteOffset + type.storageBytes)
  else (slotOffset + type.storageSize.toNat, 0)

/-- The body of the loop. -/
def step (c : Cursor) (i : Nat) (type : StorageType) : Except StorageError Cursor :=
  if !type.canBeStored then .ok c
  else
    let room := c.room type
    if 2 ^ 256 ≤ room.1 then .error .TypeError
    else
      let offsets := Function.update c.offsets i (some (BitVec.ofNat 256 room.1, room.2))
      if type.storageSize < 1 then .error .InternalCompilerError
      else
        let behind := behind type room.1 room.2
        .ok ⟨behind.1, behind.2, offsets⟩

/-- The loop, from an index on. -/
def loop (c : Cursor) (i : Nat) : List StorageType → Except StorageError Cursor
  | [] => .ok c
  | type :: types =>
    match c.step i type with
    | .ok c => c.loop (i + 1) types
    | .error e => .error e

end Cursor

def computeOffsets (types : List StorageType) : Except StorageError StorageOffsets :=
  match Cursor.loop ⟨0, 0, fun _ => none⟩ 0 types with
  | .error e => .error e
  | .ok c =>
    let slotOffset := if c.byteOffset > 0 then c.slotOffset + 1 else c.slotOffset
    if 2 ^ 256 ≤ slotOffset then .error .TypeError
    else .ok ⟨BitVec.ofNat 256 slotOffset, c.offsets⟩

/-- `offset` -/
def offset (s : StorageOffsets) (index : Nat) : Option (U256 × Nat) := s.m_offsets index

end StorageOffsets

structure Member where
  name : String
  type : StorageType

/-- `MemberList`, whose positions are computed when one is asked for. -/
structure MemberList where
  m_memberTypes : List Member
  m_storageOffsets : Option StorageOffsets

namespace MemberList

abbrev MemberM := EStateM StorageError MemberList

/-- The computation of the positions, unless there are some. Those that cannot be computed are left empty. -/
def ensureOffsets : MemberM StorageOffsets := do
  let l ← get
  match l.m_storageOffsets with
  | some offsets => return offsets
  | none =>
    set { l with m_storageOffsets := some ⟨0, fun _ => none⟩ }
    match StorageOffsets.computeOffsets (l.m_memberTypes.map Member.type) with
    | .error e => throw e
    | .ok offsets =>
      set { l with m_storageOffsets := some offsets }
      return offsets

/-- `memberStorageOffset`: that of the first member of the name. -/
def memberStorageOffset (name : String) : MemberM (Option (U256 × Nat)) := do
  let offsets ← ensureOffsets
  let l ← get
  return (l.m_memberTypes.findIdx? fun m => m.name = name).bind offsets.offset

/-- `storageSize` -/
def storageSize : MemberM U256 := do
  let offsets ← ensureOffsets
  return offsets.m_storageSize

end MemberList

end Libsolidity

end Webthree
