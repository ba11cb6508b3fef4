import Webthree.Asm.AssemblyItem
import Webthree.Lib.Patch
import Webthree.Lib.Table
import Mathlib.Data.List.Sort

/-!
# Assembling

`Assembly::assemble`, for an assembly that has not been assembled before: what its parts assemble to does not change in between, so
the object that is kept for the next time is left out. A position that is kept in an `unsigned` is one modulo `2 ^ 32`.
-/

namespace Webthree

/-- The conversion to `unsigned`. -/
def unsigned (n : Nat) : Nat := n % 2 ^ 32

/-- The conversion to `size_t`. -/
def size_t (n : Nat) : Nat := n % 2 ^ 64

inductive AssemblyError where
  | InvalidOpcode
  | AssemblyException
  /-- `at` does not find the key. -/
  | out_of_range
  /-- An element beyond the end of a vector is used. -/
  | undefined
deriving DecidableEq, Repr

structure LinkerObject where
  bytecode : Bytes
  /-- Map from offsets in bytecode to library identifiers. -/
  linkReferences : List (Nat × String)
deriving DecidableEq, Repr

namespace LinkerObject

def append (ret other : LinkerObject) : LinkerObject where
  bytecode := ret.bytecode ++ other.bytecode
  linkReferences := ret.linkReferences ++ other.linkReferences.map fun ref => (ref.1 + ret.bytecode.length, ref.2)

end LinkerObject

structure Assembly where
  m_usedTags : UInt32
  m_items : List AssemblyItem
  m_data : List (U256 × Bytes)
  m_data_sorted : m_data.Pairwise fun d d' => d.1 < d'.1
  m_subs : List Assembly
  m_strings : Assoc U256 Bytes
  m_libraries : Assoc U256 String

/-- The bytes that an item takes, where an address takes `addressLength` bytes. -/
def AssemblyItem.bytesRequired (addressLength : Nat) (i : AssemblyItem) : Except AssemblyError Nat :=
  match i.type with
  | .Operation | .Tag => .ok 1
  | .PushString => .ok 33
  | .Push => .ok (1 + max 1 (Webthree.bytesRequired i.data.toNat))
  | .PushSubSize | .PushProgramSize => .ok 4 -- worst case: a 16MB program
  | .PushTag | .PushData | .PushSub => .ok (1 + addressLength)
  | .PushLibraryAddress => .ok 21
  | .UndefinedItem => .error .InvalidOpcode

namespace Assembly

/-- The bytes that the assembly takes, where an address takes `br` bytes. -/
def bytesRequiredWith (a : Assembly) (br : Nat) : Except AssemblyError Nat := do
  let items ← a.m_items.mapM (AssemblyItem.bytesRequired br)
  return unsigned (1 + (a.m_data.map fun d => d.2.length).sum + items.sum)

/-- The loop from `br` on. With four bytes it ends, as the result has no more, so `n` is what is missing. -/
def bytesRequiredFrom (a : Assembly) : Nat → Nat → Except AssemblyError Nat
  | 0, br => a.bytesRequiredWith br
  | n + 1, br => do
    let ret ← a.bytesRequiredWith br
    if Webthree.bytesRequired ret ≤ br then return ret else a.bytesRequiredFrom n (br + 1)

def bytesRequired (a : Assembly) : Except AssemblyError Nat := a.bytesRequiredFrom 3 1

/-- The local variables of `assemble`, with the object. -/
structure Locals where
  ret : LinkerObject
  tagPos : List Nat
  tagRef : Assoc Nat Nat
  dataRef : List (U256 × Nat)
  subRef : List (Nat × Nat)
  /-- Pointers to code locations where the size of the program is inserted. -/
  sizeRef : List Nat

namespace Locals

/-- Where the next byte comes. -/
def size (s : Locals) : Nat := s.ret.bytecode.length

/-- An instruction with its operand. -/
def put (s : Locals) (instruction : Nat) (operand : Bytes) : Locals :=
  { s with ret.bytecode := s.ret.bytecode ++ UInt8.ofNat instruction :: operand }

/-- Store position of the invalid jump destination. -/
def noteInvalid (s : Locals) (i : AssemblyItem) : Except AssemblyError Locals :=
  if i.type = .Tag then return s
  else
    match s.tagPos with
    | [] => throw .undefined
    | p :: ps => return { s with tagPos := (if p = 0 then unsigned s.size else p) :: ps }

end Locals

/-- The instruction that pushes so many bytes. -/
def pushInstruction (n : Nat) : Nat := 0x60 - 1 + n

/-- The smallest push of a number. -/
def putNumber (s : Locals) (v : Nat) : Locals :=
  let b := max 1 (Webthree.bytesRequired v)
  s.put (pushInstruction b) (toBigEndianIn b v)

/-- One turn of the loop over the items, where `subs` is what the parts assemble to. -/
def assembleItem (a : Assembly) (subs : List LinkerObject) (bytesPerTag bytesPerDataRef : Nat) (s : Locals) (i : AssemblyItem) :
    Except AssemblyError Locals := do
  let s ← s.noteInvalid i
  match i.type with
  | .Operation => return s.put i.data.toNat []
  | .PushString =>
    match a.m_strings.find i.data with
    | none => throw .out_of_range
    | some string => return s.put (pushInstruction 32) (string.take 32 ++ List.replicate (32 - string.length) 0)
  | .Push => return putNumber s i.data.toNat
  | .PushTag =>
    let tagRef := s.tagRef.set (unsigned (s.size + 1)) (unsigned i.data.toNat)
    return { s with tagRef }.put (pushInstruction bytesPerTag) (List.replicate bytesPerTag 0)
  | .PushData =>
    let dataRef := s.dataRef ++ [(i.data, unsigned (s.size + 1))]
    return { s with dataRef }.put (pushInstruction bytesPerDataRef) (List.replicate bytesPerDataRef 0)
  | .PushSub =>
    let subRef := s.subRef ++ [(size_t i.data.toNat, s.size + 1)]
    return { s with subRef }.put (pushInstruction bytesPerDataRef) (List.replicate bytesPerDataRef 0)
  | .PushSubSize =>
    match subs[size_t i.data.toNat]? with
    | none => throw .out_of_range
    | some sub => return putNumber s sub.bytecode.length
  | .PushProgramSize =>
    let sizeRef := s.sizeRef ++ [unsigned (s.size + 1)]
    return { s with sizeRef }.put (pushInstruction bytesPerDataRef) (List.replicate bytesPerDataRef 0)
  | .PushLibraryAddress =>
    match a.m_libraries.find i.data with
    | none => throw .out_of_range
    | some name =>
      let linkReferences := s.ret.linkReferences ++ [(s.size + 1, name)]
      return { s with ret.linkReferences := linkReferences }.put (pushInstruction 20) (List.replicate 20 0)
  | .Tag =>
    if s.tagPos.length ≤ unsigned i.data.toNat then throw .undefined
    let tagPos := s.tagPos.set (unsigned i.data.toNat) (unsigned s.size)
    if i.data = 0 then throw .AssemblyException
    return { s with tagPos }.put 0x5b []
  | .UndefinedItem => throw .InvalidOpcode

/-- The position of a tag that is referred to. -/
def tagPosition (tagPos : List Nat) (tag : Nat) : Except AssemblyError Nat :=
  let tag := if tagPos.length ≤ tag then 0 else tag
  match tagPos[tag]? with
  | none => throw .undefined
  | some p => if tag = 0 ∧ p = 0 then throw .AssemblyException else return p

/-- The loop over `tagRef`, which goes by the places. -/
def resolveTags (bytesPerTag : Nat) (s : Locals) : Except AssemblyError Bytes :=
  (s.tagRef.insertionSort fun i j => i.1 ≤ j.1).foldlM (fun code i => do
    let p ← tagPosition s.tagPos i.2
    return store code i.1 (toBigEndianIn bytesPerTag p)) s.ret.bytecode

/-- The places under a key. -/
def equal_range {κ : Type} [DecidableEq κ] (refs : List (κ × Nat)) (k : κ) : List Nat :=
  (refs.filter fun r => r.1 = k).map Prod.snd

/-- The size of the code, written to places in it. -/
def storeSize (bytesPerDataRef : Nat) (code : Bytes) (references : List Nat) : Bytes :=
  storeAll code (references.map fun r => (r, toBigEndianIn bytesPerDataRef code.length))

/-- Append an object that is referred to. -/
def place (bytesPerDataRef : Nat) (ret : LinkerObject) (references : List Nat) (object : LinkerObject) : LinkerObject :=
  if references = [] then ret
  else { ret with bytecode := storeSize bytesPerDataRef ret.bytecode references }.append object

/-- `assemble`, with what is required and what the parts assemble to. -/
def assembleWith (a : Assembly) (totalBytes : Nat) (subs : List LinkerObject) : Except AssemblyError LinkerObject := do
  let bytesPerTag := Webthree.bytesRequired totalBytes
  let bytesRequiredIncludingData := unsigned (totalBytes + (subs.map fun sub => sub.bytecode.length).sum)
  let bytesPerDataRef := Webthree.bytesRequired bytesRequiredIncludingData
  let s ← a.m_items.foldlM (a.assembleItem subs bytesPerTag bytesPerDataRef)
    ⟨⟨[], []⟩, List.replicate a.m_usedTags.toNat 0, [], [], [], []⟩
  let code ← resolveTags bytesPerTag s
  let code := if s.dataRef ≠ [] ∧ s.subRef ≠ [] then code ++ [0] else code
  let ret := subs.zipIdx.foldl (fun ret sub => place bytesPerDataRef ret (equal_range s.subRef sub.2) sub.1)
    { s.ret with bytecode := code }
  let ret := a.m_data.foldl (fun ret d => place bytesPerDataRef ret (equal_range s.dataRef d.1) ⟨d.2, []⟩) ret
  return { ret with bytecode := storeSize bytesPerDataRef ret.bytecode s.sizeRef }

mutual

def assemble : Assembly → Except AssemblyError LinkerObject
  | ⟨usedTags, items, data, sorted, subs, strings, libraries⟩ => do
    let a : Assembly := ⟨usedTags, items, data, sorted, subs, strings, libraries⟩
    let totalBytes ← a.bytesRequired
    let objects ← assembleAll subs
    a.assembleWith totalBytes objects

/-- The parts, one after the other. -/
def assembleAll : List Assembly → Except AssemblyError (List LinkerObject)
  | [] => return []
  | sub :: subs => do
    let object ← sub.assemble
    let objects ← assembleAll subs
    return object :: objects

end

end Assembly

end Webthree
