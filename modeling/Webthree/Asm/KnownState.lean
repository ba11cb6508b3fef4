import Webthree.Asm.ExpressionClasses
import Webthree.Common
import Mathlib.Data.Finset.Basic
import Mathlib.Data.List.Basic

/-!
# Known states

`KnownState`: what is known about the stack, the memory and the storage of the machine at an instruction, as classes of expressions.
The classes are shared with other known states, so that a function on a known state is a computation on the classes that returns the
next one. Maps are lists in the order of their keys. The sequence number is not bounded, and locations, whether an item is copied,
and the comparison and the output of known states are left out. The class of an expression is found with so many levels.
-/

namespace Webthree

open ExpressionClasses (Id M find newClass representative knownConstant knownToBeDifferent knownToBeDifferentBy32)

inductive StoreOperation.Target where
  | Memory
  | Storage
deriving DecidableEq, Repr

/-- An operation that is not invalid. -/
structure StoreOperation where
  target : StoreOperation.Target
  slot : Id
  sequenceNumber : Nat
  expression : Id
deriving DecidableEq, Repr

structure KnownState where
  /-- Current stack height, can be negative. -/
  m_stackHeight : Int := 0
  /-- Current stack layout, mapping stack height -> equivalence class -/
  m_stackElements : Assoc Int Id := []
  /-- Current sequence number, this is incremented with each modification to storage or memory; no run is so long that the `unsigned` of
  the source wraps, which takes 2^31 modifications. -/
  m_sequenceNumber : Nat := 1
  /-- Knowledge about storage content. -/
  m_storageContent : Assoc Id Id := []
  /-- Knowledge about memory content. Keys are memory addresses. -/
  m_memoryContent : Assoc Id Id := []
  /-- Keeps record of all sha3 hashes that are computed. -/
  m_knownSha3Hashes : Assoc (List Id) Id := []
  /-- Container for unions of tags stored on the stack. -/
  m_tagUnions : Assoc Id (Finset U256) := []
deriving DecidableEq

namespace KnownState

open SemanticInformation

variable (sha3 : Bytes → U256) (n : Nat)

def resetStorage (σ : KnownState) : KnownState := { σ with m_storageContent := [] }

def resetMemory (σ : KnownState) : KnownState := { σ with m_memoryContent := [] }

def resetStack (σ : KnownState) : KnownState := { σ with m_stackElements := [], m_stackHeight := 0 }

def reset (σ : KnownState) : KnownState := σ.resetStorage.resetMemory.resetStack

/-! ## The stack -/

def setStackElement (σ : KnownState) (stackHeight : Int) (c : Id) : KnownState :=
  { σ with m_stackElements := σ.m_stackElements.setSorted (stackHeight, c) }

def stackElement (σ : KnownState) (stackHeight : Int) : M (Id × KnownState) :=
  match σ.m_stackElements.find stackHeight with
  | some c => return (c, σ)
  | none => do
    -- Stack element not found (not assigned yet), create new unknown equivalence class.
    let c ← find n ⟨.UndefinedItem, BitVec.ofInt 256 stackHeight, nofun⟩ [] 0
    return (c, σ.setStackElement stackHeight c)

def swapStackElements (σ : KnownState) (stackHeightA stackHeightB : Int) : M KnownState := do
  if stackHeightA = stackHeightB then throw .OptimizerException
  else
    -- ensure they are created
    let (a, σ) ← stackElement n σ stackHeightA
    let (b, σ) ← stackElement n σ stackHeightB
    return (σ.setStackElement stackHeightA b).setStackElement stackHeightB a

/-- The loop over the arguments of an instruction, from the height down. -/
def stackArguments (stackHeight : Int) : Nat → KnownState → M (List Id × KnownState)
  | 0, σ => return ([], σ)
  | k + 1, σ => do
    let (a, σ) ← stackElement n σ stackHeight
    let (as, σ) ← stackArguments (stackHeight - 1) k σ
    return (a :: as, σ)

/-! ## Storage and memory -/

/-- The loop that copies the entries of which the condition holds. -/
def copied (p : Id × Id → M Bool) : Assoc Id Id → M (Assoc Id Id)
  | [] => return []
  | e :: l => do
    let keep ← p e
    let l ← copied p l
    return if keep then e :: l else l

def storeInStorage (σ : KnownState) (slot value : Id) : M (Option StoreOperation × KnownState) := do
  -- do not execute the storage if we know that the value is already there
  if σ.m_storageContent.find slot = some value then return (none, σ)
  else
    let sequenceNumber := σ.m_sequenceNumber + 1
    let storageContents ← copied (fun e => do return (← knownToBeDifferent n e.1 slot) || e.2 = value) σ.m_storageContent
    let id ← find n (.ofInstruction .SSTORE) [slot, value] sequenceNumber
    return (some ⟨.Storage, slot, sequenceNumber, id⟩,
      -- increment a second time so that we get unique sequence numbers for writes
      { σ with m_storageContent := storageContents.setSorted (slot, value), m_sequenceNumber := sequenceNumber + 1 })

def loadFromStorage (σ : KnownState) (slot : Id) : M (Id × KnownState) :=
  match σ.m_storageContent.find slot with
  | some c => return (c, σ)
  | none => do
    let c ← find n (.ofInstruction .SLOAD) [slot] σ.m_sequenceNumber
    return (c, { σ with m_storageContent := σ.m_storageContent.setSorted (slot, c) })

def storeInMemory (σ : KnownState) (slot value : Id) : M (Option StoreOperation × KnownState) := do
  -- do not execute the store if we know that the value is already there
  if σ.m_memoryContent.find slot = some value then return (none, σ)
  else
    let sequenceNumber := σ.m_sequenceNumber + 1
    -- copy over values at points where we know that they are different from _slot by at least 32
    let memoryContents ← copied (fun e => knownToBeDifferentBy32 n e.1 slot) σ.m_memoryContent
    let id ← find n (.ofInstruction .MSTORE) [slot, value] sequenceNumber
    return (some ⟨.Memory, slot, sequenceNumber, id⟩,
      -- increment a second time so that we get unique sequence numbers for writes
      { σ with m_memoryContent := memoryContents.setSorted (slot, value), m_sequenceNumber := sequenceNumber + 1 })

def loadFromMemory (σ : KnownState) (slot : Id) : M (Id × KnownState) :=
  match σ.m_memoryContent.find slot with
  | some c => return (c, σ)
  | none => do
    let c ← find n (.ofInstruction .MLOAD) [slot] σ.m_sequenceNumber
    return (c, { σ with m_memoryContent := σ.m_memoryContent.setSorted (slot, c) })

/-! ## Hashes -/

/-- The values of `i` in `for (u256 i = 0; i < *l; i += 32)`. -/
def offsets (l : U256) : List U256 := (List.range ((l.toNat + 31) / 32)).map fun k => BitVec.ofNat 256 (32 * k)

/-- The loop that loads the words at the offsets. -/
def loadWords (start : Id) : List U256 → KnownState → M (List Id × KnownState)
  | [], σ => return ([], σ)
  | i :: is, σ => do
    let c ← find n (.push i) [] 0
    let slot ← find n (.ofInstruction .ADD) [start, c] 0
    let (word, σ) ← loadFromMemory n σ slot
    let (words, σ) ← loadWords start is σ
    return (word :: words, σ)

/-- Special logic if length is a short constant, otherwise we cannot tell. -/
def shortLength (length : Id) : M (Option U256) := do
  match ← knownConstant length with
  | none => return none
  | some l => return if l > 128 then none else some l

/-- `data`, the first bytes of the words. -/
def dataOf (words : List U256) (l : U256) : Bytes := (words.flatMap fun c => (H256.ofU256 c).bytes).take l.toNat

/-- The class for the hash of words that is not known yet. -/
def hashWords (σ : KnownState) (start length : Id) (l : U256) (arguments : List Id) : M Id := do
  let constants ← arguments.mapM knownConstant
  -- If all arguments are known constants, compute the sha3 here
  if constants.all Option.isSome then find n (.push (sha3 (dataOf constants.reduceOption l))) [] 0
  else find n (.ofInstruction .SHA3) [start, length] σ.m_sequenceNumber

def applySha3 (σ : KnownState) (start length : Id) : M (Id × KnownState) := do
  match ← shortLength length with
  -- unknown or too large length
  | none =>
    let v ← find n (.ofInstruction .SHA3) [start, length] σ.m_sequenceNumber
    return (v, σ)
  | some l =>
    let (arguments, σ) ← loadWords n start (offsets l) σ
    match σ.m_knownSha3Hashes.find arguments with
    | some v => return (v, σ)
    | none =>
      let v ← hashWords sha3 n σ start length l arguments
      return (v, { σ with m_knownSha3Hashes := σ.m_knownSha3Hashes.set arguments v })

/-! ## Items -/

/-- What the other instructions invalidate. -/
def invalidate (σ : KnownState) (instruction : Instruction) : KnownState :=
  let invMem := invalidatesMemory instruction
  let invStor := invalidatesStorage instruction
  let σ := if invMem then σ.resetMemory else σ
  let σ := if invStor then σ.resetStorage else σ
  -- Increment by two because it can read and write
  if invMem ∨ invStor then { σ with m_sequenceNumber := σ.m_sequenceNumber + 2 } else σ

/-- The operation on the classes of the arguments. -/
def feedArguments (item : AssemblyItem) (arguments : List Id) (σ : KnownState) : M (Option StoreOperation × KnownState) :=
  let height := σ.m_stackHeight + item.deposit
  match item.instruction, arguments with
  | .SSTORE, [slot, value] => storeInStorage n σ slot value
  | .SLOAD, [slot] => do
    let (c, σ) ← loadFromStorage n σ slot
    return (none, σ.setStackElement height c)
  | .MSTORE, [slot, value] => storeInMemory n σ slot value
  | .MLOAD, [slot] => do
    let (c, σ) ← loadFromMemory n σ slot
    return (none, σ.setStackElement height c)
  | .SHA3, [start, length] => do
    let (c, σ) ← applySha3 sha3 n σ start length
    return (none, σ.setStackElement height c)
  | instruction, arguments => do
    let σ := σ.invalidate instruction
    if (instructionInfo instruction).ret > 1 then throw .InvalidDeposit
    else if (instructionInfo instruction).ret = 1 then
      let c ← find n item arguments 0
      return (none, σ.setStackElement height c)
    else return (none, σ)

/-- The stack after an operation. -/
def settle (item : AssemblyItem) (σ : KnownState) : KnownState :=
  let height := σ.m_stackHeight + item.deposit
  { σ with m_stackElements := σ.m_stackElements.filter (·.1 ≤ height), m_stackHeight := height }

def feedOperation (item : AssemblyItem) (σ : KnownState) : M (Option StoreOperation × KnownState) :=
  match item.instruction with
  | .DUP i => do
    let (c, σ) ← stackElement n σ (σ.m_stackHeight - i)
    return (none, σ.setStackElement (σ.m_stackHeight + 1) c)
  | .SWAP i => do
    let σ ← swapStackElements n σ σ.m_stackHeight (σ.m_stackHeight - 1 - i)
    return (none, σ)
  | .POP => return (none, σ)
  | instruction => do
    let (arguments, σ) ← stackArguments n σ.m_stackHeight (instructionInfo instruction).args σ
    feedArguments sha3 n item arguments σ

def feedItem (item : AssemblyItem) (σ : KnownState) : M (Option StoreOperation × KnownState) := do
  if item.type = .Tag then return (none, σ)
  else if item.type ≠ .Operation then
    if item.deposit ≠ 1 then throw .InvalidDeposit
    else
      let c ← find n item [] 0
      let height := σ.m_stackHeight + 1
      return (none, { σ with m_stackHeight := height }.setStackElement height c)
  else
    let (op, σ) ← feedOperation sha3 n item σ
    return (op, σ.settle item)

/-! ## Common knowledge -/

/-- `intersect` -/
def intersect (l l' : Assoc Id Id) : Assoc Id Id := l.filter fun e => l'.find e.1 = some e.2

def tagsInExpression (σ : KnownState) (expressionId : Id) : M (Finset U256) :=
  match σ.m_tagUnions.find expressionId with
  | some tags => return tags
  | none => do
    -- Might be a tag, then return the set of itself.
    let expr ← representative expressionId
    return if expr.item.type = .PushTag then {expr.item.data} else ∅

def tagUnion (σ : KnownState) (tags : Finset U256) : M (Id × KnownState) :=
  match σ.m_tagUnions.find? fun e => e.2 = tags with
  | some e => return (e.1, σ)
  | none => do
    let id ← newClass
    return (id, { σ with m_tagUnions := σ.m_tagUnions.setSorted (id, tags) })

/-- What is left of a stack element that the other state has a class for, if anything. -/
def commonElement (σ : KnownState) (c other : Id) : M (Option Id × KnownState) := do
  if c = other then return (some c, σ)
  else
    let theseTags ← tagsInExpression σ c
    let otherTags ← tagsInExpression σ other
    if theseTags ≠ ∅ ∧ otherTags ≠ ∅ then
      let (id, σ) ← tagUnion σ (theseTags ∪ otherTags)
      return (some id, σ)
    else return (none, σ)

/-- The loop over the stack elements. -/
def commonElements (other : Assoc Int Id) (stackDiff : Int) : Assoc Int Id → KnownState → M (Assoc Int Id × KnownState)
  | [], σ => return ([], σ)
  | (height, c) :: l, σ =>
    match other.find (height - stackDiff) with
    | none => commonElements other stackDiff l σ
    | some c' => do
      let (e, σ) ← commonElement σ c c'
      let (l, σ) ← commonElements other stackDiff l σ
      match e with
      | none => return (l, σ)
      | some e => return ((height, e) :: l, σ)

def reduceToCommonKnowledge (σ other : KnownState) (combineSequenceNumbers : Bool) : M KnownState := do
  let stackDiff := σ.m_stackHeight - other.m_stackHeight
  let (stackElements, σ) ← commonElements other.m_stackElements stackDiff σ.m_stackElements σ
  let σ := { σ with m_stackElements := stackElements }
  -- Use the smaller stack height. Essential to terminate in case of loops.
  let σ :=
    if σ.m_stackHeight > other.m_stackHeight then
      { σ with m_stackElements := σ.m_stackElements.map fun e => (e.1 - stackDiff, e.2), m_stackHeight := other.m_stackHeight }
    else σ
  let σ := { σ with
    m_storageContent := intersect σ.m_storageContent other.m_storageContent
    m_memoryContent := intersect σ.m_memoryContent other.m_memoryContent }
  return if combineSequenceNumbers then { σ with m_sequenceNumber := max σ.m_sequenceNumber other.m_sequenceNumber } else σ

def clearTagUnions (σ : KnownState) : KnownState :=
  { σ with m_stackElements := σ.m_stackElements.filter fun e => (σ.m_tagUnions.find e.2).isNone }

end KnownState

end Webthree
