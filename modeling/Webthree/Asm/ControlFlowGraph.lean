import Webthree.Asm.KnownState
import Mathlib.Data.Finset.Sort

/-!
# The control flow graph

`ControlFlowGraph`: the items are split into blocks, the blocks are linked where one follows the other, those that are not used are
removed, what is known where a block starts is gathered, and the blocks are put in the order of the final code. Maps are lists in the
order of their keys; loops without a bound of their own are given so many turns.
-/

namespace Webthree

/-- Identifier for a block, coincides with the tag number of an `AssemblyItem` but adds a special ID for the initial block. -/
abbrev BlockId := Nat

namespace BlockId

def initial : BlockId := 2 ^ 32 - 2

def invalid : BlockId := 2 ^ 32 - 1

/-- `BlockId(_id)` -/
def ofU256 (id : U256) : Except OptimizerError BlockId := if id.toNat < initial then .ok id.toNat else .error .OptimizerException

end BlockId

inductive EndType where
  | JUMP
  | JUMPI
  | STOP
  | HANDOVER
deriving DecidableEq, Repr

/-- Control flow block inside which the instruction counter is always incremented by one (except for possibly the last instruction). -/
structure BasicBlock where
  /-- Start index into assembly item list, `begin`. -/
  beginIndex : Nat := 0
  /-- End index (excluded) into assembly item list, `end`. -/
  endIndex : Nat := 0
  /-- Tags pushed inside this block, with multiplicity. -/
  pushedTags : List BlockId := []
  /-- ID of the block that always follows this one, or `invalid` otherwise. -/
  next : BlockId := BlockId.invalid
  /-- ID of the block that has to precede this one (because control flows into it). -/
  prev : BlockId := BlockId.invalid
  endType : EndType := .HANDOVER
  /-- Knowledge about the state when this block is entered. -/
  startState : Option KnownState := none
  /-- Knowledge about the state at the end of this block. -/
  endState : Option KnownState := none

/-- `KnownState::operator==` -/
def KnownState.equals (σ other : KnownState) : Bool :=
  if σ.m_storageContent ≠ other.m_storageContent ∨ σ.m_memoryContent ≠ other.m_memoryContent then false
  else
    let stackDiff := σ.m_stackHeight - other.m_stackHeight
    σ.m_stackElements.map (fun e => (e.1 - stackDiff, e.2)) = other.m_stackElements

namespace ControlFlowGraph

open AssemblyItem SemanticInformation KnownState
open ExpressionClasses (M)

/-- `m_blocks` -/
abbrev Blocks := Assoc BlockId BasicBlock

/-- `m_blocks.at(id)` -/
def blockAt (m : Blocks) (id : BlockId) : Except OptimizerError BasicBlock :=
  match m.find id with
  | none => .error .out_of_range
  | some block => .ok block

/-- What is done with `m_blocks[id]`. -/
def modify (m : Blocks) (id : BlockId) (f : BasicBlock → BasicBlock) : Blocks := m.setSorted (id, f ((m.find id).getD {}))

/-! ## Splitting -/

def findLargestTag : List AssemblyItem → Nat → Except OptimizerError Nat
  | [], m_lastUsedId => return m_lastUsedId
  | item :: items, m_lastUsedId => do
    if item.type = .Tag ∨ item.type = .PushTag then
      -- Assert that it can be converted.
      let id ← BlockId.ofU256 item.data
      findLargestTag items (max id m_lastUsedId)
    else findLargestTag items m_lastUsedId

/-- The variables of the loop of `splitBlocks`. -/
structure Split where
  m_blocks : Blocks
  /-- The block that is open, if it is valid. -/
  id : BlockId
  m_lastUsedId : Nat

def generateNewId (s : Split) : Except OptimizerError Split := do
  let id := s.m_lastUsedId + 1
  if id < BlockId.initial then return { s with id, m_lastUsedId := id } else throw .OptimizerException

def Split.modify (s : Split) (f : BasicBlock → BasicBlock) : Split := { s with m_blocks := ControlFlowGraph.modify s.m_blocks s.id f }

/-- A tag ends the block that is open. -/
def closeBlock (index : Nat) (item : AssemblyItem) (s : Split) : Split :=
  if item.type = .Tag then
    { (if s.id ≠ BlockId.invalid then s.modify fun block => { block with endIndex := index } else s) with id := BlockId.invalid }
  else s

/-- Where no block is open, one is opened. -/
def openBlock (index : Nat) (item : AssemblyItem) (s : Split) : Except OptimizerError Split := do
  if s.id = BlockId.invalid then
    let s ← if item.type = .Tag then do
        let id ← BlockId.ofU256 item.data
        pure { s with id }
      else generateNewId s
    return s.modify fun block => { block with beginIndex := index }
  else return s

def pushTags (item : AssemblyItem) (s : Split) : Except OptimizerError Split := do
  if item.type = .PushTag then
    let tag ← BlockId.ofU256 item.data
    return s.modify fun block => { block with pushedTags := block.pushedTags ++ [tag] }
  else return s

/-- The end type of a block that ends with the item. -/
def endTypeOf (item : AssemblyItem) : EndType :=
  if item = ofInstruction .JUMP then .JUMP else if item = ofInstruction .JUMPI then .JUMPI else .STOP

/-- An item that alters the control flow ends the block. -/
def endBlock (index : Nat) (item : AssemblyItem) (s : Split) : Split :=
  if altersControlFlow item then
    { s.modify fun block => { block with endIndex := index + 1, endType := endTypeOf item } with id := BlockId.invalid }
  else s

def splitItem (index : Nat) (item : AssemblyItem) (s : Split) : Except OptimizerError Split := do
  let s ← openBlock index item (closeBlock index item s)
  let s ← pushTags item s
  return endBlock index item s

def splitLoop : List AssemblyItem → Nat → Split → Except OptimizerError Split
  | [], _, s => return s
  | item :: items, index, s => do
    let s ← splitItem index item s
    splitLoop items (index + 1) s

def splitBlocks (items : List AssemblyItem) (m_lastUsedId : Nat) : Except OptimizerError Blocks := do
  let s ← splitLoop items 0 ⟨modify [] BlockId.initial fun block => { block with beginIndex := 0 }, BlockId.initial, m_lastUsedId⟩
  if s.id ≠ BlockId.invalid then
    return modify s.m_blocks s.id fun block =>
      { block with endIndex := items.length, endType := if block.endType = .HANDOVER then .STOP else block.endType }
  else return s.m_blocks

/-! ## Linking -/

/-- Whether control flows from the block into the next one. -/
def handsOver (block : BasicBlock) : Bool := block.endType = .JUMPI || block.endType = .HANDOVER

def blockByBeginPos (m : Blocks) : Assoc Nat BlockId :=
  m.foldl (fun byBegin e => if e.2.beginIndex ≠ e.2.endIndex then byBegin.setSorted (e.2.beginIndex, e.1) else byBegin) []

def resolveNextLinks (m : Blocks) : Except OptimizerError Blocks :=
  m.mapM fun e => do
    if handsOver e.2 then
      match (blockByBeginPos m).find e.2.endIndex with
      | none => throw .OptimizerException
      | some next => return (e.1, { e.2 with next })
    else return e

/-- The blocks that a block needs and that are not needed yet, put to those that are to be processed, of which the last is the first, and
to those that are needed. -/
def addNeeded (m : Blocks) (block : BasicBlock) (st : List BlockId × List BlockId) : List BlockId × List BlockId :=
  let st := block.pushedTags.foldl (fun st tag =>
    if tag ∉ st.2 ∧ (m.find tag).isSome then (tag :: st.1, tag :: st.2) else st) st
  if block.next ≠ BlockId.invalid ∧ block.next ∉ st.2 then (block.next :: st.1, block.next :: st.2) else st

def neededLoop (m : Blocks) : Nat → List BlockId → List BlockId → Except OptimizerError (List BlockId)
  | 0, _, _ => throw .tooDeep
  | _ + 1, [], neededBlocks => return neededBlocks
  | turns + 1, id :: blocksToProcess, neededBlocks => do
    let block ← blockAt m id
    let st := addNeeded m block (blocksToProcess, neededBlocks)
    neededLoop m turns st.1 st.2

def removeUnusedBlocks (turns : Nat) (m : Blocks) : Except OptimizerError Blocks := do
  let neededBlocks ← neededLoop m turns [BlockId.initial] [BlockId.initial]
  return m.filter fun e => e.1 ∈ neededBlocks

/-- The block that another hands over to gets it as its predecessor. -/
def setPrevLink (m : Blocks) (id : BlockId) : Except OptimizerError Blocks := do
  let block ← blockAt m id
  if handsOver block then
    let next ← blockAt m block.next
    if next.prev ≠ BlockId.invalid then throw .OptimizerException
    else return modify m block.next fun next => { next with prev := id }
  else return m

/-- Whether the links from `id` on lead to `blockId`. -/
def leadsTo (m : Blocks) (blockId : BlockId) : Nat → BlockId → Except OptimizerError Bool
  | 0, _ => throw .tooDeep
  | turns + 1, id =>
    if id = BlockId.invalid then return false
    else
      match m.find id with
      | none => return false
      | some block => if id = blockId then return true else leadsTo m blockId turns block.next

/-- If a block ends with a jump to a block that is not yet linked, link them removing the jump. -/
def linkJump (items : List AssemblyItem) (turns : Nat) (m : Blocks) (blockId : BlockId) : Except OptimizerError Blocks := do
  let block ← blockAt m blockId
  if block.endType ≠ .JUMP ∨ block.endIndex - block.beginIndex < 2 then return m
  else
    match items[block.endIndex - 2]? with
    | none => throw .out_of_range
    | some push =>
      if push.type ≠ .PushTag then return m
      else
        let nextId ← BlockId.ofU256 push.data
        match m.find nextId with
        | none =>
          -- the loop over the links is left at once
          return m
        | some next =>
          if next.prev ≠ BlockId.invalid then return m
          else if ← leadsTo m blockId turns nextId then return m
          else if block.pushedTags.getLast? ≠ some nextId then throw .OptimizerException
          else
            let m := modify m nextId fun next => { next with prev := blockId }
            return modify m blockId fun block => { block with
              next := nextId
              endIndex := block.endIndex - 2
              pushedTags := block.pushedTags.dropLast
              endType := .HANDOVER }

def setPrevLinks (items : List AssemblyItem) (turns : Nat) (m : Blocks) : Except OptimizerError Blocks := do
  let m ← (m.map Prod.fst).foldlM setPrevLink m
  (m.map Prod.fst).foldlM (linkJump items turns) m

/-! ## Knowledge -/

structure WorkQueueItem where
  blockId : BlockId
  state : KnownState
  blocksSeen : Finset BlockId

/-- `addWorkQueueItem` -/
def workQueueItem (currentItem : WorkQueueItem) (id : BlockId) (state : KnownState) : WorkQueueItem :=
  ⟨id, state, insert currentItem.blockId currentItem.blocksSeen⟩

section Knowledge

variable (sha3 : Bytes → U256) (n : Nat) (items : List AssemblyItem)

/-- Feed all of so many items from `pc` on, except for the final jump yet. -/
def feedLoop : Nat → Nat → KnownState → M (Nat × KnownState)
  | 0, pc, state => return (pc, state)
  | k + 1, pc, state =>
    match items[pc]? with
    | none => throw .out_of_range
    | some item => do
      if altersControlFlow item then return (pc, state)
      else
        let (_, state) ← feedItem sha3 n item state
        feedLoop k (pc + 1) state

/-- `state->feedItem(m_items.at(pc))` -/
def feedAt (pc : Nat) (state : KnownState) : M KnownState :=
  match items[pc]? with
  | none => throw .out_of_range
  | some item => do
    let (_, state) ← feedItem sha3 n item state
    return state

/-- The tags, in their order. -/
def sortedTags (tags : Finset U256) : List U256 := ((tags.image BitVec.toNat).sort).map (BitVec.ofNat 256)

/-- The blocks that start with a tag, where we do not know the target of a jump and have to reset the states of all of them. -/
def jumpDests (m : Blocks) : List WorkQueueItem :=
  (m.filter fun e => e.2.beginIndex < e.2.endIndex ∧ (items[e.2.beginIndex]?.map AssemblyItem.type) = some .Tag).map
    fun e => ⟨e.1, {}, ∅⟩

/-- The jump at the end of a block: what it adds to the work queue, and whether an unknown jump has been encountered. -/
def feedJump (m : Blocks) (item : WorkQueueItem) (pc : Nat) (unknownJumpEncountered : Bool) (state : KnownState) :
    M (List WorkQueueItem × Bool × KnownState) := do
  let (c, state) ← stackElement n state state.m_stackHeight
  let tags ← tagsInExpression state c
  let state ← feedAt sha3 n items pc state
  if tags = ∅ then
    if unknownJumpEncountered then return ([], true, state) else return (jumpDests items m, true, state)
  else
    let ids ← ExpressionClasses.lift ((sortedTags tags).mapM BlockId.ofU256)
    return (ids.map fun id => workQueueItem item id state, unknownJumpEncountered, state)

/-- What a block adds to the work queue, whether an unknown jump has been encountered, and the state at the end of the block. -/
def feedBlock (m : Blocks) (item : WorkQueueItem) (block : BasicBlock) (unknownJumpEncountered : Bool) (state : KnownState) :
    M (List WorkQueueItem × Bool × KnownState) := do
  let (pc, state) ← feedLoop sha3 n items (block.endIndex - block.beginIndex) block.beginIndex state
  if block.endType = .JUMP ∨ block.endType = .JUMPI then
    if block.beginIndex ≤ pc ∧ pc = block.endIndex - 1 then
      let (added, unknownJumpEncountered, state) ← feedJump sha3 n items m item pc unknownJumpEncountered state
      if block.endIndex ≤ block.beginIndex ∨ pc + 1 = block.endIndex then
        let following := if block.endType = .JUMPI then [workQueueItem item block.next state] else []
        return (added ++ following, unknownJumpEncountered, state)
      else throw .OptimizerException
    else throw .OptimizerException
  else
    let (pc, state) ← if block.beginIndex ≤ pc ∧ pc < block.endIndex then do
        let state ← feedAt sha3 n items pc state
        pure (pc + 1, state)
      else pure (pc, state)
    if block.endIndex ≤ block.beginIndex ∨ pc = block.endIndex then
      let following := if block.endType = .HANDOVER then [workQueueItem item block.next state] else []
      return (following, unknownJumpEncountered, state)
    else throw .OptimizerException

/-- The state that a block is started with, unless it was started with the same before. -/
def startWith (item : WorkQueueItem) (block : BasicBlock) : M (Option KnownState) :=
  match block.startState with
  | none => return some item.state
  | some startState => do
    let state ← reduceToCommonKnowledge item.state startState (item.blockId ∉ item.blocksSeen)
    return if state.equals startState then none else some state

/-- The loop over the work queue, of which the last item is the first. -/
def gatherLoop : Nat → List WorkQueueItem → Bool → Blocks → M Blocks
  | 0, _, _, _ => throw .tooDeep
  | _ + 1, [], _, m => return m
  | turns + 1, item :: workQueue, unknownJumpEncountered, m => do
    if item.blockId = BlockId.invalid then throw .OptimizerException
    else
      match m.find item.blockId with
      -- too bad, we do not know the tag, probably an invalid jump
      | none => gatherLoop turns workQueue unknownJumpEncountered m
      | some block =>
        match ← startWith item block with
        | none => gatherLoop turns workQueue unknownJumpEncountered m
        | some state =>
          let m := modify m item.blockId fun block => { block with startState := some state }
          let (added, unknownJumpEncountered, state) ← feedBlock sha3 n items m item block unknownJumpEncountered state
          let m := modify m item.blockId fun block => { block with endState := some state }
          gatherLoop turns (added.reverse ++ workQueue) unknownJumpEncountered m

/-- `gatherKnowledge`, with the blocks that were never visited removed. -/
def gatherKnowledge (turns : Nat) (m : Blocks) : M Blocks := do
  let m ← gatherLoop sha3 n items turns [⟨BlockId.initial, {}, ∅⟩] false m
  return m.filter fun e => e.2.startState.isSome

end Knowledge

/-! ## Rebuilding -/

/-- The variables of the loops of `rebuildCode`. -/
structure Rebuild where
  m_blocks : Blocks
  blocksToAdd : List BlockId
  previousHandedOver : Bool
  blocks : List BasicBlock

/-- `pushes[id]` -/
def pushes (m : Blocks) (id : BlockId) : Nat := if (m.find id).isSome then (m.flatMap fun e => e.2.pushedTags).count id else 0

/-- While there is a predecessor. -/
def firstBlock (m : Blocks) : Nat → BlockId → Except OptimizerError BlockId
  | 0, _ => throw .tooDeep
  | turns + 1, id => do
    let block ← blockAt m id
    if block.prev ≠ BlockId.invalid then firstBlock m turns block.prev else return id

/-- The block, without an unused tag at its start. -/
def skipTag (items : List AssemblyItem) (previousHandedOver : Bool) (pushed : Nat) (block : BasicBlock) : BasicBlock :=
  if previousHandedOver ∧ pushed = 0 ∧ (items[block.beginIndex]?.map AssemblyItem.type) = some .Tag then
    { block with beginIndex := block.beginIndex + 1 }
  else block

/-- A block is added, where there is something left of it. -/
def addBlock (items : List AssemblyItem) (pushed : BlockId → Nat) (id : BlockId) (block : BasicBlock) (r : Rebuild) : Rebuild :=
  let r := { r with blocksToAdd := r.blocksToAdd.erase id }
  if block.beginIndex = block.endIndex then r
  else
    let block := skipTag items r.previousHandedOver (pushed id) block
    let r := { r with m_blocks := modify r.m_blocks id fun _ => block, previousHandedOver := block.endType = .HANDOVER }
    if block.beginIndex < block.endIndex then
      { r with blocks := r.blocks ++ [{ block with
        startState := block.startState.map clearTagUnions
        endState := block.endState.map clearTagUnions }] }
    else r

/-- The blocks from `id` on, one after the other. -/
def addChain (items : List AssemblyItem) (pushed : BlockId → Nat) : Nat → BlockId → Rebuild → Except OptimizerError Rebuild
  | 0, _, _ => throw .tooDeep
  | turns + 1, id, r => do
    if id = BlockId.invalid then return r
    else
      let block ← blockAt r.m_blocks id
      addChain items pushed turns block.next (addBlock items pushed id block r)

def rebuildLoop (items : List AssemblyItem) (pushed : BlockId → Nat) : Nat → BlockId → Rebuild → Except OptimizerError Rebuild
  | 0, _, _ => throw .tooDeep
  | turns + 1, blockId, r => do
    let id ← firstBlock r.m_blocks turns blockId
    let r ← addChain items pushed turns id { r with previousHandedOver := blockId = BlockId.initial }
    match r.blocksToAdd with
    | [] => return r
    | id :: _ => rebuildLoop items pushed turns id r

def rebuildCode (items : List AssemblyItem) (turns : Nat) (m : Blocks) : Except OptimizerError (List BasicBlock) := do
  let r ← rebuildLoop items (pushes m) turns BlockId.initial ⟨m, m.map Prod.fst, false, []⟩
  return r.blocks

/-- The basic blocks in the order they should be used in the final code. -/
def optimisedBlocks (sha3 : Bytes → U256) (n turns : Nat) (items : List AssemblyItem) : M (List BasicBlock) := do
  if items = [] then return []
  else
    let m ← ExpressionClasses.lift do
      let m_lastUsedId ← findLargestTag items 0
      let m ← splitBlocks items m_lastUsedId
      let m ← resolveNextLinks m
      let m ← removeUnusedBlocks turns m
      setPrevLinks items turns m
    let m ← gatherKnowledge sha3 n items turns m
    ExpressionClasses.lift (rebuildCode items turns m)

end ControlFlowGraph

end Webthree
