import Webthree.Asm.BlockDeduplicator
import Webthree.Asm.ControlFlowGraph
import Mathlib.Data.Prod.Lex

/-!
# Optimising

`CommonSubexpressionEliminator` and `CSECodeGenerator`, and the rounds of `Assembly::optimise`. The generator works on the classes of the
known states, and recursions and loops without a bound of their own are given so many turns. A position on the stack is never
`c_invalidPosition` where one is asked for.
-/

namespace Webthree

open ExpressionClasses (Id M find representative knownConstant knownNonZero knownToBeDifferent knownToBeDifferentBy32)

namespace SemanticInformation

def isSwapInstruction (i : AssemblyItem) : Bool :=
  if i.type ≠ .Operation then false
  else
    match i.instruction with
    | .SWAP _ => true
    | _ => false

def isDupInstruction (i : AssemblyItem) : Bool :=
  if i.type ≠ .Operation then false
  else
    match i.instruction with
    | .DUP _ => true
    | _ => false

def breaksCSEAnalysisBlock (i : AssemblyItem) : Bool :=
  match i.type with
  | .UndefinedItem | .Tag => true
  | .Push | .PushString | .PushTag | .PushSub | .PushSubSize | .PushProgramSize | .PushData | .PushLibraryAddress => false
  | .Operation =>
    if isSwapInstruction i ∨ isDupInstruction i then false
    else
      match i.instruction with
      | .GAS | .PC -- GAS and PC assume a specific order of opcodes
      | .MSIZE => true -- msize is modified already by memory access, avoid that for now
      | .SSTORE | .MSTORE => false
      | instruction => instruction.sideEffects ∨ 2 < (instructionInfo instruction).args

end SemanticInformation

inductive CSEError where
  | StackTooDeepException
  | ItemNotAvailableException
  | optimizer (e : OptimizerError)
deriving DecidableEq, Repr

/-! ## Generating code -/

structure CSECodeGenerator where
  /-- The last item is the first. -/
  m_generatedItems : List AssemblyItem := []
  /-- Current height of the stack relative to the start. -/
  m_stackHeight : Int := 0
  /-- If (b, a) is in m_neededBy then b is needed to compute a. -/
  m_neededBy : List (Id × Id) := []
  /-- Current content of the stack. -/
  m_stack : Assoc Int Id := []
  /-- Current positions of equivalence classes, equal to the empty set if already deleted. -/
  m_classPositions : Assoc Id (Finset Int) := []
  /-- The actual eqivalence class items and how to compute them. -/
  m_expressionClasses : ExpressionClasses
  /-- Which storage or memory slots were written to by which operations, sorted ascendingly by sequence number. -/
  m_storeOperations : Assoc (Nat ×ₗ Id) (List StoreOperation) := []
  /-- The set of equivalence classes that should be present on the stack at the end. -/
  m_finalClasses : List Id := []
  m_targetStack : Assoc Int Id := []

/-- The value of the enumerator. -/
def StoreOperation.Target.index : StoreOperation.Target → Nat
  | .Memory => 1
  | .Storage => 2

namespace CSECodeGenerator

open AssemblyItem SemanticInformation

/-- A computation of the generator. -/
abbrev G := EStateM CSEError CSECodeGenerator

/-- A failed assertion. -/
def fail {α : Type} : G α := throw (.optimizer .OptimizerException)

/-- A computation on the classes. -/
def onClasses {α : Type} (m : M α) : G α := fun g =>
  match m g.m_expressionClasses with
  | .ok a s => .ok a { g with m_expressionClasses := s }
  | .error e s => .error (.optimizer e) { g with m_expressionClasses := s }

/-- The constructor: operations on the same slot stand together. -/
def storeOperations (ops : List StoreOperation) : Assoc (Nat ×ₗ Id) (List StoreOperation) :=
  ops.foldl (fun m op => m.setSorted (toLex (op.target.index, op.slot), (m.find (toLex (op.target.index, op.slot))).getD [] ++ [op])) []

/-- `m_stack[position]`, which is put there if there is nothing. -/
def stackAt (position : Int) : G Id := do
  match (← get).m_stack.find position with
  | some c => return c
  | none =>
    modify fun g => { g with m_stack := g.m_stack.setSorted (position, 0) }
    return 0

def setStack (position : Int) (c : Id) : G Unit := modify fun g => { g with m_stack := g.m_stack.setSorted (position, c) }

/-- What is done with `m_classPositions[c]`. -/
def modifyPositions (c : Id) (f : Finset Int → Finset Int) : G Unit :=
  modify fun g => { g with m_classPositions := g.m_classPositions.setSorted (c, f ((g.m_classPositions.find c).getD ∅)) }

def appendItem (item : AssemblyItem) : G Unit :=
  modify fun g => { g with m_generatedItems := item :: g.m_generatedItems, m_stackHeight := g.m_stackHeight + item.deposit }

/-- The position of the class on the stack, the highest one. -/
def classElementPosition (id : Id) : G Int := do
  match ((← get).m_classPositions.find id).bind fun positions => positions.sort.getLast? with
  | none => fail
  | some position => return position

/-- Whether the copy of the element can be removed from the position, its canonical one if none is given, in general or while
computing a result. -/
def canBeRemoved (element : Id) (result : Option Id) (fromPosition : Option Int) : G Bool := do
  let position ← match fromPosition with
    | none => classElementPosition element
    | some position => pure position
  let g ← get
  match g.m_classPositions.find element with
  | none => throw (.optimizer .out_of_range)
  | some positions =>
    let haveCopy := 1 < positions.card
    -- It can be removed if it is a copy that is not in the target position.
    if element ∈ g.m_finalClasses then return haveCopy && g.m_targetStack.find position ≠ some element
    else if haveCopy then return true
    -- Can be removed unless it is needed by a class that has not been computed yet.
    else return g.m_neededBy.all fun e => e.1 ≠ element || some e.2 = result || (g.m_classPositions.find e.2).isSome

def removeStackTopIfPossible : G Bool := do
  let g ← get
  if g.m_stack.isEmpty then return false
  else
    match g.m_stack.find g.m_stackHeight with
    | none => fail
    | some top =>
      if ← canBeRemoved top none (some g.m_stackHeight) then
        modifyPositions top fun positions => positions.erase g.m_stackHeight
        modify fun g => { g with m_stack := g.m_stack.remove g.m_stackHeight }
        appendItem (ofInstruction .POP)
        return true
      else return false

def appendDup (fromPosition : Int) : G Unit := do
  let instructionNum := 1 + (← get).m_stackHeight - fromPosition
  if 16 < instructionNum then throw .StackTooDeepException
  else if instructionNum < 1 then fail
  else
    appendItem (ofInstruction (.DUP (Fin.ofNat 16 (instructionNum - 1).toNat)))
    let c ← stackAt fromPosition
    let height := (← get).m_stackHeight
    setStack height c
    modifyPositions c fun positions => insert height positions

/-- Two swaps that are the same and stand at the end are removed. -/
def removeSwaps : List AssemblyItem → List AssemblyItem
  | a :: b :: items => if isSwapInstruction a ∧ b = a then items else a :: b :: items
  | items => items

def appendOrRemoveSwap (fromPosition : Int) : G Unit := do
  let height := (← get).m_stackHeight
  if fromPosition = height then return ()
  else
    let instructionNum := height - fromPosition
    if 16 < instructionNum then throw .StackTooDeepException
    else if instructionNum < 1 then fail
    else
      appendItem (ofInstruction (.SWAP (Fin.ofNat 16 (instructionNum - 1).toNat)))
      let height := (← get).m_stackHeight
      let top ← stackAt height
      let other ← stackAt fromPosition
      if top ≠ other then
        modifyPositions top fun positions => insert fromPosition (positions.erase height)
        modifyPositions other fun positions => insert height (positions.erase fromPosition)
        setStack height other
        setStack fromPosition top
      modify fun g => { g with m_generatedItems := removeSwaps g.m_generatedItems }

section

variable (n : Nat)

/-- Whether we know that a load is not affected by a store to the slot. -/
def knownToBeIndependent (expr : Expression) (slot slotToLoadFrom : Id) : M Bool :=
  match expr.item.instruction with
  | .SLOAD => knownToBeDifferent n slot slotToLoadFrom
  | .MLOAD => knownToBeDifferentBy32 n slot slotToLoadFrom
  | .SHA3 => do
    match expr.arguments[1]? with
    | none => throw .out_of_range
    | some length =>
      let offsetToStart ← find n (ofInstruction .SUB) [slot, slotToLoadFrom] 0
      let o ← knownConstant offsetToStart
      let l ← knownConstant length
      match o, l with
      | _, some 0 => return true
      | none, _ => return false
      | some o, none => return u2s o ≤ -32
      | some o, some l => return u2s o ≤ -32 || (0 ≤ u2s o && l ≤ o)
  | _ => return false

/-- The expression of the latest store before a load. -/
def latestStore (sequenceNumber : Nat) : List StoreOperation → Id → Id
  | [], latest => latest
  | op :: ops, latest => latestStore sequenceNumber ops (if op.sequenceNumber < sequenceNumber then op.expression else latest)

/-- The loop over the stores that a load of the class may depend on, with `addDependencies`. -/
def addStores (addDependencies : Id → G Unit) (c : Id) (expr : Expression) (target : StoreOperation.Target) (slotToLoadFrom : Id) :
    List ((Nat ×ₗ Id) × List StoreOperation) → G Unit
  | [] => return ()
  | (_, []) :: ps => addStores addDependencies c expr target slotToLoadFrom ps
  | (key, front :: storeOps) :: ps => do
    if (ofLex key).1 = target.index ∧ front.sequenceNumber ≤ expr.sequenceNumber then
      if !(← onClasses (knownToBeIndependent n expr (ofLex key).2 slotToLoadFrom)) then
        let latest := latestStore expr.sequenceNumber storeOps front.expression
        addDependencies latest
        modify fun g => { g with m_neededBy := (latest, c) :: g.m_neededBy }
    addStores addDependencies c expr target slotToLoadFrom ps

/-- Recursively discovers all dependencies. -/
def addDependencies : Nat → Id → G Unit
  | 0, _ => throw (.optimizer .tooDeep)
  | turns + 1, c => do
    let g ← get
    -- it is already on the stack, or we already computed the dependencies
    if (g.m_classPositions.find c).isSome ∨ g.m_neededBy.any (fun e => e.1 = c) then return ()
    else
      let expr ← onClasses (representative c)
      if expr.item.type = .UndefinedItem then throw .ItemNotAvailableException
      else
        expr.arguments.forM fun argument => do
          addDependencies turns argument
          modify fun g => { g with m_neededBy := (argument, c) :: g.m_neededBy }
        if expr.item.type = .Operation ∧ (expr.item.instruction = .SLOAD ∨ expr.item.instruction = .MLOAD ∨ expr.item.instruction = .SHA3) then
          match expr.arguments[0]? with
          | none => throw (.optimizer .out_of_range)
          | some slotToLoadFrom =>
            let target := if expr.item.instruction = .SLOAD then StoreOperation.Target.Storage else .Memory
            addStores n (addDependencies turns) c expr target slotToLoadFrom (← get).m_storeOperations

end

/-- The arguments are somewhere on the stack now, so it remains to move them at the correct place. -/
def placeArguments (c : Id) : List Id → G Unit
  | [] => return ()
  | [a] => do
    if ← canBeRemoved a (some c) none then appendOrRemoveSwap (← classElementPosition a)
    else appendDup (← classElementPosition a)
  | [a, b] => do
    if ← canBeRemoved b (some c) none then
      appendOrRemoveSwap (← classElementPosition b)
      if a = b then appendDup (← get).m_stackHeight
      else if ← canBeRemoved a (some c) none then
        appendOrRemoveSwap ((← get).m_stackHeight - 1)
        appendOrRemoveSwap (← classElementPosition a)
      else appendDup (← classElementPosition a)
    else if a = b then
      appendDup (← classElementPosition a)
      appendDup (← get).m_stackHeight
    else if ← canBeRemoved a (some c) none then
      appendOrRemoveSwap (← classElementPosition a)
      appendDup (← classElementPosition b)
      appendOrRemoveSwap ((← get).m_stackHeight - 1)
    else
      appendDup (← classElementPosition b)
      appendDup (← classElementPosition a)
  | _ => fail

/-- The arguments stand on the stack, the first one at the height. -/
def checkArguments (height : Int) : List Id → G Unit
  | [] => return ()
  | a :: as => do
    if (← stackAt height) = a then checkArguments (height - 1) as else fail

/-- So many arguments are taken from the stack. -/
def takeArguments (height : Int) : Nat → G Unit
  | 0 => return ()
  | k + 1 => do
    modifyPositions (← stackAt height) fun positions => positions.erase height
    modify fun g => { g with m_stack := g.m_stack.remove height }
    takeArguments (height - 1) k

/-- A swap in front of a commutative operation is removed. -/
def removeLastSwap (item : AssemblyItem) : Nat → G Unit
  | 0 => throw (.optimizer .tooDeep)
  | turns + 1 => do
    let g ← get
    if isCommutativeOperation item ∧ g.m_generatedItems.head? = some (ofInstruction (.SWAP 0)) then
      appendOrRemoveSwap (g.m_stackHeight - 1)
      removeLastSwap item turns

/-- The item of the class, where its arguments are on top of the stack. -/
def generateItem (turns : Nat) (c : Id) (expr : Expression) : G Unit := do
  checkArguments (← get).m_stackHeight expr.arguments
  removeLastSwap expr.item turns
  takeArguments (← get).m_stackHeight expr.arguments.length
  appendItem expr.item
  if expr.item.type ≠ .Operation ∨ (instructionInfo expr.item.instruction).ret = 1 then
    let height := (← get).m_stackHeight
    setStack height c
    modifyPositions c fun positions => insert height positions
  else if (instructionInfo expr.item.instruction).ret ≠ 0 then fail
  -- ensure it is created to mark the expression as generated
  else modifyPositions c id

/-- Produce code that generates the given element if it is not yet present. -/
def generateClassElement : Nat → Id → Bool → G Unit
  | 0, _, _ => throw (.optimizer .tooDeep)
  | turns + 1, c, allowSequenced => do
    let g ← get
    if g.m_classPositions.any fun e => (e.2.filter fun p => g.m_stackHeight < p) ≠ ∅ then fail
    else
      -- do some cleanup
      let _ ← removeStackTopIfPossible
      match (← get).m_classPositions.find c with
      | some positions => if positions = ∅ then fail else return ()
      | none =>
        let expr ← onClasses (representative c)
        if !allowSequenced ∧ expr.sequenceNumber ≠ 0 then fail
        else if expr.item.type = .UndefinedItem then fail
        else
          expr.arguments.reverse.forM fun argument => generateClassElement turns argument false
          placeArguments c expr.arguments
          generateItem turns c expr

/-- The sequenced expressions that are needed, in order. -/
def sequencedExpressions (initialSequenceNumber : Nat) : List Id → G (Finset (Nat ×ₗ Id))
  | [] => return ∅
  | id :: ids => do
    let seqNr := (← onClasses (representative id)).sequenceNumber
    if seqNr = 0 then sequencedExpressions initialSequenceNumber ids
    -- Invalid sequenced operation.
    else if seqNr < initialSequenceNumber then throw .StackTooDeepException
    else
      let expressions ← sequencedExpressions initialSequenceNumber ids
      return insert (toLex (seqNr, id)) expressions

/-- Generate an element of the target stack. -/
def generateTarget (turns : Nat) (targetItem : Int × Id) : G Unit := do
  if (← get).m_stack.find targetItem.1 = some targetItem.2 then return () -- already there
  else
    generateClassElement turns targetItem.2 false
    let positions := ((← get).m_classPositions.find targetItem.2).getD ∅
    if positions = ∅ then fail
    else if targetItem.1 ∈ positions then return ()
    else
      let _ ← onClasses (representative targetItem.2)
      let position ← classElementPosition targetItem.2
      -- it is already at its target, we need another copy
      if position < targetItem.1 then appendDup position else appendOrRemoveSwap position
      appendOrRemoveSwap targetItem.1

/-- Remove surplus elements. -/
def removeSurplus : Nat → G Unit
  | 0 => throw (.optimizer .tooDeep)
  | turns + 1 => do
    if ← removeStackTopIfPossible then removeSurplus turns

/-- The height that the stack should have at the end. -/
def finalHeight (initialStackHeight : Int) (initialStack targetStackContents : Assoc Int Id) : Int :=
  match targetStackContents.getLast?, initialStack with
  | some e, _ => e.1
  | none, e :: _ => e.1 - 1
  | none, [] => initialStackHeight

/-- `generateCode` from the state that the members are set to. -/
def generateCode (n turns initialSequenceNumber : Nat) (initialStackHeight : Int) (initialStack targetStackContents : Assoc Int Id) :
    G (List AssemblyItem) := do
  modify fun g => { g with m_stackHeight := initialStackHeight, m_stack := initialStack, m_targetStack := targetStackContents }
  initialStack.forM fun item => modifyPositions item.2 fun positions => insert item.1 positions
  -- generate the dependency graph starting from final storage and memory writes and target stack contents
  (← get).m_storeOperations.forM fun p =>
    match p.2.getLast? with
    | none => return ()
    | some op => addDependencies n turns op.expression
  targetStackContents.forM fun targetItem => do
    modify fun g => { g with m_finalClasses := targetItem.2 :: g.m_finalClasses }
    addDependencies n turns targetItem.2
  let sequenced ← sequencedExpressions initialSequenceNumber ((← get).m_neededBy.flatMap fun p => [p.1, p.2])
  -- Perform all operations on storage and memory in order, if they are needed.
  sequenced.sort.forM fun seqAndId => do
    if ((← get).m_classPositions.find (ofLex seqAndId).2).isNone then generateClassElement turns (ofLex seqAndId).2 true
  targetStackContents.forM (generateTarget turns)
  removeSurplus turns
  let g ← get
  if finalHeight initialStackHeight initialStack targetStackContents = g.m_stackHeight then return g.m_generatedItems.reverse else fail

end CSECodeGenerator

/-! ## Eliminating common subexpressions -/

structure CommonSubexpressionEliminator where
  m_initialState : KnownState
  m_state : KnownState
  /-- Which storage or memory slots were written to at which sequence number with what instruction. -/
  m_storeOperations : List StoreOperation := []
  /-- The item that breaks the basic block. -/
  m_breakingItem : Option AssemblyItem := none

namespace CommonSubexpressionEliminator

open AssemblyItem SemanticInformation

/-- A computation on the classes that the eliminator shares with the known states. -/
abbrev C := EStateM CSEError ExpressionClasses

def lift {α : Type} (m : M α) : C α := fun s =>
  match m s with
  | .ok a s => .ok a s
  | .error e s => .error (.optimizer e) s

/-- A computation of a generator that starts in `g`, with the classes as they are. -/
def runGenerator {α : Type} (m : CSECodeGenerator.G α) (g : ExpressionClasses → CSECodeGenerator) : C α := fun s =>
  match m (g s) with
  | .ok a g => .ok a g.m_expressionClasses
  | .error e g => .error e g.m_expressionClasses

/-- What a computation ends with, where it may be caught. -/
def attempt {α : Type} (m : C α) : C (Except CSEError α) := fun s =>
  match m s with
  | .ok a s => .ok (.ok a) s
  | .error e s => .ok (.error e) s

/-- `knownZero` -/
def knownZero (c : Id) : M Bool := do
  let e ← representative c
  return (Pattern.value 0).matchesBaseItem e.item

variable (sha3 : Bytes → U256) (n turns : Nat)

def feedItem (item : AssemblyItem) (e : CommonSubexpressionEliminator) : M CommonSubexpressionEliminator := do
  let (op, state) ← KnownState.feedItem sha3 n item e.m_state
  return { e with m_state := state, m_storeOperations := e.m_storeOperations ++ op.toList }

/-- The loop of `feedItems`. -/
def feedLoop : List AssemblyItem → CommonSubexpressionEliminator → M (List AssemblyItem × CommonSubexpressionEliminator)
  | [], e => return ([], e)
  | item :: items, e => do
    if breaksCSEAnalysisBlock item then return (items, { e with m_breakingItem := some item })
    else
      let e ← feedItem sha3 n item e
      feedLoop items e

/-- Feeds items into the eliminator, and returns those that must be fed into a new instance. -/
def feedItems (items : List AssemblyItem) (e : CommonSubexpressionEliminator) : M (List AssemblyItem × CommonSubexpressionEliminator) :=
  if e.m_breakingItem.isSome then throw .OptimizerException else feedLoop sha3 n items e

/-- Tries to optimize the item that breaks the basic block at the end. -/
def optimizeBreakingItem (e : CommonSubexpressionEliminator) : M CommonSubexpressionEliminator :=
  match e.m_breakingItem with
  | none => return e
  | some item => do
    if item = ofInstruction .JUMPI then
      let (condition, state) ← KnownState.stackElement n e.m_state (e.m_state.m_stackHeight - 1)
      let e := { e with m_state := state }
      if ← knownNonZero n condition then
        let e ← feedItem sha3 n (ofInstruction (.SWAP 0)) e
        let e ← feedItem sha3 n (ofInstruction .POP) e
        return { e with m_breakingItem := some (ofInstruction .JUMP) }
      else if ← knownZero condition then
        let e ← feedItem sha3 n (ofInstruction .POP) e
        let e ← feedItem sha3 n (ofInstruction .POP) e
        return { e with m_breakingItem := none }
      else return e
    else if item = ofInstruction .RETURN then
      let (size, state) ← KnownState.stackElement n e.m_state (e.m_state.m_stackHeight - 1)
      let e := { e with m_state := state }
      if ← knownZero size then
        let e ← feedItem sha3 n (ofInstruction .POP) e
        let e ← feedItem sha3 n (ofInstruction .POP) e
        return { e with m_breakingItem := some (ofInstruction .STOP) }
      else return e
    else return e

/-- The loop that asks a state for its elements at so many heights. -/
def stackContents : Nat → Int → KnownState → M (Assoc Int Id × KnownState)
  | 0, _, state => return ([], state)
  | k + 1, height, state => do
    let (c, state) ← KnownState.stackElement n state height
    let (contents, state) ← stackContents k (height + 1) state
    return ((height, c) :: contents, state)

/-- The code that is generated, and the item that breaks the block. -/
def optimizedItems (e : CommonSubexpressionEliminator) : C (List AssemblyItem) := do
  let minHeight := match e.m_state.m_stackElements with
    | [] => e.m_state.m_stackHeight + 1
    | element :: _ => min (e.m_state.m_stackHeight + 1) element.1
  let (initialStackContents, initialState) ← lift
    (stackContents n (e.m_initialState.m_stackHeight + 1 - minHeight).toNat minHeight e.m_initialState)
  let (targetStackContents, _) ← lift (stackContents n (e.m_state.m_stackHeight + 1 - minHeight).toNat minHeight e.m_state)
  let items ← runGenerator
    (CSECodeGenerator.generateCode n turns initialState.m_sequenceNumber initialState.m_stackHeight initialStackContents targetStackContents)
    fun s => { m_expressionClasses := s, m_storeOperations := CSECodeGenerator.storeOperations e.m_storeOperations }
  return items ++ e.m_breakingItem.toList

/-- `getOptimizedItems`. However it ends, the eliminator goes on with the states behind the item that breaks the block. -/
def getOptimizedItems (e : CommonSubexpressionEliminator) : C (Except CSEError (List AssemblyItem) × CommonSubexpressionEliminator) := do
  let e ← lift (optimizeBreakingItem sha3 n e)
  let nextInitialState ← match e.m_breakingItem with
    | none => pure e.m_state
    | some item => lift do
      let (_, state) ← KnownState.feedItem sha3 n item e.m_state
      return state
  let result ← attempt (optimizedItems n turns e)
  return (result, { m_initialState := nextInitialState, m_state := nextInitialState })

end CommonSubexpressionEliminator

/-! ## Rounds -/

namespace Assembly

open CommonSubexpressionEliminator (C)

variable (sha3 : Bytes → U256) (n turns : Nat)

/-- What replaces a chunk, and whether it is shorter. -/
def replaceChunk (orig : List AssemblyItem) : Except CSEError (List AssemblyItem) → C (List AssemblyItem × Nat)
  | .ok optimisedChunk => return if optimisedChunk.length < orig.length then (optimisedChunk, 1) else (orig, 0)
  -- This might happen if the opcode reconstruction is not as efficient as the hand-crafted code.
  | .error .StackTooDeepException => return (orig, 0)
  -- This might happen if e.g. associativity and commutativity rules reorganise the expression tree, but not all leaves are available.
  | .error .ItemNotAvailableException => return (orig, 0)
  | .error e => throw e

/-- The loop over the chunks of a block, of which there are so many at most: its items, and how many chunks are replaced. -/
def optimiseChunks : Nat → List AssemblyItem → CommonSubexpressionEliminator → C (List AssemblyItem × Nat)
  | _, [], _ => return ([], 0)
  | 0, _ :: _, _ => throw (.optimizer .tooDeep)
  | k + 1, item :: items, eliminator => do
    let (rest, eliminator) ← CommonSubexpressionEliminator.lift (eliminator.feedItems sha3 n (item :: items))
    let (result, eliminator) ← eliminator.getOptimizedItems sha3 n turns
    let (chunk, replaced) ← replaceChunk ((item :: items).take ((item :: items).length - rest.length)) result
    let (optimisedItems, count) ← optimiseChunks k rest eliminator
    return (chunk ++ optimisedItems, replaced + count)

/-- The loop over the blocks. -/
def optimiseBlocks (items : List AssemblyItem) : List BasicBlock → C (List AssemblyItem × Nat)
  | [] => return ([], 0)
  | block :: blocks => do
    match block.startState with
    | none => throw (.optimizer .OptimizerException)
    | some startState =>
      let (chunk, replaced) ← optimiseChunks sha3 n turns (block.endIndex - block.beginIndex)
        ((items.drop block.beginIndex).take (block.endIndex - block.beginIndex)) { m_initialState := startState, m_state := startState }
      let (optimisedItems, count) ← optimiseBlocks items blocks
      return (chunk ++ optimisedItems, replaced + count)

/-- The blocks of the items, optimised one by one. -/
def eliminate (items : List AssemblyItem) : C (List AssemblyItem × Nat) := do
  let blocks ← CommonSubexpressionEliminator.lift (ControlFlowGraph.optimisedBlocks sha3 n turns items)
  optimiseBlocks sha3 n turns items blocks

/-- A round of the loop: the items after it, and what it counts. -/
structure Round where
  m_items : List AssemblyItem
  /-- Whether tags have been replaced. -/
  deduplicated : Bool
  /-- How many chunks have been replaced. -/
  replaced : Nat
  /-- Whether the items have been replaced because they are fewer. -/
  shortened : Bool
deriving DecidableEq, Repr

def Round.count (r : Round) : Nat := r.deduplicated.toNat + r.replaced + r.shortened.toNat

inductive OptimiseError where
  | pass (e : CSEError)
  | tooManyRounds
deriving DecidableEq, Repr

/-- One round, with classes of its own. It throws where a pass does, or does not return in so many turns. -/
def optimiseRound (m_items : List AssemblyItem) : Except OptimiseError Round :=
  match BlockDeduplicator.deduplicate turns m_items with
  | none => .error (.pass (.optimizer .tooDeep))
  | some (m_items, deduplicated) =>
    match eliminate sha3 n turns m_items ⟨[], []⟩ with
    | .error e _ => .error (.pass e)
    | .ok (optimisedItems, replaced) _ =>
      if optimisedItems.length < m_items.length then .ok ⟨optimisedItems, deduplicated, replaced, true⟩
      else .ok ⟨m_items, deduplicated, replaced, false⟩

/-- The loop of `optimise`, for so many rounds. -/
def optimiseLoop : Nat → List AssemblyItem → Except OptimiseError (List AssemblyItem)
  | 0, _ => throw .tooManyRounds
  | rounds + 1, m_items => do
    let r ← optimiseRound sha3 n turns m_items
    if 0 < r.count then optimiseLoop rounds r.m_items else return r.m_items

end Assembly

end Webthree
