import Webthree.Lib.WordOps
import Webthree.Chain.Block

/-!
# The rules of Elhash for headers

`Elhash::verify`, `childGasLimit`, `calculateDifficulty` and `populateFromParent`. How `u256` is added, subtracted and multiplied is an
argument, the code being what results with operations that wrap. The seal is checked elsewhere, and of a block only the two hashes are
known that its header is compared with.
-/

namespace Webthree

/-- `Strictness` -/
inductive Strictness where
  | CheckEverything
  | JustSeal
  | QuickNonce
  | IgnoreSeal
  | CheckNothingNew
deriving DecidableEq, Repr

/-- The seal engine: its `chainParams()`, the hash of headers, and the checks of the seal. -/
structure Elhash where
  minGasLimit : U256
  maxGasLimit : U256
  gasLimitBoundDivisor : U256
  minimumDifficulty : U256
  difficultyBoundDivisor : U256
  durationLimit : U256
  frontierCompatibilityModeLimit : U256
  maximumExtraDataSize : U256
  hash : BlockHeader → H256
  verifySeal : BlockHeader → Bool
  quickVerifySeal : BlockHeader → Bool

/-- What the engine throws. -/
inductive ElhashError where
  | GenesisBlockCannotBeCalculated
  | InvalidNumber
  | TooMuchGasUsed (required got : Nat)
  | InvalidParentHash
  | InvalidTimestamp
  | InvalidTransactionsRoot (required got : H256)
  | InvalidUnclesHash (required got : H256)
  | InvalidDifficulty (required got : Nat)
  /-- With the limit that is required. -/
  | InvalidGasLimit (required got : Nat)
  /-- With the window around the limit of the parent. -/
  | InvalidGasLimitWindow (min got max : Int)
  | ExtraDataTooBig (required got : Nat) (extraData : Bytes)
  | InvalidBlockNonce
  | arithmetic (e : WordError)
deriving DecidableEq, Repr

/-- What a block is compared with its header by: the root of its transactions, and the hash of its uncles. -/
structure BlockHashes where
  transactionsRoot : H256
  sha3Uncles : H256
deriving DecidableEq, Repr

namespace Elhash

def c_expDiffPeriod : Nat := 100000

variable (A : WordOps 256) (E : Elhash)

/-- An operation on words. -/
def word {α : Type} (x : Except WordError α) : Except ElhashError α := x.mapError .arithmetic

/-- `explicit operator bool` of a header. -/
def isSet (h : BlockHeader) : Bool := h.timestamp ≠ Invalid256

/-- `childGasLimit` -/
def childGasLimit (bi : BlockHeader) (gasFloorTarget : U256) : Except WordError U256 := do
  let gasFloorTarget := if gasFloorTarget = Invalid256 then 3141562 else gasFloorTarget
  let gasLimit := bi.gasLimit
  let boundDivisor := E.gasLimitBoundDivisor
  if gasLimit < gasFloorTarget then do
    let raised ← A.sub (← A.add gasLimit (← WordOps.div gasLimit boundDivisor)) 1
    pure (if raised < gasFloorTarget then raised else gasFloorTarget)
  else do
    let lowered ← A.add (← A.sub gasLimit (← WordOps.div gasLimit boundDivisor)) 1
    let used ← WordOps.div (← A.mul bi.gasUsed 6) 5
    let raised ← A.add lowered (← WordOps.div used boundDivisor)
    pure (if gasFloorTarget < raised then raised else gasFloorTarget)

/-- The difficulty of the parent, adjusted to the time that the block took. -/
def target (bi parent : BlockHeader) : Except WordError Int := do
  if bi.number < E.frontierCompatibilityModeLimit then do
    -- Frontier-era difficulty adjustment
    let late ← A.add parent.timestamp E.durationLimit
    if bi.timestamp ≥ late then do
      pure ((← A.sub parent.difficulty (← WordOps.div parent.difficulty E.difficultyBoundDivisor)).toNat : Int)
    else do
      pure ((← A.add parent.difficulty (← WordOps.div parent.difficulty E.difficultyBoundDivisor)).toNat : Int)
  else
    -- Homestead-era difficulty adjustment
    pure (parent.difficulty.toNat + (parent.difficulty / 2048).toNat *
      max (1 - ((bi.timestamp.toNat : Int) - parent.timestamp.toNat).tdiv 10) (-99))

/-- `calculateDifficulty` -/
def calculateDifficulty (bi parent : BlockHeader) : Except ElhashError U256 := do
  if bi.number = 0 then throw .GenesisBlockCannotBeCalculated
  else do
    let target ← word (E.target A bi parent)
    let periodCount := (← word (A.add parent.number 1)).toNat % 2 ^ 32 / c_expDiffPeriod
    let o := if periodCount > 1 then target + 2 ^ (periodCount - 2) else target
    let o := max (E.minimumDifficulty.toNat : Int) o
    pure (BitVec.ofInt 256 (min o (2 ^ 256 - 1)))

/-- `BlockHeader::populateFromParent`, where `m_hash` is the memo of the parent, which is null unless its hash has been asked for. -/
def populateHeader (bi parent : BlockHeader) (m_hash : H256) : Except WordError BlockHeader := do
  let number ← A.add parent.number 1
  pure { bi with
    stateRoot := parent.stateRoot, number := number, parentHash := m_hash, gasLimit := parent.gasLimit
    difficulty := 1, gasUsed := 0 }

/-- `populateFromParent` -/
def populateFromParent (bi parent : BlockHeader) (m_hash : H256) : Except ElhashError BlockHeader := do
  let bi ← word (populateHeader A bi parent m_hash)
  let bi := { bi with difficulty := ← E.calculateDifficulty A bi parent }
  pure { bi with gasLimit := ← word (E.childGasLimit A parent Invalid256) }

/-- `BlockHeader::verify` -/
def verifyHeader (s : Strictness) (bi parent : BlockHeader) (block : Option BlockHashes) : Except ElhashError Unit := do
  if bi.number.toNat > 2 ^ 32 - 1 then throw .InvalidNumber
  if s ≠ .CheckNothingNew ∧ bi.gasUsed > bi.gasLimit then throw (.TooMuchGasUsed bi.gasLimit.toNat bi.gasUsed.toNat)
  if isSet parent then do
    if bi.parentHash ≠ nullHash ∧ E.hash parent ≠ bi.parentHash then throw .InvalidParentHash
    if bi.timestamp ≤ parent.timestamp then throw .InvalidTimestamp
    if bi.number ≠ (← word (A.add parent.number 1)) then throw .InvalidNumber
  match block with
  | none => pure ()
  | some b => do
    if bi.transactionsRoot ≠ b.transactionsRoot then throw (.InvalidTransactionsRoot b.transactionsRoot bi.transactionsRoot)
    if bi.sha3Uncles ≠ b.sha3Uncles then throw (.InvalidUnclesHash b.sha3Uncles bi.sha3Uncles)

/-- The checks of `verify` of the difficulty and the gas limit alone. -/
def verifyLimits (bi : BlockHeader) : Except ElhashError Unit := do
  if bi.difficulty < E.minimumDifficulty then throw (.InvalidDifficulty E.minimumDifficulty.toNat bi.difficulty.toNat)
  if bi.gasLimit < E.minGasLimit then throw (.InvalidGasLimit E.minGasLimit.toNat bi.gasLimit.toNat)
  if bi.gasLimit > E.maxGasLimit then throw (.InvalidGasLimit E.maxGasLimit.toNat bi.gasLimit.toNat)

/-- The check of `verify` of the extra data. -/
def verifyExtraData (bi : BlockHeader) : Except ElhashError Unit := do
  if bi.number ≠ 0 ∧ bi.extraData.length > E.maximumExtraDataSize.toNat then
    throw (.ExtraDataTooBig E.maximumExtraDataSize.toNat bi.extraData.length bi.extraData)

/-- The condition on the gas limit beside that of the parent. -/
def badGasLimit (gasLimit parentGasLimit : U256) : Except WordError Bool := do
  if gasLimit < E.minGasLimit ∨ gasLimit > E.maxGasLimit then pure true
  else do
    if gasLimit ≤ (← A.sub parentGasLimit (← WordOps.div parentGasLimit E.gasLimitBoundDivisor)) then pure true
    else pure (gasLimit ≥ (← A.add parentGasLimit (← WordOps.div parentGasLimit E.gasLimitBoundDivisor)))

/-- The checks of `verify` against the parent. -/
def verifyParent (bi parent : BlockHeader) : Except ElhashError Unit := do
  let expected ← E.calculateDifficulty A bi parent
  let difficulty := bi.difficulty
  if difficulty ≠ expected then throw (.InvalidDifficulty expected.toNat difficulty.toNat)
  let gasLimit := bi.gasLimit
  let parentGasLimit := parent.gasLimit
  if ← word (E.badGasLimit A gasLimit parentGasLimit) then do
    let bound ← word (WordOps.div parentGasLimit E.gasLimitBoundDivisor)
    throw (.InvalidGasLimitWindow (parentGasLimit.toNat - bound.toNat) gasLimit.toNat (parentGasLimit.toNat + bound.toNat))

/-- The checks of `verify` of the seal. -/
def verifySealOf (s : Strictness) (bi : BlockHeader) : Except ElhashError Unit := do
  if s = .CheckEverything ∧ bi.parentHash ≠ nullHash ∧ !E.verifySeal bi then throw .InvalidBlockNonce
  else if s = .QuickNonce ∧ bi.parentHash ≠ nullHash ∧ !E.quickVerifySeal bi then throw .InvalidBlockNonce

/-- `verify` -/
def verify (s : Strictness) (bi parent : BlockHeader) (block : Option BlockHashes) : Except ElhashError Unit := do
  E.verifyHeader A s bi parent block
  if s ≠ .CheckNothingNew then do
    E.verifyLimits bi
    E.verifyExtraData bi
  if isSet parent then E.verifyParent A bi parent
  E.verifySealOf s bi

end Elhash

end Webthree
