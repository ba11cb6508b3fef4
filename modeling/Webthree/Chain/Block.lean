import Webthree.Chain.BlockChain
import Webthree.Trie.TrieHash

/-!
# Making and checking a block

`Block`: a block that transactions are executed on and that is made ready for sealing by `commitToSeal`, or that is replayed by
`enact`. The chain is only asked here, and what a query leaves in a memo does not change what the next one returns, so the chain
is an argument. The state is known by its operations. `m_transactionSet`, which only the transaction queue is compared with, is
left out.
-/

namespace Webthree

/-- `LastHashes` -/
abbrev LastHashes := List H256

/-- `TransactionReceipt` -/
structure TransactionReceipt where
  stateRoot : H256
  gasUsed : U256
  bloom : LogBloom
  log : List LogEntry
deriving DecidableEq, Repr

/-- `LogEntry::streamRLP` -/
def LogEntry.streamRLP (l : LogEntry) : Item :=
  .list [.data ((H256.ofU256 (fromAddress l.address)).bytes.drop 12), .list (l.topics.map fun t => .data t.bytes), .data l.data]

/-- `TransactionReceipt::streamRLP` -/
def TransactionReceipt.streamRLP (r : TransactionReceipt) : Item :=
  .list [.data r.stateRoot.bytes, .data (toBigEndian r.gasUsed.toNat),
    .data ((List.range 256).map fun i => UInt8.ofNat (r.bloom.toNat >>> (8 * (255 - i)))), .list (r.log.map LogEntry.streamRLP)]

/-- `TransactionReceipt::rlp` -/
def TransactionReceipt.rlp (r : TransactionReceipt) : Bytes := r.streamRLP.encode

/-- `State`, so far as a block uses it. An execution that throws has put nothing but unchanged accounts into the cache, and one
that is reverted drops the cache: both leave the state as it was. -/
structure StateOps (σ : Type) where
  /-- `State::execute`, with `Permanence::Committed`. -/
  execute : EnvInfo → Transaction → σ → Except Stop (ExecutionResult × TransactionReceipt × σ)
  addBalance : Address → U256 → σ → σ
  commit : σ → σ
  rootHash : σ → H256
  setRoot : H256 → σ → σ

/-- The operations of `State`, over its executive; the trie is known by its root and by what a root stands for. -/
def StateOps.ofExecutive (E : SealEngine) (bloom : List LogEntry → LogBloom) (commit : State → State) (rootHash : State → H256)
    (setRoot : H256 → State → State) : StateOps State where
  execute env t s :=
    match Executive.transact E env t s with
    | .error stop _ => .error stop
    | .ok _ e =>
      let s' := commit e.m_s
      let logs := (e.m_ext.map fun x => x.sub.logs).getD []
      .ok (e.m_res.getD {}, ⟨rootHash s', env.gasUsed + Executive.gasUsed t e, bloom logs, logs⟩, s')
  addBalance a amount s := endState (State.addBalance a amount s)
  commit := commit
  rootHash := rootHash
  setRoot := setRoot

/-- What a block is set up with besides the chain: the hash of the build, the encodings that are hashed, the reward, and the seal
engine. -/
structure BlockParams where
  sha3 : Bytes → H256
  /-- `Transaction::streamRLP` -/
  transactionRLP : Transaction → Bytes
  /-- The header of an uncle, as the item it was read from. -/
  headerRLP : BlockHeader → Item
  blockReward : U256
  calculateDifficulty : BlockHeader → BlockHeader → U256
  childGasLimit : BlockHeader → U256

/-- `Permanence` -/
inductive Permanence where
  | Reverted
  | Committed
deriving DecidableEq, Repr

/-- What a block throws. -/
inductive BlockError where
  | InvalidOperationOnSealedBlock
  | InvalidParentHash
  | InvalidReceiptsStateRoot
  | InvalidLogBloom
  | TooManyUncles
  | UncleInChain
  | UnknownParent
  | UncleTooOld
  | UncleIsBrother
  | UncleParentNotInChain
  | InvalidNumber
  | InvalidTimestamp
  | InvalidStateRoot
  | InvalidGasUsed
  /-- A block that is asked for is not in the database. -/
  | BadRLP
  /-- What `State::execute` throws. -/
  | execution (s : Stop)
  /-- With `errinfo_transactionIndex`. -/
  | transactionIndex (i : Nat) (e : BlockError)
  /-- With `errinfo_uncleIndex`. -/
  | uncleIndex (i : Nat) (e : BlockError)
deriving DecidableEq, Repr

/-! ## Headers -/

namespace BlockHeader

/-- `BlockHeader()` -/
def blank : BlockHeader where
  parentHash := nullHash
  sha3Uncles := nullHash
  author := 0
  stateRoot := nullHash
  transactionsRoot := nullHash
  receiptsRoot := nullHash
  logBloom := 0
  difficulty := 0
  number := 0
  gasLimit := 0
  gasUsed := 0
  timestamp := Invalid256
  extraData := []
  sealFields := []

/-- The fields that `hash(WithoutSeal)` is computed from. -/
def withoutSeal (h : BlockHeader) : BlockHeader := { h with sealFields := [] }

/-- `populateFromParent` of the seal engine. -/
def populateFromParent (P : ChainParams) (Q : BlockParams) (h parent : BlockHeader) : BlockHeader :=
  let h := { h with
    stateRoot := parent.stateRoot, number := parent.number + 1, parentHash := P.hash parent, gasLimit := parent.gasLimit
    difficulty := 1, gasUsed := 0 }
  { h with difficulty := Q.calculateDifficulty h parent, gasLimit := Q.childGasLimit parent }

/-- `verify(CheckNothingNew, _parent)` -/
def verify (P : ChainParams) (h parent : BlockHeader) : Except BlockError Unit :=
  if h.number.toNat > 2 ^ 32 - 1 then throw .InvalidNumber
  else if parent.timestamp = Invalid256 then return ()
  else if h.parentHash ≠ nullHash && P.hash parent ≠ h.parentHash then throw .InvalidParentHash
  else if h.timestamp ≤ parent.timestamp then throw .InvalidTimestamp
  else if h.number ≠ parent.number + 1 then throw .InvalidNumber
  else return ()

/-- `EnvInfo(_current, _lh, _gasUsed)` -/
def envInfo (h : BlockHeader) (lh : LastHashes) (gasUsed : U256) : EnvInfo where
  number := h.number
  author := h.author
  timestamp := h.timestamp
  difficulty := h.difficulty
  gasLimit := h.gasLimit
  lastHashes := lh
  gasUsed := gasUsed

end BlockHeader

/-! ## Roots -/

/-- `rlp(_i)`, the key of an entry. -/
def indexKey (i : Nat) : Bytes := (Item.data (toBigEndian i)).encode

/-- `orderedTrieRoot`: `m[rlp(j++)] = i` -/
def orderedMap : (j : Nat) → (data : List Bytes) → BytesMap → BytesMap
  | _, [], m => m
  | j, i :: data, m => orderedMap (j + 1) data (m.insert (indexKey j) i)

/-- The maps of `commitToSeal`: `insert(std::make_pair(k.out(), ...))` -/
def indexMap : (i : Nat) → (data : List Bytes) → BytesMap → BytesMap
  | _, [], m => m
  | i, x :: data, m => indexMap (i + 1) data (m.insertIfNew (indexKey i) x)

/-- `hash256`, which gives a hash for every map without empty values. -/
def mapRoot (Q : BlockParams) (m : BytesMap) : H256 := (hash256 Q.sha3 m).getD nullHash

/-- `orderedTrieRoot` -/
def orderedTrieRoot (Q : BlockParams) (data : List Bytes) : H256 := mapRoot Q (orderedMap 0 data ∅)

/-! ## Asking the chain -/

namespace BlockChain

/-- What a query returns. -/
def ask {β : Type} (null : β) (m : ChainM β) (c : BlockChain) : β :=
  match m c with
  | .ok x _ => x
  | .error _ _ => null

/-- `details(_h).parent` -/
def parentOf (c : BlockChain) (h : H256) : H256 := (ask NullBlockDetails (details h) c).parent

/-- `details(_h).children` -/
def childrenOf (c : BlockChain) (h : H256) : List H256 := (ask NullBlockDetails (details h) c).children

/-- `RLP(block(_h))[2]` -/
def unclesOf (P : ChainParams) (c : BlockChain) (h : H256) : List BlockHeader := ((block P c h).map fun b => b.uncles).getD []

/-- `info` -/
def info (P : ChainParams) (c : BlockChain) (h : H256) : Except BlockError BlockHeader :=
  match block P c h with
  | some b => return b.info
  | none => throw .BadRLP

/-- The loop of `allKinFrom`. -/
def kinLoop (P : ChainParams) (c : BlockChain) : (generations : Nat) → (p : H256) → List H256
  | 0, _ => []
  | generations + 1, p =>
    if p = P.genesisHash then []
    else c.parentOf p :: ((unclesOf P c p).map P.hash ++ kinLoop P c generations (c.parentOf p))

/-- `allKinFrom` -/
def allKinFrom (P : ChainParams) (c : BlockChain) (parent : H256) (generations : Nat) : List H256 :=
  parent :: kinLoop P c generations parent

/-- The hash of a block, and the hashes of its next ancestors, as many as asked for. -/
def hashesFrom (P : ChainParams) (c : BlockChain) : (n : Nat) → (h : H256) → Except BlockError LastHashes
  | 0, h => return [h]
  | n + 1, h => do
    let parent ← if h = nullHash then pure nullHash else (do return (← info P c h).parentHash)
    return h :: (← hashesFrom P c n parent)

/-- `lastHashes`; `memo` is `m_lastLastHashes`. -/
def lastHashes (P : ChainParams) (c : BlockChain) (memo : LastHashes) (parent : H256) : Except BlockError LastHashes :=
  if memo.getLast? = some parent then return memo else hashesFrom P c 255 parent

end BlockChain

/-! ## Blocks -/

/-- `Block`. The RLP of the transactions and of the uncles, and the bytes of the sealed block, are known by what they encode. -/
structure Block (σ : Type) where
  m_state : σ
  m_transactions : List Transaction
  m_receipts : List TransactionReceipt
  /-- State at the point immediately prior to rewards. -/
  m_precommit : σ
  m_previousBlock : BlockHeader
  m_currentBlock : BlockHeader
  /-- Nothing as long as the block is not sealed. -/
  m_currentBytes : Option VerifiedBlockRef
  m_currentTxs : List Transaction
  m_currentUncles : List BlockHeader
  m_author : Address
  m_committedToSeal : Bool

namespace Block

variable {σ : Type}

/-- An operation on a block. -/
abbrev BlockM (σ : Type) := EStateM BlockError (Block σ)

/-- What is computed without the block. -/
def ofExcept {α : Type} : Except BlockError α → BlockM σ α
  | .ok a => return a
  | .error e => throw e

/-- `isSealed` -/
def isSealed (b : Block σ) : Bool := b.m_currentBytes.isSome

/-- `gasUsed` -/
def gasUsed (b : Block σ) : U256 := (b.m_receipts.getLast?.map fun r => r.gasUsed).getD 0

/-- `logBloom` -/
def logBloom (b : Block σ) : LogBloom := b.m_receipts.foldl (fun ret i => ret ||| i.bloom) 0

/-- `Block(Block const& _s)` -/
def copy (s : Block σ) : Block σ :=
  { s with m_precommit := s.m_state, m_currentTxs := [], m_currentUncles := [], m_committedToSeal := false }

/-- `operator=`, of another block. -/
def assign (b s : Block σ) : Block σ :=
  { s with
    m_precommit := s.m_state, m_currentTxs := b.m_currentTxs, m_currentUncles := b.m_currentUncles, m_committedToSeal := false }

/-- `uncommitToSeal` -/
def uncommitToSeal (b : Block σ) : Block σ :=
  if b.m_committedToSeal then { b with m_state := b.m_precommit, m_committedToSeal := false } else b

section

variable (P : ChainParams) (Q : BlockParams) (S : StateOps σ)

/-- `resetCurrent` -/
def resetCurrent (timestamp : U256) (b : Block σ) : Block σ :=
  let ts := if b.m_previousBlock.timestamp + 1 < timestamp then timestamp else b.m_previousBlock.timestamp + 1
  let s := S.setRoot b.m_previousBlock.stateRoot b.m_state
  { b with
    m_transactions := [], m_receipts := []
    m_currentBlock := BlockHeader.populateFromParent P Q { BlockHeader.blank with author := b.m_author, timestamp := ts } b.m_previousBlock
    m_currentBytes := none, m_state := s, m_precommit := s, m_committedToSeal := false }

/-- `sync`, where there are new blocks available or we have switched to a different branch. -/
def sync (bi : BlockHeader) (timestamp : U256) (b : Block σ) : Block σ :=
  resetCurrent P Q S timestamp { b with m_previousBlock := bi }

/-- `execute` -/
def execute (lh : LastHashes) (t : Transaction) (p : Permanence) : BlockM σ ExecutionResult := do
  if (← get).isSealed then throw .InvalidOperationOnSealedBlock
  -- Uncommitting is a non-trivial operation - only do it once we've verified as much of the transaction as possible.
  modify uncommitToSeal
  let b ← get
  match S.execute (b.m_currentBlock.envInfo lh b.gasUsed) t b.m_state with
  | .error s => throw (.execution s)
  | .ok (result, receipt, s) => do
    -- Add to the user-originated transactions that we've executed.
    if p = .Committed then
      set { b with m_state := s, m_transactions := b.m_transactions ++ [t], m_receipts := b.m_receipts ++ [receipt] }
    return result

/-- What an uncle brings its author, computed in `u256`. -/
def uncleReward (u current : BlockHeader) : U256 := Q.blockReward * (8 + u.number - current.number) / 8

/-- The loop of `applyRewards`: the state, and the reward of the author of the block. -/
def rewardUncles (current : BlockHeader) : List BlockHeader → σ → U256 → σ × U256
  | [], s, r => (s, r)
  | i :: uncles, s, r => rewardUncles current uncles (S.addBalance i.author (uncleReward Q i current) s) (r + Q.blockReward / 32)

/-- `applyRewards` -/
def applyRewards (uncles : List BlockHeader) (current : BlockHeader) (s : σ) : σ :=
  let r := rewardUncles Q S current uncles s Q.blockReward
  S.addBalance current.author r.2 r.1

/-! ### Making a block -/

/-- The loop of `commitToSeal` over the children of an ancestor. -/
def chooseChildren (c : BlockChain) (excluded : List H256) : List H256 → List BlockHeader → Except BlockError (List BlockHeader)
  | [], chosen => return chosen
  | u :: us, chosen =>
    -- ignore any uncles/mainline blocks that we know about.
    if u ∈ excluded then chooseChildren c excluded us chosen
    else do
      let chosen := chosen ++ [← BlockChain.info P c u]
      if chosen.length = 2 then return chosen else chooseChildren c excluded us chosen

/-- The loop of `commitToSeal` over the ancestors. -/
def chooseUncles (c : BlockChain) (excluded : List H256) : (gens : Nat) → (p : H256) → List BlockHeader →
    Except BlockError (List BlockHeader)
  | 0, _, chosen => return chosen
  | gens + 1, p, chosen =>
    if p = P.genesisHash || chosen.length ≥ 2 then return chosen
    else do
      let chosen ← chooseChildren P c excluded (c.childrenOf p) chosen
      chooseUncles c excluded gens (c.parentOf p) chosen

/-- The uncles that `commitToSeal` chooses. -/
def chosen (c : BlockChain) (b : Block σ) : Except BlockError (List BlockHeader) :=
  -- Find great-uncles (or second-cousins or whatever they are) - children of great-grandparents, great-great-grandparents...
  -- that were not already uncles in previous generations.
  if b.m_previousBlock.number ≠ 0 then
    chooseUncles P c (c.allKinFrom P b.m_currentBlock.parentHash 6) 6 b.m_previousBlock.parentHash []
  else return []

/-- `sha3(m_currentUncles)` -/
def unclesHash (uncles : List BlockHeader) : H256 := Q.sha3 (Item.list (uncles.map Q.headerRLP)).encode

/-- `commitToSeal` -/
def commitToSeal (c : BlockChain) (extraData : Bytes) : BlockM σ Unit := do
  if (← get).isSealed then throw .InvalidOperationOnSealedBlock
  modify fun b => if b.m_committedToSeal then b.uncommitToSeal else { b with m_precommit := b.m_state }
  let b ← get
  let uncles ← ofExcept (chosen P c b)
  -- Apply rewards last of all.
  let s := S.commit (applyRewards Q S uncles b.m_currentBlock b.m_state)
  set { b with
    m_state := s, m_currentTxs := b.m_transactions, m_currentUncles := uncles, m_committedToSeal := true
    m_currentBlock := { b.m_currentBlock with
      logBloom := b.logBloom, gasUsed := b.gasUsed
      transactionsRoot := mapRoot Q (indexMap 0 (b.m_transactions.map Q.transactionRLP) ∅)
      receiptsRoot := mapRoot Q (indexMap 0 (b.m_receipts.map TransactionReceipt.rlp) ∅)
      sha3Uncles := unclesHash Q uncles, stateRoot := S.rootHash s
      parentHash := P.hash b.m_previousBlock, extraData := extraData.take 32 } }

/-- `sealBlock` -/
def sealBlock (header : BlockHeader) : BlockM σ Bool := do
  let b ← get
  if !b.m_committedToSeal then return false
  else if P.hash header.withoutSeal ≠ P.hash b.m_currentBlock.withoutSeal then return false
  else do
    set { b with
      m_currentBytes := some ⟨header, b.m_currentTxs, b.m_currentUncles⟩, m_currentBlock := header, m_state := b.m_precommit }
    return true

/-! ### Checking a block -/

/-- The loop of `enact` over the transactions: the RLP of the receipts. -/
def playback (lh : LastHashes) : (i : Nat) → List Transaction → BlockM σ (List Bytes)
  | _, [] => return []
  | i, tr :: transactions => do
    let _ ← tryCatch (execute S lh tr .Committed) fun e => throw (.transactionIndex i e)
    let b ← get
    let receipt := (b.m_receipts.getLast?.map TransactionReceipt.rlp).getD []
    let receipts ← playback lh (i + 1) transactions
    return receipt :: receipts

/-- How far the uncle is below the block, and what is wrong with that. -/
def uncleDepth (current uncle : BlockHeader) : Except BlockError Nat :=
  let depth : Int := current.number.toNat - uncle.number.toNat
  if depth > 6 then throw .UncleTooOld else if depth < 1 then throw .UncleIsBrother else return depth.toNat

/-- The body of the loop of `enact` over the uncles. -/
def checkUncle (c : BlockChain) (current : BlockHeader) (excluded : List H256) (uncle : BlockHeader) : Except BlockError Unit := do
  if P.hash uncle ∈ excluded then throw .UncleInChain
  if !BlockChain.ask false (BlockChain.isKnown P uncle.parentHash true) c then throw .UnknownParent
  let uncleParent ← BlockChain.info P c uncle.parentHash
  let depth ← uncleDepth current uncle
  let expectedUncleParent := c.parentOf^[depth - 1] (c.parentOf current.parentHash)
  if expectedUncleParent ≠ P.hash uncleParent then throw .UncleParentNotInChain
  uncle.verify P uncleParent

/-- The loop of `enact` over the uncles. -/
def checkUncles (c : BlockChain) (current : BlockHeader) : (ii : Nat) → (excluded : List H256) → List BlockHeader → Except BlockError Unit
  | _, _, [] => return ()
  | ii, excluded, uncle :: uncles => do
    tryCatch (checkUncle P c current excluded uncle) fun e => throw (.uncleIndex ii e)
    checkUncles c current (ii + 1) (P.hash uncle :: excluded) uncles

/-- `enact`. `m_currentBlock` is assumed to be prepopulated and reset. -/
def enact (c : BlockChain) (memo : LastHashes) (block : VerifiedBlockRef) : BlockM σ U256 := do
  let b ← get
  if b.m_currentBlock.parentHash ≠ P.hash b.m_previousBlock then throw .InvalidParentHash
  -- Populate m_currentBlock with the correct values.
  modify fun b => { b with m_currentBlock := block.info }
  let lh ← ofExcept (c.lastHashes P memo block.info.parentHash)
  -- All ok with the block generally. Play back the transactions now...
  let receipts ← playback S lh 0 block.transactions
  if orderedTrieRoot Q receipts ≠ block.info.receiptsRoot then throw .InvalidReceiptsStateRoot
  if block.info.logBloom ≠ (← get).logBloom then throw .InvalidLogBloom
  -- Check uncles & apply their rewards to state.
  if block.uncles.length > 2 then throw .TooManyUncles
  ofExcept (checkUncles P c block.info 0 (P.hash block.info :: c.allKinFrom P block.info.parentHash 6) block.uncles)
  -- Commit all cached state changes to the state trie.
  modify fun b => { b with m_state := S.commit (applyRewards Q S block.uncles block.info b.m_state) }
  let b ← get
  -- Hash the state trie and check against the state_root hash in m_currentBlock.
  if block.info.stateRoot ≠ b.m_previousBlock.stateRoot && block.info.stateRoot ≠ S.rootHash b.m_state then throw .InvalidStateRoot
  if block.info.gasUsed ≠ b.gasUsed then throw .InvalidGasUsed
  return block.info.difficulty

end

end Block

/-! ## Runs -/

/-- A block and what has happened to it since it was last reset. -/
structure Tracked (σ : Type) where
  block : Block σ
  /-- The state at the reset. -/
  parent : σ
  /-- What has been executed and recorded, each with the hashes it was executed with. -/
  executed : List (LastHashes × Transaction)
  /-- Whether the block, or one that it has been copied from, is a copy of a block that was committed to seal. -/
  copied : Bool

/-- An operation on one block. -/
inductive BlockOp where
  | sync (bi : BlockHeader) (timestamp : U256)
  | resetCurrent (timestamp : U256)
  | execute (lh : LastHashes) (t : Transaction) (p : Permanence)
  | commitToSeal (c : BlockChain) (extraData : Bytes)
  | uncommitToSeal

/-- An operation on one of several blocks, or a copy of one of them. -/
inductive PoolOp where
  | on (i : Nat) (op : BlockOp)
  /-- The block is made as a copy of another. -/
  | copy (i j : Nat)
  /-- Another is assigned to the block. -/
  | assign (i j : Nat)

namespace Tracked

variable {σ : Type}

/-- A block that has just been reset. -/
def reset (b : Block σ) : Tracked σ := { block := b, parent := b.m_state, executed := [], copied := false }

/-- What a copy knows of its source; `b` is the copy. -/
def copyTo (x : Tracked σ) (b : Block σ) : Tracked σ := { x with block := b, copied := x.copied || x.block.m_committedToSeal }

section

variable (P : ChainParams) (Q : BlockParams) (S : StateOps σ)

/-- The block after an operation, whether it returns or throws. -/
def next (x : Tracked σ) : BlockOp → Tracked σ
  | .sync bi timestamp => reset (x.block.sync P Q S bi timestamp)
  | .resetCurrent timestamp => reset (x.block.resetCurrent P Q S timestamp)
  | .execute lh t p =>
    match Block.execute S lh t p x.block with
    | .ok _ b => { x with block := b, executed := if p = .Committed then x.executed ++ [(lh, t)] else x.executed }
    | .error _ b => { x with block := b }
  | .commitToSeal c extraData => { x with block := endState (Block.commitToSeal P Q S c extraData x.block) }
  | .uncommitToSeal => { x with block := x.block.uncommitToSeal }

/-- The blocks after an operation. -/
def nextOf (pool : Nat → Tracked σ) : PoolOp → Nat → Tracked σ
  | .on i op => Function.update pool i ((pool i).next P Q S op)
  | .copy i j => Function.update pool i ((pool j).copyTo (pool j).block.copy)
  | .assign i j => if i = j then pool else Function.update pool i ((pool j).copyTo ((pool i).block.assign (pool j).block))

end

end Tracked

end Webthree
