import Webthree.Chain.BlockHeader
import Webthree.Lib.EState

/-!
# The block chain

`BlockChain`: the two databases, the memos in front of the extras database, and the head. Difficulties, `u256` in the source, are
natural numbers where they are added up. The memo of blocks is left out, since blocks are never changed or deleted, and so are
receipts and the log blooms of single transactions, which `import` only stores. A write to a database succeeds.

What the rest of the client decides about an import is part of the call: whether the time of the block is in the future, the
checks of the seal engine, and how enactment ends.
-/

namespace Webthree

/-- What ends an import early. -/
inductive ChainError where
  | AlreadyHaveBlock
  | UnknownParent
  | FutureTime
  | TransientError
  /-- Another `Exception`. -/
  | Exception
  /-- The client ends, with the message that the database is corrupt. -/
  | exit
  | assertionFailed
  /-- The loop of `treeRoute` does not come to an end. -/
  | noProgress
deriving DecidableEq, Repr

/-- What `enactOn` does. -/
inductive Enactment where
  | accepted
  /-- A node of the state trie is missing. -/
  | badRoot
  | rejected
deriving DecidableEq, Repr

/-- What is decided elsewhere about an import. -/
structure Attempt where
  /-- Whether the timestamp is greater than `utcTime()`, and `allowFutureBlocks` is not set. -/
  inFuture : Bool
  /-- Whether the other checks of `verifyBlock(..., ImportRequirements::InOrderChecks)` let the block pass. -/
  verified : Bool
  /-- The hashes whose details enactment asks for. -/
  consulted : List H256
  enactment : Enactment
deriving DecidableEq, Repr

/-- The extras database. -/
structure Extras where
  details : H256 → Option BlockDetails
  blockHash : Nat → Option H256
  transactionAddress : H256 → Option TransactionAddress
  blocksBlooms : Nat → Option BlocksBlooms

/-- An entry of a batch for the extras database. -/
inductive Put where
  | details (h : H256) (d : BlockDetails)
  | blockHash (n : Nat) (h : H256)
  | transactionAddress (t : H256) (ta : TransactionAddress)
  | blocksBlooms (id : Nat) (bb : BlocksBlooms)

/-- `Put` -/
def Extras.put (e : Extras) : Put → Extras
  | .details h d => { e with details := Function.update e.details h (some d) }
  | .blockHash n h => { e with blockHash := Function.update e.blockHash n (some h) }
  | .transactionAddress t ta => { e with transactionAddress := Function.update e.transactionAddress t (some ta) }
  | .blocksBlooms id bb => { e with blocksBlooms := Function.update e.blocksBlooms id (some bb) }

/-- `Write` -/
def Extras.write (e : Extras) (batch : List Put) : Extras := batch.foldl Extras.put e

/-- `BlockChain` -/
structure BlockChain where
  m_blocksDB : H256 → Option VerifiedBlockRef
  m_extrasDB : Extras
  m_details : H256 → Option BlockDetails
  m_blockHashes : Nat → Option H256
  m_transactionAddresses : H256 → Option TransactionAddress
  m_blocksBlooms : Nat → Option BlocksBlooms
  m_lastBlockHash : H256
  m_lastBlockNumber : Nat

/-- `ImportRoute`, without the transactions. -/
structure ImportRoute where
  deadBlocks : List H256
  liveBlocks : List H256
deriving DecidableEq, Repr

namespace BlockChain

/-- The details of the genesis block. -/
def genesisDetails (P : ChainParams) : BlockDetails :=
  { number := 0, totalDifficulty := P.genesisBlock.info.difficulty.toNat, parent := nullHash, children := [] }

/-- `open` without existing databases. -/
def new (P : ChainParams) : BlockChain :=
  { m_blocksDB := fun _ => none
    m_extrasDB :=
      { details := Function.update (fun _ => none) P.genesisHash (some (genesisDetails P)), blockHash := fun _ => none
        transactionAddress := fun _ => none, blocksBlooms := fun _ => none }
    m_details := Function.update (fun _ => none) P.genesisHash (some (genesisDetails P))
    m_blockHashes := fun _ => none, m_transactionAddresses := fun _ => none, m_blocksBlooms := fun _ => none
    m_lastBlockHash := P.genesisHash, m_lastBlockNumber := 0 }

/-- An operation on the chain. -/
abbrev ChainM := EStateM ChainError BlockChain

/-- One operation after the other. -/
def each {β : Type} (f : β → ChainM Unit) : List β → ChainM Unit
  | [] => return ()
  | x :: xs => do
    f x
    each f xs

/-! ## Queries -/

/-- `queryExtras`: from the memo, or else from the database and then into the memo, or else the null value. -/
def queryExtras {κ β : Type} [DecidableEq κ] (memo : BlockChain → κ → Option β) (setMemo : (κ → Option β) → BlockChain → BlockChain)
    (db : Extras → κ → Option β) (null : β) (k : κ) : ChainM β := do
  let c ← get
  match memo c k, db c.m_extrasDB k with
  | some x, _ => return x
  | none, none => return null
  | none, some x => do
    set (setMemo (Function.update (memo c) k (some x)) c)
    return x

/-- `details` -/
def details (h : H256) : ChainM BlockDetails :=
  queryExtras m_details (fun m c => { c with m_details := m }) Extras.details NullBlockDetails h

/-- `numberHash` -/
def numberHash (P : ChainParams) (i : Nat) : ChainM H256 :=
  if i = 0 then return P.genesisHash
  else queryExtras m_blockHashes (fun m c => { c with m_blockHashes := m }) Extras.blockHash nullHash i

/-- `queryExtras<TransactionAddress, ExtraTransactionAddress>` -/
def transactionAddress (t : H256) : ChainM TransactionAddress :=
  queryExtras m_transactionAddresses (fun m c => { c with m_transactionAddresses := m }) Extras.transactionAddress
    NullTransactionAddress t

/-- `isKnownTransaction` -/
def isKnownTransaction (t : H256) : ChainM Bool := return (← transactionAddress t).isSet

/-- `transactionLocation` -/
def transactionLocation (t : H256) : ChainM (H256 × Nat) := do
  let ta ← transactionAddress t
  if !ta.isSet then return (nullHash, 0) else return (ta.blockHash, ta.index)

/-- `blocksBlooms` -/
def blocksBlooms (id : Nat) : ChainM BlocksBlooms :=
  queryExtras m_blocksBlooms (fun m c => { c with m_blocksBlooms := m }) Extras.blocksBlooms NullBlocksBlooms id

/-- `number(_hash)` -/
def number (h : H256) : ChainM Nat := return (← details h).number

/-- `block`, or nothing where the source returns no bytes. -/
def block (P : ChainParams) (c : BlockChain) (h : H256) : Option VerifiedBlockRef :=
  if h = P.genesisHash then some P.genesisBlock else c.m_blocksDB h

/-- `isKnown` -/
def isKnown (P : ChainParams) (h : H256) (isCurrent : Bool) : ChainM Bool := do
  let c ← get
  if h = P.genesisHash then return true
  else if (c.m_blocksDB h).isNone then return false
  else if (c.m_details h).isNone && (c.m_extrasDB.details h).isNone then return false
  else if !isCurrent then return true
  else return (← details h).number ≤ (← get).m_lastBlockNumber

/-! ## Routes -/

/-- `while (fn > tn)` of `treeRoute`, with the number of turns: what it pushes, and where it ends. -/
def climb (push : Bool) : (turns : Nat) → (h : H256) → ChainM (List H256 × H256)
  | 0, h => return ([], h)
  | turns + 1, h => do
    let d ← details h
    let (hs, top) ← climb push turns d.parent
    return (if push then h :: hs else hs, top)

/-- The last loop of `treeRoute`; it stops at the latest when both hashes are null. -/
def meet (common pre post : Bool) : (turns : Nat) → (f t : H256) → ChainM (List H256 × List H256 × H256)
  | 0, _, _ => throw .noProgress
  | turns + 1, f, t => do
    let ret := if pre && (f ≠ t || common) then [f] else []
    let back := if post && (f ≠ t || (!pre && common)) then [t] else []
    if f = t then return (ret, back, f)
    else if f = nullHash || t = nullHash then throw .assertionFailed
    else do
      let fd ← details f
      let td ← details t
      let (ret', back', c) ← meet common pre post turns fd.parent td.parent
      return (ret ++ ret', back ++ back', c)

/-- `treeRoute` -/
def treeRoute («from» «to» : H256) (common pre post : Bool) : ChainM (List H256 × H256 × Nat) := do
  if «from» = nullHash || «to» = nullHash then return ([], nullHash, 0)
  else do
    let fn := (← details «from»).number
    let tn := (← details «to»).number
    let (ret₁, f) ← climb pre (fn - tn) «from»
    let (back₁, t) ← climb post (tn - fn) «to»
    let (ret₂, back₂, c) ← meet common pre post (min fn tn + 2) f t
    let ret := ret₁ ++ ret₂
    let back := back₁ ++ back₂
    return (ret ++ back.reverse, c, ret.length - if common && !ret.isEmpty && !back.isEmpty then 1 else 0)

/-! ## The blooms -/

/-- `m_blocksBlooms[_id]`, made if it is not there. -/
def memoBlooms (c : BlockChain) (id : Nat) : BlocksBlooms := (c.m_blocksBlooms id).getD NullBlocksBlooms

/-- `m_blocksBlooms[_id].blooms[_offset] = _bloom` -/
def setBloom (id : Nat) (offset : Fin c_bloomIndexSize) (bloom : LogBloom) (c : BlockChain) : BlockChain :=
  { c with m_blocksBlooms := Function.update c.m_blocksBlooms id (some (Function.update (c.memoBlooms id) offset bloom)) }

/-- All the bits of a chunk. -/
def accumulate (bb : BlocksBlooms) : LogBloom := (List.ofFn bb).foldl (· ||| ·) 0

/-- One turn of the inner loop of `clearBlockBlooms`: the bloom is rebuilt from the previous level if there is one. -/
def clearItem (level item : Nat) : ChainM Unit := do
  let acc ← if level = 0 then pure (0 : LogBloom) else do
    let bb ← blocksBlooms (chunkId (level - 1) item)
    pure (accumulate bb)
  let _ ← blocksBlooms (chunkId level (item / c_bloomIndexSize))
  modify (setBloom (chunkId level (item / c_bloomIndexSize)) (bloomOffset item) acc)

/-- The loops of `clearBlockBlooms` for the levels from `level` on. -/
def clearLevels : (levels : Nat) → (level beginDirty endDirty : Nat) → ChainM Unit
  | 0, _, _, _ => return ()
  | levels + 1, level, beginDirty, endDirty => do
    each (clearItem level) (List.range' beginDirty (endDirty - beginDirty))
    clearLevels levels (level + 1) (beginDirty / c_bloomIndexSize) ((endDirty - 1) / c_bloomIndexSize + 1)

/-- `clearBlockBlooms` -/
def clearBlockBlooms («begin» «end» : Nat) : ChainM Unit := clearLevels c_bloomIndexLevels 0 «begin» «end»

/-- The levels of the index, and the index of a block at each. -/
def bloomIndices (number : Nat) : List (Nat × Nat) :=
  (List.range c_bloomIndexLevels).map fun level => (level, number / c_bloomIndexSize ^ level)

/-- Where the bloom of a block goes: the chunks, and the offset in each. -/
def bloomPlaces (number : Nat) : List (Nat × Fin c_bloomIndexSize) :=
  (bloomIndices number).map fun p => (chunkId p.1 (p.2 / c_bloomIndexSize), bloomOffset p.2)

/-! ## Import -/

/-- The entries of the transactions of a block. -/
def addressPuts (P : ChainParams) (b : VerifiedBlockRef) : List Put :=
  b.transactions.mapIdx fun i t => .transactionAddress (P.sha3 t) ⟨P.hash b.info, i⟩

/-- One turn of the loop over the blocks that become canonical: the blooms in the memo, and the entries for the database. -/
def canonize (P : ChainParams) (b : VerifiedBlockRef) : ChainM (List Put) := do
  let n := b.info.number.toNat
  each (fun p => do let _ ← blocksBlooms p.1) (bloomPlaces n)
  each (fun p => modify fun c => setBloom p.1 p.2 (c.memoBlooms p.1 p.2 ||| P.blockBloom b) c) (bloomPlaces n)
  let c ← get
  return addressPuts P b ++ (bloomPlaces n).map (fun p => .blocksBlooms p.1 (c.memoBlooms p.1)) ++ [.blockHash n (P.hash b.info)]

/-- The loop over the blocks that become canonical, from the new head down. -/
def canonizeAll (P : ChainParams) (b : VerifiedBlockRef) : List H256 → ChainM (List Put)
  | [] => return []
  | h :: hs => do
    let c ← get
    match if h = P.hash b.info then some b else block P c h with
    | none => throw .Exception
    | some tb => do
      let puts ← canonize P tb
      let puts' ← canonizeAll P b hs
      return puts ++ puts'

/-- `m_blockHashes.erase(n)` for the blocks of the old branch, from the number of the head down. -/
def eraseHashes : (dead : List H256) → (n : Nat) → (Nat → Option H256) → Nat → Option H256
  | [], _, m => m
  | _ :: dead, n, m => eraseHashes dead (n - 1) (Function.update m n none)

/-- What is done if the old head is not an ancestor of the new one. -/
def revert (route : List H256) (common last : H256) : ChainM Unit := do
  let n ← number (route.headD nullHash)
  modify fun c =>
    { c with
      m_blockHashes := eraseHashes (route.takeWhile (· ≠ common)) n c.m_blockHashes
      m_transactionAddresses := fun _ => none }
  let cn ← number common
  let ln ← number last
  clearBlockBlooms (cn + 1) (ln + 1)

/-- The block becomes the head: the route to it, the common ancestor, and the entries for the database. -/
def adopt (P : ChainParams) (b : VerifiedBlockRef) : ChainM (List H256 × H256 × List Put) := do
  let last := (← get).m_lastBlockHash
  let (r, common, _) ← treeRoute last b.info.parentHash true true true
  let route := r ++ [P.hash b.info]
  -- Most of the time these two will be equal - only when we're doing a chain revert will they not be
  if common ≠ last then revert route common last
  let puts ← canonizeAll P b (route.reverse.takeWhile (· ≠ common))
  return (route, common, puts)

/-- Whether the block is the new best one. -/
def isBest (P : ChainParams) (b : VerifiedBlockRef) (td : Nat) : ChainM Bool := do
  let last := (← get).m_lastBlockHash
  let d ← details last
  let gasUsed := ((block P (← get) last).map fun l => l.info.gasUsed).getD 0
  return td > d.totalDifficulty || (P.tieBreakingGas && td = d.totalDifficulty && b.info.gasUsed > gasUsed)

/-- `m_details[_parent].children.push_back(_h)` -/
def pushChild (parent h : H256) (c : BlockChain) : BlockChain :=
  let d := (c.m_details parent).getD NullBlockDetails
  { c with m_details := Function.update c.m_details parent (some { d with children := d.children ++ [h] }) }

/-- The checks that `import` makes first; the details of the parent. -/
def checks (P : ChainParams) (b : VerifiedBlockRef) (o : Attempt) (mustBeNew : Bool) : ChainM BlockDetails := do
  -- Check block doesn't already exist first!
  if (← isKnown P (P.hash b.info) true) && mustBeNew then throw .AlreadyHaveBlock
  if !(← isKnown P b.info.parentHash false) then throw .UnknownParent
  let pd ← details b.info.parentHash
  if pd.isNull then throw .exit
  if o.inFuture then throw .FutureTime
  -- Verify parent-critical parts; a parent without a time is taken for no parent
  match block P (← get) b.info.parentHash with
  | none => throw .Exception
  | some p =>
    if b.info.number.toNat > 2 ^ 32 - 1 || (p.info.timestamp ≠ Invalid256 &&
      (b.info.timestamp ≤ p.info.timestamp || b.info.number ≠ p.info.number + 1)) || !o.verified then throw .Exception
    each (fun h => do let _ ← details h) o.consulted
    match o.enactment with
    | .accepted => return pd
    | .badRoot => throw .TransientError
    | .rejected => throw .Exception

/-- The two lists of an import route. -/
def splitRoute (route : List H256) (common : H256) : ImportRoute :=
  { deadBlocks := route.takeWhile (· ≠ common), liveBlocks := (route.dropWhile (· ≠ common)).filter (· ≠ common) }

/-- What is written to the databases at the end. -/
def commit (P : ChainParams) (b : VerifiedBlockRef) (batch : List Put) (c : BlockChain) : BlockChain :=
  { c with
    m_blocksDB := Function.update c.m_blocksDB (P.hash b.info) (some b)
    m_extrasDB := c.m_extrasDB.write batch }

/-- `import` -/
def «import» (P : ChainParams) (b : VerifiedBlockRef) (o : Attempt) (mustBeNew : Bool) : ChainM ImportRoute := do
  let pd ← checks P b o mustBeNew
  let td := pd.totalDifficulty + b.info.difficulty.toNat
  -- ensure parent is cached for later addition.
  let _ ← details b.info.parentHash
  modify (pushChild b.info.parentHash (P.hash b.info))
  let parentDetails := ((← get).m_details b.info.parentHash).getD NullBlockDetails
  let batch : List Put :=
    [.details b.info.parentHash parentDetails,
      .details (P.hash b.info) { number := pd.number + 1, totalDifficulty := td, parent := b.info.parentHash, children := [] }]
  -- This might be the new best block...
  if ← isBest P b td then do
    let (route, common, puts) ← adopt P b
    modify fun c =>
      { commit P b (batch ++ puts) c with m_lastBlockHash := P.hash b.info, m_lastBlockNumber := b.info.number.toNat }
    return splitRoute route common
  else do
    modify (commit P b batch)
    return splitRoute [] nullHash

/-! ## Reading the index of blooms -/

/-- `upow`, which squares once for each step of `_b` above one. -/
def upow (a b : Nat) : Nat := if b = 0 then 1 else a ^ 2 ^ (b - 1)

/-- `ceilDiv`, computed in `unsigned`. -/
def ceilDiv (n d : Nat) : Nat := (n + d - 1) % 2 ^ 32 / d

/-- `withBlockBloom(_b, _earliest, _latest, _level, _index)` -/
def withBlockBloomAt (b : LogBloom) (earliest latest : Nat) : (level index : Nat) → ChainM (List Nat)
  | level, index => do
    let uCourse := upow c_bloomIndexSize (level + 1)
    let uFine := upow c_bloomIndexSize level
    let obegin := if index = earliest / uCourse then earliest / uFine % c_bloomIndexSize else 0
    let oend := if index = latest / uCourse then latest / uFine % c_bloomIndexSize + 1 else c_bloomIndexSize
    let bb ← blocksBlooms (chunkId level index)
    let os := (List.range' obegin (oend - obegin)).filter fun o => (bb (bloomOffset o)).contains b
    match level with
    | 0 => return os.map fun o => o + index * c_bloomIndexSize
    | level + 1 => do
      let rets ← os.mapM fun o => withBlockBloomAt b earliest latest level (o + index * c_bloomIndexSize)
      return rets.flatten

/-- `withBlockBloom` -/
def withBlockBloom (b : LogBloom) (earliest latest : Nat) : ChainM (List Nat) := do
  let u := upow c_bloomIndexSize c_bloomIndexLevels
  -- run through each of the top-level blockbloom blocks
  let rets ← (List.range' (earliest / u) (ceilDiv latest u + 1 - earliest / u)).mapM fun index =>
    withBlockBloomAt b earliest latest (c_bloomIndexLevels - 1) index
  return rets.flatten

end BlockChain

/-! ## Runs -/

/-- An entry of a memo that `garbageCollect` may take out. -/
inductive CacheID where
  | details (h : H256)
  | transactionAddress (t : H256)
  | blocksBlooms (id : Nat)

/-- An operation on the chain. -/
inductive ChainOp where
  | import (b : VerifiedBlockRef) (o : Attempt) (mustBeNew : Bool)
  | isKnown (h : H256) (isCurrent : Bool)
  | details (h : H256)
  | numberHash (i : Nat)
  | transactionAddress (t : H256)
  | blocksBlooms (id : Nat)
  | garbageCollect (ids : List CacheID)

namespace ChainOp

open BlockChain

/-- `garbageCollect` takes an entry out of its memo. -/
def evict (c : BlockChain) : CacheID → BlockChain
  | .details h => { c with m_details := Function.update c.m_details h none }
  | .transactionAddress t => { c with m_transactionAddresses := Function.update c.m_transactionAddresses t none }
  | .blocksBlooms id => { c with m_blocksBlooms := Function.update c.m_blocksBlooms id none }

/-- What the operation does. -/
def run (P : ChainParams) : ChainOp → ChainM Unit
  | .import b o mustBeNew => do let _ ← BlockChain.import P b o mustBeNew
  | .isKnown h isCurrent => do let _ ← BlockChain.isKnown P h isCurrent
  | .details h => do let _ ← BlockChain.details h
  | .numberHash i => do let _ ← BlockChain.numberHash P i
  | .transactionAddress t => do let _ ← BlockChain.transactionAddress t
  | .blocksBlooms id => do let _ ← BlockChain.blocksBlooms id
  | .garbageCollect ids => modify fun c => ids.foldl evict c

/-- The state after an operation, whether it returns or throws. -/
def next (P : ChainParams) (c : BlockChain) (op : ChainOp) : BlockChain := endState (op.run P c)

end ChainOp

end Webthree
