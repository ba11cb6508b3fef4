import Webthree.Chain.Block
import Webthree.Queue.TransactionQueue

/-!
# Filling a block from the queue

`Block::sync` with a transaction queue: the transactions on top of the queue are tried in passes. The queue is known by its
operations, and so is the gas pricer. The clock is part of the call: whether the deadline is over after each pass.
-/

namespace Webthree

namespace TransactionQueue

/-- `waiting` -/
def waiting (q : TransactionQueue) (a : Address) : Nat :=
  ((q.m_currentByAddressAndNonce a).map fun m => m.size).getD 0 + ((q.m_future.find a).map fun m => m.size).getD 0

end TransactionQueue

/-- The state, the transaction queue and the gas pricer, so far as `sync` uses them. -/
structure SyncOps (σ τ : Type) where
  state : StateOps σ
  transactionsFrom : Address → σ → U256
  /-- What a transaction of the queue is for the machine. -/
  transaction : SignedTransaction → Transaction
  topTransactions : τ → Nat → (H256 → Bool) → List SignedTransaction
  drop : H256 → τ → τ
  setFuture : H256 → τ → τ
  waiting : τ → Address → Nat
  ask : Block σ → U256

/-- The operations of `TransactionQueue`. -/
def SyncOps.ofQueue {σ : Type} (L : TransactionQueue.Library) (state : StateOps σ) (transactionsFrom : Address → σ → U256)
    (transaction : SignedTransaction → Transaction) (ask : Block σ → U256) : SyncOps σ TransactionQueue where
  state := state
  transactionsFrom := transactionsFrom
  transaction := transaction
  topTransactions := TransactionQueue.topTransactions
  drop h q := endState (TransactionQueue.drop L h q)
  setFuture h q := endState (TransactionQueue.setFuture L h q)
  waiting := TransactionQueue.waiting
  ask := ask

/-- `c_maxSyncTransactions` -/
def c_maxSyncTransactions : Nat := 1024

/-- What `sync` works on: the block and the queue, `ret`, and `goodTxs`. -/
structure Syncing (σ τ : Type) where
  block : Block σ
  m_transactionSet : List H256
  tq : τ
  receipts : List TransactionReceipt
  more : Bool
  goodTxs : Nat

namespace Syncing

variable {σ τ : Type}

section

variable (O : SyncOps σ τ) (lh : LastHashes)

/-- The handlers of `sync`. -/
def handle (t : SignedTransaction) (e : BlockError) (s : Syncing σ τ) : Syncing σ τ :=
  match e with
  | .execution (.other .InvalidNonce) =>
    let req := (O.transactionsFrom (O.transaction t).sender s.block.m_state).toNat
    let got := t.nonce.toNat
    -- too old
    if req > got then { s with tq := O.drop t.sha3 s.tq }
    -- too new
    else if got > req + O.waiting s.tq t.from then { s with tq := O.drop t.sha3 s.tq }
    else { s with tq := O.setFuture t.sha3 s.tq }
  | .execution (.other .BlockGasLimitReached) =>
    if (O.transaction t).gas > s.block.m_currentBlock.gasLimit then { s with tq := O.drop t.sha3 s.tq }
    -- Temporarily no gas left in current block.
    else s
  | _ => { s with tq := O.drop t.sha3 s.tq }

/-- What is done for one transaction in a pass. -/
def attempt (s : Syncing σ τ) (t : SignedTransaction) : Syncing σ τ :=
  if t.sha3 ∈ s.m_transactionSet then s
  else if t.gasPrice ≥ O.ask s.block then
    match Block.execute O.state lh (O.transaction t) .Committed s.block with
    | .ok _ b =>
      { s with
        block := b, m_transactionSet := t.sha3 :: s.m_transactionSet
        receipts := s.receipts ++ b.m_receipts.getLast?.toList, goodTxs := s.goodTxs + 1 }
    | .error e b => handle O t e { s with block := b }
  else if t.gasPrice < O.ask s.block * 9 / 10 then { s with tq := O.drop t.sha3 s.tq }
  else s

/-- One pass over the transactions. -/
def pass (ts : List SignedTransaction) (s : Syncing σ τ) : Syncing σ τ := ts.foldl (attempt O lh) { s with goodTxs := 0 }

/-- The loop of `sync`, with a bound on its turns; `late` says whether the deadline is over after a pass. -/
def loop (ts : List SignedTransaction) (late : Nat → Bool) : (turns : Nat) → (i : Nat) → Syncing σ τ → Option (Syncing σ τ)
  | 0, _, _ => none
  | turns + 1, i, s =>
    if s.goodTxs < ts.length then
      let s := pass O lh ts s
      if late i then some { s with more := true } else loop ts late turns (i + 1) s
    else some s

/-- What the loop starts with. -/
def start (b : Block σ) (set : List H256) (tq : τ) : Syncing σ τ :=
  let ts := O.topTransactions tq c_maxSyncTransactions fun h => h ∈ set
  -- say there's more to the caller if we hit the limit
  { block := b, m_transactionSet := set, tq := tq, receipts := [], more := ts.length = c_maxSyncTransactions, goodTxs := ts.length - 1 }

/-- `sync`, with a bound on the passes. -/
def sync (late : Nat → Bool) (turns : Nat) (b : Block σ) (set : List H256) (tq : τ) : Except BlockError (Option (Syncing σ τ)) :=
  if b.isSealed then throw .InvalidOperationOnSealedBlock
  else return loop O lh (O.topTransactions tq c_maxSyncTransactions fun h => h ∈ set) late turns 0 (start O b set tq)

end

end Syncing

end Webthree
