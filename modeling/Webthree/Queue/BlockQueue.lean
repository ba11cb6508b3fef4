import Mathlib.Data.Finset.Basic
import Webthree.Common

/-!
# The block queue

`BlockQueue` and its verifier threads. Every operation holds `m_lock`, and takes `m_verification` for the deques; a verifier takes
a job under `m_verification` alone, which commutes with what an operation does in between, so operations and the three things
a verifier does under a lock are single steps. `tick` is not: it imports what it has found one block after the other, without the
lock in between.

The counters, `size_t` in the source, are integers, so that a counter that wraps there is below zero here. Logging, the signals
and the log of bad blocks are left out, and so are the transactions of a verified block, which the queue does not read.

Parameters are the parts of `BlockChain` that the queue calls, and the order in which a hash table is iterated. What the chain
knows is part of a step.
-/

namespace Webthree

/-- A block header, as far as the queue reads it. -/
structure QueuedHeader where
  /-- `hash()` -/
  hash : H256
  parentHash : H256
  sha3Uncles : H256
  difficulty : U256
  timestamp : U256
deriving DecidableEq, Repr

/-- `BlockQueue::UnverifiedBlock` -/
structure UnverifiedBlock where
  hash : H256
  parentHash : H256
  block : Bytes
  /-- Not in the source: whether the chain knew the parent when the block was put into `m_unverified`. -/
  parentInChain : Bool
deriving DecidableEq, Repr

/-- `VerifiedBlock`. While a verifier is at work there is a placeholder in `m_verifying`, without data, whose `sha3Uncles` is the
hash of the block. -/
structure VerifiedBlock where
  info : QueuedHeader
  blockData : Bytes
  /-- Not in the source: the job it comes from. -/
  work : UnverifiedBlock
deriving DecidableEq, Repr

/-- An entry of `m_unknown`, under the hash of the parent. -/
structure UnknownBlock where
  parentHash : H256
  hash : H256
  block : Bytes
deriving DecidableEq, Repr

/-- An entry of `m_future`, under the time of the block. -/
structure FutureBlock where
  time : Nat
  hash : H256
  block : Bytes
deriving DecidableEq, Repr

/-- `ImportResult`, as far as the queue returns it. -/
inductive BlockImport where
  | Success
  | UnknownParent
  | FutureTimeKnown
  | FutureTimeUnknown
  | AlreadyInChain
  | AlreadyKnown
  | Malformed
  | BadChain
deriving DecidableEq, Repr

/-- `BlockQueue` -/
structure BlockQueue where
  m_drainingSet : Finset H256
  m_readySet : Finset H256
  m_unknownSet : Finset H256
  m_unknown : List UnknownBlock
  m_knownBad : Finset H256
  /-- Ordered by time. -/
  m_future : List FutureBlock
  m_verified : List VerifiedBlock
  m_verifying : List VerifiedBlock
  m_unverified : List UnverifiedBlock
  m_unknownSize : Int
  m_knownSize : Int
  m_unknownCount : Int
  m_knownCount : Int
  m_difficulty : U256
  m_drainingDifficulty : U256
  /-- The jobs of the verifiers. -/
  working : List UnverifiedBlock
  /-- What `tick` has found and not imported yet. -/
  todo : List Bytes
  /-- What `drain` has handed out since the last `doneDrain`. -/
  draining : List VerifiedBlock
  /-- Not in the source: all blocks that have been put into `m_unverified`. -/
  entered : List UnverifiedBlock
  /-- Not in the source: all blocks that have been handed out. -/
  drained : List UnverifiedBlock
  /-- Not in the source: whether since the last `clear` a block has left one of the three deques as bad. -/
  badKnown : Bool
  /-- Not in the source: whether since the last `clear` a block has left `m_unknown` as bad. -/
  badUnknown : Bool

namespace BlockQueue

/-- `BlockQueue()` -/
def new : BlockQueue :=
  { m_drainingSet := ∅, m_readySet := ∅, m_unknownSet := ∅, m_unknown := [], m_knownBad := ∅, m_future := [], m_verified := []
    m_verifying := [], m_unverified := [], m_unknownSize := 0, m_knownSize := 0, m_unknownCount := 0, m_knownCount := 0
    m_difficulty := 0, m_drainingDifficulty := 0, working := [], todo := [], draining := [], entered := [], drained := []
    badKnown := false, badUnknown := false }

/-- What the queue gets from outside. -/
structure Library where
  /-- `BlockHeader::headerHashFromBlock`, the hash of the bytes of the header. -/
  headerHashFromBlock : Bytes → H256
  /-- The header `verifyBlock` returns with `ImportRequirements::PostGenesis`; `none` if it throws. -/
  verifyBlock : Bytes → Option QueuedHeader
  /-- The order in which a multimap gives its entries. -/
  order : List UnknownBlock → List UnknownBlock
  order_perm : ∀ l, (order l).Perm l
  /-- A header keeps the hash of the bytes it was read from. -/
  hash_eq : ∀ b bi, verifyBlock b = some bi → bi.hash = headerHashFromBlock b
  /-- Headers with one hash are one. -/
  header_eq : ∀ b b' bi bi', verifyBlock b = some bi → verifyBlock b' = some bi' → bi.hash = bi'.hash → bi = bi'
  /-- The hash of the uncles, which `verifyBlock` checks, is not the hash of the header of a block that `verifyBlock` accepts: a list
  of headers is not a header. -/
  uncles_ne : ∀ b b' bi bi', verifyBlock b = some bi → verifyBlock b' = some bi' → bi.sha3Uncles ≠ headerHashFromBlock b'
  /-- No bytes are no block. -/
  verifyBlock_nil : verifyBlock [] = none

variable (L : Library)

/-! ## Badness -/

/-- One entry of `m_unknown` turns out to be bad. -/
def unknownIsBad (q : BlockQueue) (e : UnknownBlock) : BlockQueue :=
  { q with
    m_unknownSize := q.m_unknownSize - e.block.length
    m_unknownCount := q.m_unknownCount - 1
    m_unknownSet := q.m_unknownSet.erase e.hash
    m_knownBad := insert e.hash q.m_knownBad
    badUnknown := true }

/-- `m_unknown.equal_range(_h)` -/
def equalRange (q : BlockQueue) (h : H256) : List UnknownBlock := L.order (q.m_unknown.filter fun e => e.parentHash = h)

/-- `m_unknown.erase` of the range of a hash. -/
def eraseRange (q : BlockQueue) (h : H256) : BlockQueue := { q with m_unknown := q.m_unknown.filter fun e => e.parentHash ≠ h }

/-- The loop of `collectUnknownBad_WITH_BOTH_LOCKS`. A turn takes as many hashes off `badQueue` and entries off `m_unknown` as it
puts hashes onto `badQueue`, and one more. -/
def collectBadTurns : (turns : Nat) → (badQueue : List H256) → BlockQueue → BlockQueue
  | 0, _, q => q
  | _, [], q => q
  | turns + 1, h :: badQueue, q =>
    let r := q.equalRange L h
    collectBadTurns turns (badQueue ++ r.map UnknownBlock.hash) (eraseRange (r.foldl unknownIsBad q) h)

/-- `collectUnknownBad_WITH_BOTH_LOCKS` -/
def collectUnknownBad_WITH_BOTH_LOCKS (bad : H256) (q : BlockQueue) : BlockQueue :=
  collectBadTurns L (q.m_unknown.length + 1) [bad] q

/-- A block of one of the deques is bad. -/
def markBad (q : BlockQueue) (h : H256) : BlockQueue :=
  { q with m_knownBad := insert h q.m_knownBad, m_readySet := q.m_readySet.erase h, badKnown := true }

/-- One of the three loops of `updateBad_WITH_LOCK`, over the old deque. It returns the new deque and whether there was a bad
block. `own` is the hash that is looked up besides that of the parent, `hash` the one that is marked. -/
def sweep {α : Type} (parent own hash : α → H256) : List α → BlockQueue → List α × Bool × BlockQueue
  | [], q => ([], false, q)
  | b :: old, q =>
    if parent b ∈ q.m_knownBad ∨ own b ∈ q.m_knownBad then
      let r := sweep parent own hash old (collectUnknownBad_WITH_BOTH_LOCKS L (hash b) (q.markBad (hash b)))
      (r.1, true, r.2.2)
    else
      let r := sweep parent own hash old q
      (b :: r.1, r.2)

/-- The loop over `oldVerified`, and whether it has found a bad block. -/
def sweepVerified (q : BlockQueue) : Bool × BlockQueue :=
  let r := sweep L (fun b : VerifiedBlock => b.info.parentHash) (fun b => b.info.hash) (fun b => b.info.hash) q.m_verified q
  (r.2.1, { r.2.2 with m_verified := r.1 })

/-- The loop over `oldUnverified`. -/
def sweepUnverified (q : BlockQueue) : Bool × BlockQueue :=
  let r := sweep L (fun b : UnverifiedBlock => b.parentHash) (fun b => b.hash) (fun b => b.hash) q.m_unverified q
  (r.2.1, { r.2.2 with m_unverified := r.1 })

/-- The hash of a block of `m_verifying`. -/
def verifyingHash (b : VerifiedBlock) : H256 := if b.blockData ≠ [] then b.info.hash else b.info.sha3Uncles

/-- The loop over `oldVerifying`. It looks up `sha3Uncles`, which is the hash of the block in a placeholder only. -/
def sweepVerifying (q : BlockQueue) : Bool × BlockQueue :=
  let r := sweep L (fun b : VerifiedBlock => b.info.parentHash) (fun b => b.info.sha3Uncles) verifyingHash q.m_verifying q
  (r.2.1, { r.2.2 with m_verifying := r.1 })

/-- One turn of the loop of `updateBad_WITH_LOCK`, and whether there was a bad block. -/
def updateBadTurn (q : BlockQueue) : Bool × BlockQueue :=
  let r₁ := q.sweepVerified L
  let r₂ := r₁.2.sweepUnverified L
  let r₃ := r₂.2.sweepVerifying L
  (r₁.1 || r₂.1 || r₃.1, r₃.2)

/-- `while (moreBad)`; a turn that finds a bad block makes a deque shorter. -/
def updateBadTurns : (turns : Nat) → BlockQueue → BlockQueue
  | 0, q => q
  | turns + 1, q =>
    let r := q.updateBadTurn L
    if r.1 then updateBadTurns turns r.2 else r.2

/-- `updateBad_WITH_LOCK` -/
def updateBad_WITH_LOCK (q : BlockQueue) (bad : H256) : BlockQueue :=
  updateBadTurns L (q.m_verified.length + q.m_unverified.length + q.m_verifying.length + 1)
    (collectUnknownBad_WITH_BOTH_LOCKS L bad q)

/-! ## Readiness -/

/-- `m_unverified.push_back` -/
def pushUnverified (q : BlockQueue) (b : UnverifiedBlock) : BlockQueue :=
  { q with m_unverified := q.m_unverified ++ [b], entered := q.entered ++ [b] }

/-- The job that an entry of `m_unknown` becomes. -/
def UnknownBlock.job (e : UnknownBlock) : UnverifiedBlock := ⟨e.hash, e.parentHash, e.block, false⟩

/-- One entry of `m_unknown` becomes ready. -/
def unknownIsReady (q : BlockQueue) (e : UnknownBlock) : BlockQueue :=
  let q := q.pushUnverified (UnknownBlock.job e)
  { q with
    m_knownSize := q.m_knownSize + e.block.length
    m_knownCount := q.m_knownCount + 1
    m_unknownSize := q.m_unknownSize - e.block.length
    m_unknownCount := q.m_unknownCount - 1
    m_unknownSet := q.m_unknownSet.erase e.hash
    m_readySet := insert e.hash q.m_readySet }

/-- The loop of `noteReady_WITH_LOCK`. -/
def noteReadyTurns : (turns : Nat) → (goodQueue : List H256) → BlockQueue → BlockQueue
  | 0, _, q => q
  | _, [], q => q
  | turns + 1, h :: goodQueue, q =>
    let r := q.equalRange L h
    noteReadyTurns turns (goodQueue ++ r.map UnknownBlock.hash) (eraseRange (r.foldl unknownIsReady q) h)

/-- `noteReady_WITH_LOCK` -/
def noteReady_WITH_LOCK (good : H256) (q : BlockQueue) : BlockQueue := noteReadyTurns L (q.m_unknown.length + 1) [good] q

/-- One entry of `m_unknown` is tried again. -/
def retryUnknown (q : BlockQueue) (e : UnknownBlock) : BlockQueue :=
  let q := q.pushUnverified (UnknownBlock.job e)
  { q with
    m_unknownSet := q.m_unknownSet.erase e.hash
    m_readySet := insert e.hash q.m_readySet
    m_knownCount := q.m_knownCount + 1 }

/-- `retryAllUnknown` -/
def retryAllUnknown (q : BlockQueue) : BlockQueue :=
  let q := (L.order q.m_unknown).foldl retryUnknown q
  { q with m_unknown := [], m_knownSize := q.m_knownSize + q.m_unknownSize, m_unknownSize := 0, m_unknownCount := 0 }

/-! ## Importing -/

/-- `m_future.insert`, behind the entries with the same time. -/
def insertFuture (e : FutureBlock) (l : List FutureBlock) : List FutureBlock :=
  l.takeWhile (fun e' => e'.time ≤ e.time) ++ e :: l.dropWhile fun e' => e'.time ≤ e.time

/-- `import(_block, _isOurs)`, at the time `now`, with what the chain says to `isKnown` of the block and of its parent. -/
def «import» (b : Bytes) (isOurs : Bool) (now : Nat) (inChain parentInChain : Bool) (q : BlockQueue) : BlockImport × BlockQueue :=
  let h := L.headerHashFromBlock b
  if h ∈ q.m_readySet ∨ h ∈ q.m_drainingSet ∨ h ∈ q.m_unknownSet ∨ h ∈ q.m_knownBad then (.AlreadyKnown, q)
  else
    match L.verifyBlock b with
    | none => (.Malformed, q)
    | some bi =>
      if inChain then (.AlreadyInChain, q)
      else
        let unknown := bi.parentHash ∉ q.m_readySet ∧ bi.parentHash ∉ q.m_drainingSet ∧ ¬parentInChain
        if bi.timestamp.toNat > now ∧ ¬isOurs then
          (if unknown then .FutureTimeUnknown else .FutureTimeKnown,
            { q with
              m_future := insertFuture ⟨bi.timestamp.toNat % 2 ^ 32, h, b⟩ q.m_future
              m_unknownSize := q.m_unknownSize + b.length
              m_unknownCount := q.m_unknownCount + 1
              m_difficulty := q.m_difficulty + bi.difficulty })
        else if bi.parentHash ∈ q.m_knownBad then
          (.BadChain, updateBad_WITH_LOCK L { q with m_knownBad := insert bi.hash q.m_knownBad } bi.hash)
        else if unknown then
          (.UnknownParent,
            { q with
              m_unknown := q.m_unknown ++ [⟨bi.parentHash, h, b⟩]
              m_unknownSet := insert h q.m_unknownSet
              m_unknownSize := q.m_unknownSize + b.length
              m_difficulty := q.m_difficulty + bi.difficulty
              m_unknownCount := q.m_unknownCount + 1 })
        else
          let q := q.pushUnverified ⟨h, bi.parentHash, b, parentInChain⟩
          (.Success, noteReady_WITH_LOCK L h
            { q with
              m_readySet := insert h q.m_readySet
              m_knownSize := q.m_knownSize + b.length
              m_difficulty := q.m_difficulty + bi.difficulty
              m_knownCount := q.m_knownCount + 1 })

/-- The entries `tick` takes out of `m_future` at the time `now`. The bound is converted to `unsigned`. -/
def due (q : BlockQueue) (now : Nat) : List FutureBlock :=
  match q.m_future with
  | [] => []
  | e :: _ => if now < e.time then [] else q.m_future.takeWhile fun e => e.time ≤ now % 2 ^ 32

/-- `tick`, as far as it holds the lock. -/
def tick (now : Nat) (q : BlockQueue) : BlockQueue :=
  let due := q.due now
  { q with
    m_future := q.m_future.drop due.length
    m_unknownSize := q.m_unknownSize - (due.map fun e => (e.block.length : Int)).sum
    m_unknownCount := q.m_unknownCount - due.length
    todo := q.todo ++ due.map FutureBlock.block }

/-! ## Verification -/

/-- `drainVerified_WITH_BOTH_LOCKS`, over the blocks of `m_verifying`. -/
def drainVerifiedLoop : List VerifiedBlock → BlockQueue → BlockQueue
  | [], q => { q with m_verifying := [] }
  | b :: verifying, q =>
    if b.blockData = [] then { q with m_verifying := b :: verifying }
    else if b.info.parentHash ∈ q.m_knownBad then drainVerifiedLoop verifying (q.markBad b.info.hash)
    else drainVerifiedLoop verifying { q with m_verified := q.m_verified ++ [b] }

/-- `drainVerified_WITH_BOTH_LOCKS` -/
def drainVerified_WITH_BOTH_LOCKS (q : BlockQueue) : BlockQueue := drainVerifiedLoop q.m_verifying q

/-- The placeholder of a job. -/
def placeholder (work : UnverifiedBlock) : VerifiedBlock :=
  { info := { hash := H256.ofU256 0, parentHash := work.parentHash, sha3Uncles := work.hash, difficulty := 0, timestamp := 0 }
    blockData := [], work := work }

/-- A verifier takes a job. -/
def takeJob (q : BlockQueue) : BlockQueue :=
  match q.m_unverified with
  | [] => q
  | work :: unverified =>
    { q with m_unverified := unverified, m_verifying := q.m_verifying ++ [placeholder work], working := q.working ++ [work] }

/-- The end of `verifierBody` if the block is bad. -/
def reportFailure (work : UnverifiedBlock) (q : BlockQueue) : BlockQueue :=
  drainVerified_WITH_BOTH_LOCKS
    { q with
      m_readySet := q.m_readySet.erase work.hash
      m_knownBad := insert work.hash q.m_knownBad
      m_verifying := q.m_verifying.eraseP fun b => b.info.sha3Uncles = work.hash
      badKnown := q.badKnown || q.m_verifying.any fun b => b.info.sha3Uncles = work.hash }

/-- The first block for which `p` holds becomes `b`. -/
def replaceFirst (p : VerifiedBlock → Bool) (b : VerifiedBlock) : List VerifiedBlock → List VerifiedBlock
  | [] => []
  | b' :: l => if p b' then b :: l else b' :: replaceFirst p b l

/-- The end of `verifierBody` if the block is good. -/
def reportSuccess (work : UnverifiedBlock) (info : QueuedHeader) (q : BlockQueue) : BlockQueue :=
  let res : VerifiedBlock := ⟨info, work.block, work⟩
  match q.m_verifying with
  | [] => q
  | b :: verifying =>
    if b.info.sha3Uncles = work.hash then
      -- we're next!
      drainVerified_WITH_BOTH_LOCKS
        (if info.parentHash ∈ q.m_knownBad then { q.markBad info.hash with m_verifying := verifying }
        else { q with m_verifying := verifying, m_verified := q.m_verified ++ [res] })
    else { q with m_verifying := replaceFirst (fun b => b.info.sha3Uncles = work.hash) res q.m_verifying }

/-! ## Draining -/

/-- The blocks that `drain` hands out. -/
def drainOut (q : BlockQueue) (max : Nat) : List VerifiedBlock := if q.m_drainingSet = ∅ then q.m_verified.take max else []

/-- One block of `o_out`. -/
def drainOne (q : BlockQueue) (b : VerifiedBlock) : BlockQueue :=
  { q with
    m_drainingSet := insert b.info.hash q.m_drainingSet
    m_drainingDifficulty := q.m_drainingDifficulty + b.info.difficulty
    m_readySet := q.m_readySet.erase b.info.hash
    m_knownSize := q.m_knownSize - b.blockData.length
    m_knownCount := q.m_knownCount - 1
    draining := q.draining ++ [b]
    drained := q.drained ++ [b.work] }

/-- `drain` -/
def drain (max : Nat) (q : BlockQueue) : BlockQueue :=
  if q.m_drainingSet = ∅ then
    (q.m_verified.take max).foldl drainOne
      { q with m_drainingDifficulty := 0, m_verified := q.m_verified.drop max, draining := [] }
  else q

/-- `doneDrain` -/
def doneDrain (bad : List H256) (q : BlockQueue) : BlockQueue :=
  let q :=
    { q with
      m_drainingSet := ∅
      m_difficulty := q.m_difficulty - q.m_drainingDifficulty
      m_drainingDifficulty := 0
      draining := []
      m_knownBad := q.m_knownBad ∪ bad.toFinset }
  bad.foldl (updateBad_WITH_LOCK L) q

/-- `clear` -/
def clear (q : BlockQueue) : BlockQueue :=
  { q with
    m_readySet := ∅, m_drainingSet := ∅, m_verified := [], m_unverified := [], m_verifying := [], m_unknownSet := ∅
    m_unknown := [], m_future := [], m_unknownSize := 0, m_unknownCount := 0, m_knownSize := 0, m_knownCount := 0
    m_difficulty := 0, m_drainingDifficulty := 0, draining := [], badKnown := false, badUnknown := false }

/-! ## Reading -/

def c_maxKnownCount : Int := 100000

def c_maxKnownSize : Int := 128 * 1024 * 1024

/-- `knownFull` -/
def knownFull (q : BlockQueue) : Bool := q.m_knownSize > c_maxKnownSize || q.m_knownCount > c_maxKnownCount

/-- `invariants`; `false` if it throws. -/
def invariants (q : BlockQueue) : Bool :=
  q.m_readySet.card = q.m_verified.length + q.m_unverified.length + q.m_verifying.length

/-! ## Steps -/

/-- What can happen next. -/
inductive Step where
  | import (b : Bytes) (isOurs : Bool) (now : Nat) (inChain parentInChain : Bool)
  | tick (now : Nat)
  /-- `tick` imports the block at this place of what it has found. -/
  | tickImport (i : Nat) (now : Nat) (inChain parentInChain : Bool)
  | takeJob
  /-- The verifier with the job at this place is done with it, and the block is good or not. -/
  | report (i : Nat) (good : Bool)
  | drain (max : Nat)
  | doneDrain (bad : List H256)
  | retryAllUnknown
  | clear

/-- The state after a step. A step that cannot be taken changes nothing. -/
def next (q : BlockQueue) : Step → BlockQueue
  | .import b isOurs now inChain parentInChain => (q.import L b isOurs now inChain parentInChain).2
  | .tick now => q.tick now
  | .tickImport i now inChain parentInChain =>
    match q.todo[i]? with
    | none => q
    | some b => ({ q with todo := q.todo.eraseIdx i }.import L b false now inChain parentInChain).2
  | .takeJob => q.takeJob
  | .report i good =>
    match q.working[i]? with
    | none => q
    | some work =>
      let q := { q with working := q.working.eraseIdx i }
      match good, L.verifyBlock work.block with
      | true, some info => q.reportSuccess work info
      | _, _ => q.reportFailure work
  | .drain max => q.drain max
  | .doneDrain bad => q.doneDrain L bad
  | .retryAllUnknown => q.retryAllUnknown L
  | .clear => q.clear

end BlockQueue

end Webthree
