import Webthree.Chain.BlockChain
import Webthree.Queue.BlockQueue

/-!
# Importing what the queue has

`BlockChain::sync`: it drains the queue, tries to import each block, and reports the bad ones to the queue. The queue keeps of
a block what it reads itself; `verified` gives the whole block. Waiting and the calls of `m_onBad` are left out.
-/

namespace Webthree

namespace BlockChain

/-- What `sync` collects. -/
structure Synced where
  deadBlocks : List H256
  liveBlocks : List H256
  badBlocks : List H256
  count : Nat
deriving DecidableEq, Repr

/-- One turn of the loop of `sync`: an attempt, and what is made of the exceptions. -/
def syncOne (P : ChainParams) (b : VerifiedBlockRef) (o : Attempt) : ChainM Synced :=
  tryCatch
    (do
      let r ← BlockChain.import P b o true
      return { deadBlocks := r.deadBlocks, liveBlocks := r.liveBlocks, badBlocks := [], count := 1 })
    fun e =>
      match e with
      -- Can't continue - chain bad.
      | .UnknownParent | .AlreadyHaveBlock | .Exception =>
        return { deadBlocks := [], liveBlocks := [], badBlocks := [P.hash b.info], count := 0 }
      -- `continue` goes to the end of `do ... while (false)`
      | .FutureTime | .TransientError => return { deadBlocks := [], liveBlocks := [], badBlocks := [], count := 0 }
      | .exit | .assertionFailed | .noProgress => throw e

/-- The loop of `sync`. -/
def syncLoop (P : ChainParams) : List (VerifiedBlockRef × Attempt) → ChainM Synced
  | [] => return { deadBlocks := [], liveBlocks := [], badBlocks := [], count := 0 }
  | (b, o) :: blocks => do
    let s ← syncOne P b o
    let s' ← syncLoop P blocks
    return {
      deadBlocks := s.deadBlocks ++ s'.deadBlocks
      liveBlocks := s.liveBlocks ++ s'.liveBlocks
      badBlocks := s.badBlocks ++ s'.badBlocks
      count := s.count + s'.count }

/-- The batch that `sync` works on. -/
def batch (verified : VerifiedBlock → VerifiedBlockRef) (attempt : Nat → Attempt) (max : Nat) (q : BlockQueue) :
    List (VerifiedBlockRef × Attempt) :=
  (q.drainOut max).mapIdx fun i b => (verified b, attempt i)

/-- `sync`: what it has collected, what `doneDrain` returns, and the queue. -/
def sync (P : ChainParams) (L : BlockQueue.Library) (verified : VerifiedBlock → VerifiedBlockRef) (attempt : Nat → Attempt) (max : Nat)
    (q : BlockQueue) : ChainM (Synced × Bool × BlockQueue) := do
  let s ← syncLoop P (batch verified attempt max q)
  let q := (q.drain max).doneDrain L s.badBlocks
  return (s, q.m_readySet ≠ ∅, q)

end BlockChain

end Webthree
