import Webthree.Chain.Block

/-!
# The last hashes

The chain together with `m_lastLastHashes`, the memo of `lastHashes`, which an import that changes the canonical chain empties.
-/

namespace Webthree

/-- `BlockChain`, with `m_lastLastHashes`. -/
structure MemoChain where
  chain : BlockChain
  m_lastLastHashes : LastHashes

/-- An operation on the chain, or the query. -/
inductive MemoOp where
  | chain (op : ChainOp)
  | lastHashes (parent : H256)

namespace MemoChain

/-- A chain that has just been opened. -/
def new (P : ChainParams) : MemoChain := { chain := BlockChain.new P, m_lastLastHashes := [] }

section

variable (P : ChainParams)

/-- What the loop of `lastHashes` writes from one place on, up to a block that is not there. -/
def written (c : BlockChain) : (n : Nat) → (h : H256) → LastHashes
  | 0, h => [h]
  | n + 1, h =>
    if h = nullHash then h :: written c n nullHash
    else
      match BlockChain.info P c h with
      | .ok i => h :: written c n i.parentHash
      | .error _ => [h]

/-- `m_lastLastHashes` after a query. -/
def remember (c : BlockChain) (memo : LastHashes) (parent : H256) : LastHashes :=
  if memo.getLast? = some parent then memo
  else
    let l := written P c 255 parent
    l ++ ((memo ++ List.replicate 256 nullHash).take 256).drop l.length

/-- Whether an operation gets to `noteCanonChanged`: an import whose route is not empty. -/
def canonChanged (c : BlockChain) : ChainOp → Bool
  | .import b o mustBeNew =>
    match BlockChain.import P b o mustBeNew c with
    | .ok r _ => r ≠ ⟨[], []⟩
    | .error _ _ => false
  | _ => false

/-- The chain and the memo after an operation. -/
def next (x : MemoChain) : MemoOp → MemoChain
  | .chain op =>
    { chain := op.next P x.chain, m_lastLastHashes := if canonChanged P x.chain op then [] else x.m_lastLastHashes }
  | .lastHashes parent => { x with m_lastLastHashes := remember P x.chain x.m_lastLastHashes parent }

end

end MemoChain

end Webthree
