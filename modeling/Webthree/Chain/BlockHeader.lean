import Webthree.Evm.Executive

/-!
# Blocks and what is kept about them

`BlockHeader`, a block that has been verified, and the records of `BlockDetails.h`: the details of a block, the address of a
transaction, and the blooms of some blocks.
-/

namespace Webthree

/-- `LogBloom`, an `h2048`. -/
abbrev LogBloom := BitVec 2048

/-- `contains` -/
def LogBloom.contains (a b : LogBloom) : Bool := a &&& b = b

/-- `BlockHeader` -/
structure BlockHeader where
  parentHash : H256
  sha3Uncles : H256
  author : Address
  stateRoot : H256
  transactionsRoot : H256
  receiptsRoot : H256
  logBloom : LogBloom
  difficulty : U256
  number : U256
  gasLimit : U256
  gasUsed : U256
  timestamp : U256
  extraData : Bytes
  /-- The fields that only the seal engine reads. -/
  sealFields : List Bytes
deriving DecidableEq

/-- `VerifiedBlockRef`: the header, and what the block holds besides. -/
structure VerifiedBlockRef where
  info : BlockHeader
  transactions : List Transaction
  uncles : List BlockHeader
deriving DecidableEq

/-- The null hash. -/
def nullHash : H256 := H256.ofU256 0

/-- `c_bloomIndexSize` -/
def c_bloomIndexSize : Nat := 16

/-- `c_bloomIndexLevels` -/
def c_bloomIndexLevels : Nat := 2

/-- `InvalidNumber` -/
def InvalidNumber : Nat := 2 ^ 32 - 1

/-- `BlockDetails` -/
structure BlockDetails where
  number : Nat
  totalDifficulty : Nat
  parent : H256
  children : List H256
deriving DecidableEq

/-- `NullBlockDetails` -/
def NullBlockDetails : BlockDetails :=
  { number := InvalidNumber, totalDifficulty := Invalid256.toNat, parent := nullHash, children := [] }

/-- `isNull` -/
def BlockDetails.isNull (d : BlockDetails) : Bool := d.number = InvalidNumber

/-- `TransactionAddress` -/
structure TransactionAddress where
  blockHash : H256
  index : Nat
deriving DecidableEq

/-- `NullTransactionAddress` -/
def NullTransactionAddress : TransactionAddress := ⟨nullHash, 0⟩

/-- `explicit operator bool` -/
def TransactionAddress.isSet (ta : TransactionAddress) : Bool := ta.blockHash ≠ nullHash

/-- `BlocksBlooms` -/
abbrev BlocksBlooms := Fin c_bloomIndexSize → LogBloom

/-- `NullBlocksBlooms` -/
def NullBlocksBlooms : BlocksBlooms := fun _ => 0

/-- The place of an index in its chunk. -/
def bloomOffset (index : Nat) : Fin c_bloomIndexSize := ⟨index % c_bloomIndexSize, Nat.mod_lt index (by decide)⟩

/-- `chunkId`, computed in `unsigned`. -/
def chunkId (level index : Nat) : Nat := (index * 0xff + level) % 2 ^ 32

/-- What the chain is set up with: the hashes of headers and transactions, the bits of an author in a bloom, and the parameters. -/
structure ChainParams where
  hash : BlockHeader → H256
  sha3 : Transaction → H256
  /-- What `shiftBloom<3>(sha3(author))` sets. -/
  authorBloom : Address → LogBloom
  genesisBlock : VerifiedBlockRef
  tieBreakingGas : Bool

namespace ChainParams

/-- `genesisHash` -/
def genesisHash (P : ChainParams) : H256 := P.hash P.genesisBlock.info

/-- What is put into the index of blooms for a block. -/
def blockBloom (P : ChainParams) (b : VerifiedBlockRef) : LogBloom := b.info.logBloom ||| P.authorBloom b.info.author

end ChainParams

end Webthree
