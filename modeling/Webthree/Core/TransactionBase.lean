import Webthree.Core.HeaderRLP
import Webthree.Core.FixedHash
import Webthree.Queue.TransactionQueue

/-!
# Transactions on the wire

`TransactionBase`: reading a transaction from bytes and checking its signature, writing it, and the two values it caches, its hash
and its sender. The hash function and the recovery of a key from a signature are parameters.
-/

namespace Webthree

/-- `IncludeSignature` -/
inductive IncludeSignature where
  | WithoutSignature
  | WithSignature
deriving DecidableEq, Repr

/-- `CheckTransaction` -/
inductive CheckTransaction where
  | None
  | Cheap
  | Everything
deriving DecidableEq, Repr

/-- `SignatureStruct` -/
structure SignatureStruct where
  r : H256
  s : H256
  v : UInt8
deriving DecidableEq, Repr

/-- The order of the group, as `isValid` has it. -/
def c_secp256k1n : U256 := 0xfffffffffffffffffffffffffffffffebaaedce6af48a03bbfd25e8cd0364141

/-- `isValid` -/
def SignatureStruct.isValid (vrs : SignatureStruct) : Bool :=
  !(vrs.v > 1 || vrs.r.toU256 ≥ c_secp256k1n || vrs.s.toU256 ≥ c_secp256k1n || vrs.s.toU256 < 1 || vrs.r.toU256 < 1)

/-- The hash function, and the public key that made a signature of a hash, if there is one. -/
structure Crypto where
  sha3 : Bytes → H256
  recover : SignatureStruct → H256 → Option Bytes

/-- `TransactionBase::Type` -/
inductive TransactionType where
  | NullTransaction
  | ContractCreation
  | MessageCall
deriving DecidableEq, Repr

/-- `TransactionBase`. The cached hash and sender are null as long as they are not known. -/
structure TransactionBase where
  m_type : TransactionType
  m_nonce : U256
  m_value : U256
  m_receiveAddress : Address
  m_gasPrice : U256
  m_gas : U256
  m_data : Bytes
  m_vrs : SignatureStruct
  m_hashWith : H256
  m_sender : Address
deriving DecidableEq

namespace TransactionBase

/-! ## Writing -/

/-- `streamRLP` -/
def streamRLP (t : TransactionBase) (s : RLPStream) (sig : IncludeSignature) : Except RLPError RLPStream :=
  if t.m_type = .NullTransaction then pure s
  else do
    let s ← s.appendList ((if sig = .WithSignature then 3 else 0) + 6)
    let s ← s.put [(·.appendInt t.m_nonce.toNat), (·.appendInt t.m_gasPrice.toNat), (·.appendInt t.m_gas.toNat)]
    let s ← if t.m_type = .MessageCall then s.put [(·.append (hashBytes 20 t.m_receiveAddress))] else s.put [(·.append [])]
    let s ← s.put [(·.appendInt t.m_value.toNat), (·.append t.m_data)]
    if sig = .WithSignature then
      s.put [(·.appendInt (t.m_vrs.v.toNat + 27)), (·.appendInt t.m_vrs.r.toU256.toNat), (·.appendInt t.m_vrs.s.toU256.toNat)]
    else pure s

/-- `rlp` -/
def rlp (t : TransactionBase) (sig : IncludeSignature) : Except RLPError Bytes := do (← t.streamRLP {} sig).out

/-- `sha3`: the hash with the signature is kept. -/
def sha3 (C : Crypto) (t : TransactionBase) (sig : IncludeSignature) : Except RLPError (H256 × TransactionBase) :=
  if sig = .WithSignature ∧ t.m_hashWith ≠ H256.ofU256 0 then pure (t.m_hashWith, t)
  else do
    let ret := C.sha3 (← t.rlp sig)
    pure (ret, if sig = .WithSignature then { t with m_hashWith := ret } else t)

/-- `sender`, which keeps the address. -/
def sender (C : Crypto) (t : TransactionBase) : Except FormatError (Address × TransactionBase) :=
  if t.m_sender ≠ 0 then pure (t.m_sender, t)
  else do
    let (h, t) ← RLP.liftRlp (t.sha3 C .WithoutSignature)
    match C.recover t.m_vrs h with
    | none => throw .InvalidSignature
    | some p => pure ((C.sha3 p).right160, { t with m_sender := (C.sha3 p).right160 })

/-- The address that the signature is by, if there is one: what `sender` finds when nothing is cached. -/
def signer (C : Crypto) (t : TransactionBase) : Option Address := do
  let (h, _) ← (t.sha3 C .WithoutSignature).toOption
  let p ← C.recover t.m_vrs h
  return (C.sha3 p).right160

/-! ## Reading -/

/-- Field 3: an empty item makes a contract. -/
def readReceiver (rlp : RLP) : Except Thrown (TransactionType × Address) := do
  if (← rlp.item 3).isEmpty then pure (.ContractCreation, 0)
  else do
    let address ← rlp.hashField 3 20
    pure (.MessageCall, hashOfBytes 160 address)

/-- Field 5 -/
def readData (rlp : RLP) : Except Thrown Bytes := do
  let x ← rlp.item 5
  if !x.isData then rlp.inField 5 (throw (.InvalidTransactionFormat "transaction data RLP must be an array"))
  else rlp.inField 5 (RLP.liftRlp x.toBytes)

/-- The fields of the constructor, up to the number of items. -/
def readFields (rlp : RLP) : Except Thrown TransactionBase := do
  let nonce ← rlp.intField 0 32
  let gasPrice ← rlp.intField 1 32
  let gas ← rlp.intField 2 32
  let (type, receiveAddress) ← readReceiver rlp
  let value ← rlp.intField 4 32
  let data ← readData rlp
  let v ← rlp.intField 6 1
  let r ← rlp.intField 7 32
  let s ← rlp.intField 8 32
  let count ← rlp.inField 8 (RLP.liftRlp rlp.itemCount)
  if count > 9 then rlp.inField 8 (throw (.InvalidTransactionFormat "to many fields in the transaction RLP"))
  else
    pure { m_type := type, m_nonce := BitVec.ofNat 256 nonce, m_value := BitVec.ofNat 256 value, m_receiveAddress := receiveAddress
           m_gasPrice := BitVec.ofNat 256 gasPrice, m_gas := BitVec.ofNat 256 gas, m_data := data
           m_vrs := ⟨H256.ofU256 (BitVec.ofNat 256 r), H256.ofU256 (BitVec.ofNat 256 s), UInt8.ofNat v - 27⟩
           m_hashWith := H256.ofU256 0, m_sender := 0 }

/-- The end of the constructor. -/
def checkSignature (C : Crypto) (rlp : RLP) (t : TransactionBase) (checkSig : CheckTransaction) : Except Thrown TransactionBase :=
  if checkSig ≠ .None ∧ t.m_vrs.isValid = false then rlp.inField 8 (throw .InvalidSignature)
  else if checkSig = .Everything then do
    let (sender, t) ← rlp.inField 8 (t.sender C)
    pure { t with m_sender := sender }
  else pure t

/-- `TransactionBase(_rlpData, _checkSig)` -/
def ofRLP (C : Crypto) (rlpData : Bytes) (checkSig : CheckTransaction) : Except Thrown TransactionBase := do
  let rlp ← (RLP.ofRef (.ofBytes rlpData) RLP.VeryStrict).mapError fun e => ⟨.rlp e, none⟩
  if rlp.isList then do
    let t ← readFields rlp
    checkSignature C rlp t checkSig
  else rlp.inField 0 (throw (.InvalidTransactionFormat "transaction RLP must be a list"))

/-- `rlp[3]` of a byte string. -/
def receiverItem (rlpData : Bytes) : Except RLPError RLP := do (← RLP.ofRef (.ofBytes rlpData) RLP.VeryStrict).index 3

/-! ## In the queue -/

/-- What the queue sees of a transaction, if it can be written. -/
def toSigned (C : Crypto) (t : TransactionBase) : Option SignedTransaction :=
  match t.sha3 C .WithSignature with
  | .ok (h, _) =>
    some { recovered := (t.sender C).toOption.map (·.1), nonce := t.m_nonce, gasPrice := t.m_gasPrice, sha3 := h }
  | .error _ => none

/-- The queue over the transactions of this module. -/
def library (C : Crypto) (balance : Balance VerifiedTransaction) («begin» : Nat → Nat) : TransactionQueue.Library where
  sha3 := C.sha3
  read b := (ofRLP C b .Everything).toOption.bind (toSigned C)
  balance := balance
  «begin» := «begin»

end TransactionBase

end Webthree
