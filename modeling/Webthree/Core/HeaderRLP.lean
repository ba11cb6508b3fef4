import Webthree.Chain.BlockHeader
import Webthree.Core.FixedHash
import Webthree.Lib.Transition
import Webthree.Rlp.Convert

/-!
# Headers

How headers are read from a list and written to one, and the hashes that they keep.
-/

namespace Webthree

/-!
## Fields of a list

How the constructors of transactions and headers read the fields of a list: each field is asked for by its number, and the
handler around all of them names the field that was asked for last.
-/

/-- What reading a transaction or a header throws. -/
inductive FormatError where
  | rlp (e : RLPError)
  | InvalidTransactionFormat (comment : String)
  | InvalidBlockFormat (comment : String)
  | InvalidSignature
deriving DecidableEq, Repr

/-- An exception, with the number and the bytes of the field that `BadFieldError` names. -/
structure Thrown where
  error : FormatError
  field : Option (Nat × Bytes)
deriving DecidableEq, Repr

namespace RLP

/-- An exception of the reader outside of the handler. -/
def liftRlp {α : Type} (x : Except RLPError α) : Except FormatError α := x.mapError .rlp

/-- The handler: the exception goes on with the field, unless asking for the field throws. -/
def noteField (r : RLP) (field : Nat) (e : FormatError) : Thrown :=
  match r.index field with
  | .ok x => ⟨e, some (field, x.m_data.toBytes)⟩
  | .error e' => ⟨.rlp e', none⟩

/-- A computation inside the handler, while the field of that number is read. -/
def inField {α : Type} (r : RLP) (field : Nat) (x : Except FormatError α) : Except Thrown α := x.mapError (r.noteField field)

/-- `_r[field = i]` -/
def item (r : RLP) (i : Nat) : Except Thrown RLP := r.inField i (liftRlp (r.index i))

/-- `_r[field = i].toInt<_T>()`, for a type of `maxSize` bytes. -/
def intField (r : RLP) (i maxSize : Nat) : Except Thrown Nat := do
  let x ← r.item i
  r.inField i (liftRlp (x.toInt maxSize Strict))

/-- `_r[field = i].toHash<_N>(RLP::VeryStrict)`, for a hash of `n` bytes. -/
def hashField (r : RLP) (i n : Nat) : Except Thrown Bytes := do
  let x ← r.item i
  r.inField i (liftRlp (x.toHash n VeryStrict))

theorem inField_eq_ok {α : Type} {r : RLP} {i : Nat} {x : Except FormatError α} {a : α} : r.inField i x = .ok a ↔ x = .ok a := by
  cases x with
  | error e => simp [inField, Except.mapError]
  | ok b => simp [inField, Except.mapError]

theorem liftRlp_eq_ok {α : Type} {x : Except RLPError α} {a : α} : liftRlp x = .ok a ↔ x = .ok a := by
  cases x with
  | error e => simp [liftRlp, Except.mapError]
  | ok b => simp [liftRlp, Except.mapError]

theorem item_eq_ok {r : RLP} {i : Nat} {x : RLP} : r.item i = .ok x ↔ r.index i = .ok x := by
  rw [item, inField_eq_ok, liftRlp_eq_ok]

/-- What is thrown inside the handler names the field, or comes from asking for it. -/
theorem inField_eq_error {α : Type} {r : RLP} {i : Nat} {x : Except FormatError α} {t : Thrown} (h : r.inField i x = .error t) :
    (∃ y, r.index i = .ok y ∧ t.field = some (i, y.m_data.toBytes)) ∨ ∃ e, r.index i = .error e ∧ t = ⟨.rlp e, none⟩ := by
  cases x with
  | ok a => cases h
  | error e =>
    obtain rfl : r.noteField i e = t := by simpa [inField, Except.mapError] using h
    unfold noteField
    cases r.index i with
    | ok y => exact .inl ⟨y, rfl, rfl⟩
    | error e' => exact .inr ⟨e', rfl, rfl⟩

end RLP

/-!
## Headers on the wire

`BlockHeader::streamRLP` and `populate`, and where the constructor finds the header of a block. Behind the thirteen basic fields
stand the seal fields, which are kept as the bytes of their items.
-/

/-- `IncludeSeal` -/
inductive IncludeSeal where
  | WithoutSeal
  | WithSeal
  | OnlySeal
deriving DecidableEq, Repr

/-- `BlockDataType` -/
inductive BlockDataType where
  | HeaderData
  | BlockData
deriving DecidableEq, Repr

namespace BlockHeader

/-- `BasicFields` -/
def BasicFields : Nat := 13

/-! ## Writing -/

/-- `streamRLPFields` -/
def streamRLPFields (h : BlockHeader) (s : RLPStream) : Except RLPError RLPStream :=
  s.put [(·.append h.parentHash.bytes), (·.append h.sha3Uncles.bytes), (·.append (hashBytes 20 h.author)), (·.append h.stateRoot.bytes),
    (·.append h.transactionsRoot.bytes), (·.append h.receiptsRoot.bytes), (·.append (hashBytes 256 h.logBloom)),
    (·.appendInt h.difficulty.toNat), (·.appendInt h.number.toNat), (·.appendInt h.gasLimit.toNat), (·.appendInt h.gasUsed.toNat),
    (·.appendInt h.timestamp.toNat), (·.append h.extraData)]

/-- The loop over the seal fields. Its counter is an `unsigned`, which does not come to the end of `2 ^ 32` of them. -/
def streamSeal (h : BlockHeader) (s : RLPStream) : Except RLPError RLPStream :=
  if h.sealFields.length < 2 ^ 32 then s.put (h.sealFields.map fun f s => s.appendRaw f 1) else throw .OutOfFuel

/-- `streamRLP` -/
def streamRLP (h : BlockHeader) (s : RLPStream) (i : IncludeSeal) : Except RLPError RLPStream := do
  match i with
  | .OnlySeal => h.streamSeal s
  | .WithoutSeal => h.streamRLPFields (← s.appendList BasicFields)
  | .WithSeal => h.streamSeal (← h.streamRLPFields (← s.appendList (BasicFields + h.sealFields.length)))

/-- What `streamRLP` writes on a fresh stream. -/
def rlp (h : BlockHeader) (i : IncludeSeal) : Except RLPError Bytes := do (← h.streamRLP {} i).out

/-! ## Reading -/

/-- The loop over the items behind the basic fields, which all count as the last field. Its counter is an `unsigned`. -/
def readSeal (header : RLP) : Except Thrown (List Bytes) := do
  let count ← header.inField 12 (RLP.liftRlp header.itemCount)
  if count < 2 ^ 32 then
    (List.range' BasicFields (count - BasicFields)).mapM fun i => do
      let x ← header.inField 12 (RLP.liftRlp (header.index i))
      return x.m_data.toBytes
  else throw ⟨.rlp .OutOfFuel, none⟩

/-- `populate` -/
def populate (header : RLP) : Except Thrown BlockHeader := do
  let parentHash ← header.hashField 0 32
  let sha3Uncles ← header.hashField 1 32
  let author ← header.hashField 2 20
  let stateRoot ← header.hashField 3 32
  let transactionsRoot ← header.hashField 4 32
  let receiptsRoot ← header.hashField 5 32
  let logBloom ← header.hashField 6 256
  let difficulty ← header.intField 7 32
  let number ← header.intField 8 32
  let gasLimit ← header.intField 9 32
  let gasUsed ← header.intField 10 32
  let timestamp ← header.intField 11 32
  let extraData ← header.inField 12 (RLP.liftRlp (← header.item 12).toBytes)
  let sealFields ← readSeal header
  pure { parentHash := H256.ofBytes parentHash, sha3Uncles := H256.ofBytes sha3Uncles, author := hashOfBytes 160 author
         stateRoot := H256.ofBytes stateRoot, transactionsRoot := H256.ofBytes transactionsRoot
         receiptsRoot := H256.ofBytes receiptsRoot, logBloom := hashOfBytes 2048 logBloom
         difficulty := BitVec.ofNat 256 difficulty, number := BitVec.ofNat 256 number, gasLimit := BitVec.ofNat 256 gasLimit
         gasUsed := BitVec.ofNat 256 gasUsed, timestamp := BitVec.ofNat 256 timestamp, extraData := extraData
         sealFields := sealFields }

/-- `RLP(_block)` and `operator[]`, outside of a handler. -/
def orThrow {α : Type} (x : Except RLPError α) : Except Thrown α := x.mapError fun e => ⟨.rlp e, none⟩

/-- One of the three parts of a block, which is a list. -/
def part (root : RLP) (i : Nat) (comment : String) : Except Thrown RLP := do
  let x ← orThrow (root.index i)
  if x.isList then pure x else throw ⟨.InvalidBlockFormat comment, some (i, x.m_data.toBytes)⟩

/-- `extractHeader` -/
def extractHeader (block : Bytes) : Except Thrown RLP := do
  let root ← orThrow (RLP.ofRef (.ofBytes block) RLP.VeryStrict)
  if root.isList then do
    let header ← part root 0 "Block header must be a list"
    let _ ← part root 1 "Block transactions must be a list"
    let _ ← part root 2 "Block uncles must be a list"
    pure header
  else throw ⟨.InvalidBlockFormat "Block must be a list", some (0, block)⟩

/-- The header that the constructor reads. -/
def headerRLP (data : Bytes) (bdt : BlockDataType) : Except Thrown RLP :=
  match bdt with
  | .BlockData => extractHeader data
  | .HeaderData => orThrow (RLP.ofRef (.ofBytes data) RLP.VeryStrict)

end BlockHeader

/-!
## Headers and the hashes they keep

`BlockHeader` with its two memoised hashes, for several headers at once: the setters, `clear`, `populateFromParent`, copies, and
`hash`, which fills a memo that is null.
-/

/-- A header, with `m_hash` and `m_hashWithout`. -/
structure HashedHeader where
  fields : BlockHeader
  m_hash : H256
  m_hashWithout : H256
deriving DecidableEq

/-- `EmptyListSHA3`, the hash of the empty list as an item. -/
def EmptyListSHA3 (sha3 : Bytes → H256) : H256 := sha3 [0xc0]

namespace HashedHeader

/-- `BlockHeader()` -/
def new : HashedHeader :=
  { fields :=
      { parentHash := nullHash, sha3Uncles := nullHash, author := 0, stateRoot := nullHash, transactionsRoot := nullHash
        receiptsRoot := nullHash, logBloom := 0, difficulty := 0, number := 0, gasLimit := 0, gasUsed := 0, timestamp := Invalid256
        extraData := [], sealFields := [] }
    m_hash := nullHash, m_hashWithout := nullHash }

/-- `noteDirty` -/
def noteDirty (h : HashedHeader) : HashedHeader := { h with m_hash := nullHash, m_hashWithout := nullHash }

/-- A setter: it writes fields and calls `noteDirty`. -/
def set (h : HashedHeader) (f : BlockHeader → BlockHeader) : HashedHeader := { h with fields := f h.fields }.noteDirty

/-- `clear` -/
def clear (sha3 : Bytes → H256) (h : HashedHeader) : HashedHeader :=
  h.set fun _ =>
    { parentHash := nullHash, sha3Uncles := EmptyListSHA3 sha3, author := 0, stateRoot := EmptyTrie sha3, transactionsRoot := EmptyTrie sha3
      receiptsRoot := EmptyTrie sha3, logBloom := 0, difficulty := 0, number := 0, gasLimit := 0, gasUsed := 0, timestamp := Invalid256
      extraData := [], sealFields := [] }

/-- `setSeal(_offset, _value)`, with `rlp(_value)`: the offset is an `unsigned`, and so is the size that it asks for. -/
def setSeal (h : HashedHeader) (offset : Nat) (rlp : Bytes) : Option HashedHeader :=
  let l := h.fields.sealFields
  let m_seal := if l.length ≤ offset then (l ++ List.replicate ((offset + 1) % 2 ^ 32 - l.length) []).take ((offset + 1) % 2 ^ 32) else l
  if offset < m_seal.length then some (h.set fun f => { f with sealFields := m_seal.set offset rlp }) else none

/-- `populateFromParent` -/
def populateFromParent (h parent : HashedHeader) : HashedHeader :=
  { h with fields :=
      { h.fields with
        stateRoot := parent.fields.stateRoot, number := parent.fields.number + 1, parentHash := parent.m_hash
        gasLimit := parent.fields.gasLimit, difficulty := 1, gasUsed := 0 } }

/-- `hash` -/
def hash (sha3 : Bytes → H256) (h : HashedHeader) (i : IncludeSeal) : Except RLPError (H256 × HashedHeader) :=
  match i with
  | .WithSeal =>
    if h.m_hash = nullHash then do
      let memo := sha3 (← h.fields.rlp .WithSeal)
      return (memo, { h with m_hash := memo })
    else return (h.m_hash, h)
  | .WithoutSeal =>
    if h.m_hashWithout = nullHash then do
      let memo := sha3 (← h.fields.rlp .WithoutSeal)
      return (memo, { h with m_hashWithout := memo })
    else return (h.m_hashWithout, h)
  | .OnlySeal => return (sha3 (← h.fields.rlp .OnlySeal), h)

/-- `BlockHeader(_block, _bdt, _hashWith)` -/
def ofData (sha3 : Bytes → H256) (block : Bytes) (bdt : BlockDataType) (hashWith : H256) : Except Thrown HashedHeader := do
  let header ← BlockHeader.headerRLP block bdt
  let m_hash := if hashWith ≠ nullHash then hashWith else sha3 header.m_data.toBytes
  return { fields := ← BlockHeader.populate header, m_hash := m_hash, m_hashWithout := nullHash }

end HashedHeader

/-! ## Several headers -/

/-- A call of a member of one header, or an assignment to it. -/
inductive HeaderOp where
  | setParentHash (v : H256)
  | setSha3Uncles (v : H256)
  | setTimestamp (v : U256)
  | setAuthor (v : Address)
  | setRoots (t r u s : H256)
  | setGasUsed (v : U256)
  | setNumber (v : U256)
  | setGasLimit (v : U256)
  | setExtraData (v : Bytes)
  | setLogBloom (v : LogBloom)
  | setDifficulty (v : U256)
  | setSeal (offset : Nat) (rlp : Bytes)
  | clear
  | noteDirty
  | populateFromParent (parent : Nat)
  | assign (other : Nat)
  | hash (i : IncludeSeal)
deriving DecidableEq

/-- The headers there are. -/
abbrev Headers := Nat → HashedHeader

namespace HeaderOp

open HashedHeader

/-- What a call makes of the header; `none` for a write behind the end of `m_seal`. An exception leaves the header as it was. -/
def apply (sha3 : Bytes → H256) (s : Headers) (h : HashedHeader) : HeaderOp → Option HashedHeader
  | .setParentHash v => some (h.set fun f => { f with parentHash := v })
  | .setSha3Uncles v => some (h.set fun f => { f with sha3Uncles := v })
  | .setTimestamp v => some (h.set fun f => { f with timestamp := v })
  | .setAuthor v => some (h.set fun f => { f with author := v })
  | .setRoots t r u s => some (h.set fun f => { f with transactionsRoot := t, receiptsRoot := r, stateRoot := s, sha3Uncles := u })
  | .setGasUsed v => some (h.set fun f => { f with gasUsed := v })
  | .setNumber v => some (h.set fun f => { f with number := v })
  | .setGasLimit v => some (h.set fun f => { f with gasLimit := v })
  | .setExtraData v => some (h.set fun f => { f with extraData := v })
  | .setLogBloom v => some (h.set fun f => { f with logBloom := v })
  | .setDifficulty v => some (h.set fun f => { f with difficulty := v })
  | .setSeal offset rlp => h.setSeal offset rlp
  | .clear => some (h.clear sha3)
  | .noteDirty => some h.noteDirty
  | .populateFromParent parent => some (h.populateFromParent (s parent))
  | .assign other => some (s other)
  | .hash i =>
    match h.hash sha3 i with
    | .ok (_, h) => some h
    | .error _ => some h

/-- A step: a call of a member of the header with that number. -/
def next (sha3 : Bytes → H256) (s : Headers) (c : Nat × HeaderOp) : Headers :=
  match c.2.apply sha3 s (s c.1) with
  | some h => Function.update s c.1 h
  | none => s

end HeaderOp

end Webthree
