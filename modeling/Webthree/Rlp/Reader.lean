import Webthree.Rlp.Item

/-!
# The RLP reader

`vector_ref<byte const>`, the class `RLP` (its constructor with the strictness flags, the queries, `payload` and `toBytes`) and
`RLP::iterator`. A reference is a place in a buffer and a number of bytes, so that iterators are compared by place, as the code
compares them.
-/

namespace Webthree

/-- `vector_ref<byte const>`: `m_data` is a place in the buffer `mem`. -/
structure BytesConstRef where
  mem : Bytes
  m_data : Nat
  m_count : Nat
deriving DecidableEq, Repr

namespace BytesConstRef

/-- The default reference, to nothing. -/
def null : BytesConstRef := ⟨[], 0, 0⟩

/-- A reference to a whole buffer. -/
def ofBytes (b : Bytes) : BytesConstRef := ⟨b, 0, b.length⟩

def size (r : BytesConstRef) : Nat := r.m_count

/-- The bytes a reference sees. -/
def toBytes (r : BytesConstRef) : Bytes := (r.mem.drop r.m_data).take r.m_count

/-- `operator[]`; the reader asks only for bytes inside the reference. -/
def get (r : BytesConstRef) (i : Nat) : UInt8 := r.toBytes.getD i 0

/-- `cropped(_begin, _count)`: out of bounds in any way gives the empty reference. -/
def cropped (r : BytesConstRef) (b n : Nat) : BytesConstRef :=
  if b ≤ r.m_count ∧ n ≤ r.m_count ∧ b + n ≤ r.m_count then ⟨r.mem, r.m_data + b, n⟩ else null

/-- `cropped(_begin)` -/
def croppedFrom (r : BytesConstRef) (b : Nat) : BytesConstRef :=
  if b ≤ r.m_count then ⟨r.mem, r.m_data + b, r.m_count - b⟩ else null

/-- `next()`: the chunk of `size()` elements behind this one. -/
def next (r : BytesConstRef) : BytesConstRef := ⟨r.mem, r.m_data + r.m_count, r.m_count⟩

/-- `retarget(_d, _s)`, with the pointer `_d` taken from the reference `d`. -/
def retarget (d : BytesConstRef) (s : Nat) : BytesConstRef := ⟨d.mem, d.m_data, s⟩

end BytesConstRef

/-- What the reader and the writer throw; `OutOfFuel` only bounds the recursion of the model (`readBytes_fuel`). -/
inductive RLPError where
  | BadRLP
  | UndersizeRLP
  | OversizeRLP
  | BadCast
  | RLPException
  | OutOfFuel
deriving DecidableEq, Repr

/-- The class `RLP`, less the memo of `operator[]`. -/
structure RLP where
  m_data : BytesConstRef
deriving DecidableEq, Repr

namespace RLP

/-- `ThrowOnFail` -/
def ThrowOnFail : Nat := 4
/-- `FailIfTooBig` -/
def FailIfTooBig : Nat := 8
/-- `FailIfTooSmall` -/
def FailIfTooSmall : Nat := 16
/-- `VeryStrict` -/
def VeryStrict : Nat := ThrowOnFail ||| FailIfTooBig ||| FailIfTooSmall

/-- No value. -/
def isNull (r : RLP) : Bool := r.m_data.size = 0

/-- A zero-length string or list. -/
def isEmpty (r : RLP) : Bool :=
  !r.isNull && ((r.m_data.get 0).toNat = c_rlpDataImmLenStart || (r.m_data.get 0).toNat = c_rlpListStart)

/-- String value. -/
def isData (r : RLP) : Bool := !r.isNull && (r.m_data.get 0).toNat < c_rlpListStart

/-- List value. -/
def isList (r : RLP) : Bool := !r.isNull && (r.m_data.get 0).toNat ≥ c_rlpListStart

/-- Single-byte data payload. -/
def isSingleByte (r : RLP) : Bool := !r.isNull && (r.m_data.get 0).toNat < c_rlpDataImmLenStart

/-- Throws on a single byte done in two bytes that could be done in one. -/
def requireGood (r : RLP) : Except RLPError Unit :=
  if r.isNull then throw .BadRLP
  else if (r.m_data.get 0).toNat ≠ c_rlpDataImmLenStart + 1 then pure ()
  else if r.m_data.size < 2 then throw .BadRLP
  else if (r.m_data.get 1).toNat < c_rlpDataImmLenStart then throw .BadRLP
  else pure ()

/-- The number of bytes of the length. -/
def lengthSize (r : RLP) : Nat :=
  if r.isData ∧ (r.m_data.get 0).toNat > c_rlpDataIndLenZero then (r.m_data.get 0).toNat - c_rlpDataIndLenZero
  else if r.isList ∧ (r.m_data.get 0).toNat > c_rlpListIndLenZero then (r.m_data.get 0).toNat - c_rlpListIndLenZero
  else 0

/-- The two branches of `length()` that read a length of `ls` bytes, which must be at least `limit` and small enough for
`payloadOffset()` to be added to it in a `size_t`. -/
def indirectLength (r : RLP) (ls limit : Nat) : Except RLPError Nat :=
  if r.m_data.size ≤ ls then throw .BadRLP
  else if r.m_data.size > 1 ∧ r.m_data.get 1 = 0 then throw .BadRLP
  else if ls > 8 then throw .UndersizeRLP
  else if r.m_data.get 1 = 0 then throw .BadRLP
  else
    let ret := fromBigEndian ((r.m_data.toBytes.drop 1).take ls)
    if ret < limit then throw .BadRLP
    else if ret ≥ 2 ^ 64 - 1 - 0x100 then throw .UndersizeRLP
    else pure ret

/-- The size of the payload as given by the RLP. -/
def length (r : RLP) : Except RLPError Nat :=
  if r.isNull then pure 0
  else do
    r.requireGood
    let n := (r.m_data.get 0).toNat
    if n < c_rlpDataImmLenStart then pure 1
    else if n ≤ c_rlpDataIndLenZero then pure (n - c_rlpDataImmLenStart)
    else if n < c_rlpListStart then
      r.indirectLength (n - c_rlpDataIndLenZero) (c_rlpListStart - c_rlpDataImmLenStart - c_rlpMaxLengthBytes)
    else if n ≤ c_rlpListIndLenZero then pure (n - c_rlpListStart)
    else r.indirectLength (n - c_rlpListIndLenZero) (0x100 - c_rlpListStart - c_rlpMaxLengthBytes)

/-- The number of bytes into the data that the payload starts. -/
def payloadOffset (r : RLP) : Nat := if r.isSingleByte then 0 else 1 + r.lengthSize

/-- The size of this item as encoded in the data. -/
def actualSize (r : RLP) : Except RLPError Nat :=
  if r.isNull then pure 0
  else if r.isSingleByte then pure 1
  else if r.isData || r.isList then do pure (r.payloadOffset + (← r.length))
  else pure 0

/-- `if (_d.actualSize() ...) { if (_s & ThrowOnFail) throw e; else m_data.reset(); }`, for one of the two checks. -/
def failOr (s : Nat) (e : RLPError) (bad : Bool) (r : RLP) : Except RLPError RLP :=
  if bad then if s &&& ThrowOnFail ≠ 0 then throw e else pure ⟨.null⟩ else pure r

/-- The constructor `RLP(_d, _s)`. -/
def ofRef (d : BytesConstRef) (s : Nat) : Except RLPError RLP := do
  let r : RLP := ⟨d⟩
  let r ← if s &&& FailIfTooBig ≠ 0 then do failOr s .OversizeRLP ((← r.actualSize) < d.size) r else pure r
  if s &&& FailIfTooSmall ≠ 0 then do failOr s .UndersizeRLP ((← r.actualSize) > d.size) r else pure r

/-- The size encoded into the RLP in `d`; throws if `d` is too short. -/
def sizeAsEncoded (d : BytesConstRef) : Except RLPError Nat := do
  (← ofRef d (ThrowOnFail ||| FailIfTooSmall)).actualSize

/-- The data payload. -/
def payload (r : RLP) : Except RLPError BytesConstRef := do
  let l ← r.length
  if l > r.m_data.size then throw .BadRLP else pure (r.m_data.cropped r.payloadOffset l)

/-- `toBytes()`, with the default flags: the empty byte string if not a string. -/
def toBytes (r : RLP) : Except RLPError Bytes :=
  if r.isData then do
    let p ← r.payload
    let l ← r.length
    pure (p.retarget l).toBytes
  else pure []

/-- `RLP::iterator` -/
structure Iterator where
  m_remaining : Nat
  m_currentItem : BytesConstRef
deriving DecidableEq, Repr

/-- `begin()` -/
def begin (r : RLP) : Except RLPError Iterator :=
  if r.isList then do
    let pl ← r.payload
    let cur := pl.cropped 0 (← sizeAsEncoded pl)
    pure ⟨pl.size - cur.size, cur⟩
  else pure ⟨0, r.m_data.croppedFrom r.m_data.size⟩

/-- `end()` -/
def «end» (r : RLP) : Iterator := ⟨0, r.m_data.croppedFrom r.m_data.size⟩

namespace Iterator

/-- `operator++` -/
def next (it : Iterator) : Except RLPError Iterator :=
  if it.m_remaining ≠ 0 then do
    let cur := it.m_currentItem.next.retarget it.m_remaining
    let cur := cur.cropped 0 (← sizeAsEncoded cur)
    pure ⟨it.m_remaining - min it.m_remaining cur.size, cur⟩
  else pure ⟨0, it.m_currentItem.next.retarget 0⟩

/-- `operator*` -/
def deref (it : Iterator) : Except RLPError RLP := ofRef it.m_currentItem VeryStrict

/-- `operator==`: the two references are to the same place and of the same size. -/
def same (it c : Iterator) : Bool :=
  it.m_currentItem.m_data = c.m_currentItem.m_data ∧ it.m_currentItem.m_count = c.m_currentItem.m_count

end Iterator

mutual
/-- Read a whole tree: a string by `toBytes`, a list by iterating over it and reading each item. -/
def readTree : Nat → RLP → Except RLPError Item
  | 0, _ => throw .OutOfFuel
  | n + 1, r =>
    if r.isData then do pure (.data (← r.toBytes))
    else if r.isList then do pure (.list (← readItems n (← r.begin) r.end))
    else throw .BadCast
/-- `for (it = begin; it != end; ++it)`, reading each `*it`. -/
def readItems : Nat → Iterator → Iterator → Except RLPError (List Item)
  | 0, _, _ => throw .OutOfFuel
  | n + 1, it, e =>
    if it.same e then pure []
    else do
      let x ← readTree n (← it.deref)
      let xs ← readItems n (← it.next) e
      pure (x :: xs)
end

/-- Read a byte string strictly, at every level. -/
def readBytes (b : Bytes) : Except RLPError Item := do
  readTree (2 * b.length + 1) (← ofRef (.ofBytes b) VeryStrict)

end RLP

end Webthree
