import Webthree.Rlp.Stream

/-!
# Items of a list, and conversions

`RLP::operator[]`, `itemCount`, `isInt`, `toInt` and `toHash` with their flags, and the stream's `append` of numbers. Conversions
to a hash give its bytes. Last `RLP::operator[]` again, with the members by which it remembers where it was: an exception leaves
them as they are at that point.
-/

namespace Webthree

namespace RLP

/-- `AllowNonCanon` -/
def AllowNonCanon : Nat := 1
/-- `Strict` -/
def Strict : Nat := ThrowOnFail ||| FailIfTooBig
/-- `LaissezFaire` -/
def LaissezFaire : Nat := AllowNonCanon

/-- The loop of `operator[]`, from `m_lastItem` and `m_lastEnd`, with the number of items it still has to go. -/
def indexLoop (pl : BytesConstRef) : Nat → BytesConstRef → Nat → Except RLPError BytesConstRef
  | 0, lastItem, _ => pure lastItem
  | n + 1, lastItem, lastEnd =>
    if lastItem.size = 0 then pure lastItem
    else do
      let item := pl.croppedFrom lastEnd
      let item := item.cropped 0 (← sizeAsEncoded item)
      indexLoop pl n item (lastEnd + item.size)

/-- `operator[]`: the null item if there is none. -/
def index (r : RLP) (i : Nat) : Except RLPError RLP := do
  let pl ← r.payload
  let lastEnd ← sizeAsEncoded pl
  let item ← indexLoop pl i (pl.cropped 0 lastEnd) lastEnd
  ofRef item (ThrowOnFail ||| FailIfTooSmall)

/-- The loop of `items`; an item takes at least one byte, so as many turns as there are bytes, and one, are enough. -/
def itemsLoop : (turns : Nat) → BytesConstRef → Except RLPError Nat
  | 0, _ => throw .OutOfFuel
  | turns + 1, d =>
    if d.size = 0 then pure 0
    else do
      let n ← itemsLoop turns (d.croppedFrom (← sizeAsEncoded d))
      pure (n + 1)

/-- `itemCount`: zero if it isn't a list. -/
def itemCount (r : RLP) : Except RLPError Nat :=
  if r.isList then do
    let d ← r.payload
    itemsLoop (d.size + 1) d
  else pure 0

/-- Integer value. Must not have a leading zero. -/
def isInt (r : RLP) : Except RLPError Bool :=
  if r.isNull then pure false
  else do
    r.requireGood
    let n := (r.m_data.get 0).toNat
    if n < c_rlpDataImmLenStart then pure (n ≠ 0)
    else if n = c_rlpDataImmLenStart then pure true
    else if n ≤ c_rlpDataIndLenZero then
      if r.m_data.size ≤ 1 then throw .BadRLP else pure (r.m_data.get 1 ≠ 0)
    else if n < c_rlpListStart then
      if r.m_data.size ≤ 1 + n - c_rlpDataIndLenZero then throw .BadRLP
      else pure (r.m_data.get (1 + n - c_rlpDataIndLenZero) ≠ 0)
    else pure false

/-- `if (_flags & ThrowOnFail) throw BadCast; else return ...` -/
def castFailed {α : Type} (flags : Nat) (otherwise : α) : Except RLPError α :=
  if flags &&& ThrowOnFail ≠ 0 then throw .BadCast else pure otherwise

/-- `toInt<_T>`, for a type of `maxSize` bytes. -/
def toInt (r : RLP) (maxSize flags : Nat) : Except RLPError Nat := do
  r.requireGood
  if (!(← r.isInt) && flags &&& AllowNonCanon = 0) || r.isList || r.isNull then castFailed flags 0
  else do
    let p ← r.payload
    if p.size > maxSize && flags &&& FailIfTooBig ≠ 0 then castFailed flags 0
    else pure (fromBigEndian p.toBytes % 256 ^ maxSize)

/-- `toHash<_N>`, for a hash of `n` bytes. -/
def toHash (r : RLP) (n flags : Nat) : Except RLPError Bytes := do
  r.requireGood
  let p ← r.payload
  let l := p.size
  if !r.isData || (l > n && flags &&& FailIfTooBig ≠ 0) || (l < n && flags &&& FailIfTooSmall ≠ 0) then
    castFailed flags (List.replicate n 0)
  else pure (List.replicate (n - min n l) 0 ++ p.toBytes.take (min n l))

end RLP

namespace RLPStream

/-- `append(_i)` of a number. -/
def appendInt (s : RLPStream) (i : Nat) : Except RLPError RLPStream := do
  let s ←
    if i = 0 then pure { s with m_out := s.m_out ++ [UInt8.ofNat c_rlpDataImmLenStart] }
    else if i < c_rlpDataImmLenStart then pure { s with m_out := s.m_out ++ [UInt8.ofNat i] }
    else do
      let br := bytesRequired i
      let s ←
        if br < c_rlpDataImmLenCount then pure { s with m_out := s.m_out ++ [UInt8.ofNat (br + c_rlpDataImmLenStart)] }
        else if c_rlpDataIndLenZero + bytesRequired br > 0xff then throw .RLPException
        else pure { s with m_out := s.m_out ++ [UInt8.ofNat (c_rlpDataIndLenZero + bytesRequired br)] ++ toBigEndian br }
      pure { s with m_out := s.m_out ++ toBigEndian i }
  s.noteAppended 1

/-- `_s << ... << ...`: one item after the other. -/
def put (s : RLPStream) (items : List (RLPStream → Except RLPError RLPStream)) : Except RLPError RLPStream :=
  items.foldlM (fun s item => item s) s

end RLPStream

/-! ## The memo of `operator[]` -/

namespace RLP

/-- The mutable members of an item. -/
structure Memo where
  m_lastIndex : Nat
  m_lastEnd : Nat
  m_lastItem : BytesConstRef
deriving DecidableEq, Repr

namespace Memo

/-- `(size_t)-1` -/
def noIndex : Nat := 2 ^ 64 - 1

/-- The members of a new object. -/
def fresh : Memo := ⟨noIndex, 0, .null⟩

end Memo

/-- The loop of `operator[]`, for the number of indices that are still to go. -/
def accessLoop (r : RLP) : Nat → Memo → EStateM.Result RLPError Memo Unit
  | 0, m => .ok () m
  | n + 1, m =>
    if m.m_lastItem.size = 0 then .ok () m
    else
      match r.payload with
      | .error e => .error e m
      | .ok payload =>
        let rest := payload.croppedFrom m.m_lastEnd
        match sizeAsEncoded rest with
        -- what is left of the payload has already taken the place of the last item
        | .error e => .error e { m with m_lastItem := rest }
        | .ok size =>
          let item := rest.cropped 0 size
          accessLoop r n ⟨m.m_lastIndex + 1, m.m_lastEnd + item.size, item⟩

/-- The first item, which is looked up for an index before the last one. -/
def rewind (r : RLP) (m : Memo) : EStateM.Result RLPError Memo Unit :=
  match r.payload with
  | .error e => .error e m
  | .ok payload =>
    match sizeAsEncoded payload with
    | .error e => .error e m
    | .ok lastEnd => .ok () ⟨0, lastEnd, payload.cropped 0 lastEnd⟩

/-- `operator[]` -/
def access (r : RLP) (i : Nat) (m : Memo) : EStateM.Result RLPError Memo RLP :=
  match if i < m.m_lastIndex then r.rewind m else .ok () m with
  | .error e m => .error e m
  | .ok _ m =>
    match r.accessLoop (i - m.m_lastIndex) m with
    | .error e m => .error e m
    | .ok _ m =>
      match ofRef m.m_lastItem (ThrowOnFail ||| FailIfTooSmall) with
      | .error e => .error e m
      | .ok item => .ok item m

/-- What an access gives. -/
def valueOf {α : Type} : EStateM.Result RLPError Memo α → Except RLPError α
  | .ok a _ => .ok a
  | .error e _ => .error e

/-- The members behind an access. -/
def memoOf {α : Type} : EStateM.Result RLPError Memo α → Memo
  | .ok _ m => m
  | .error _ m => m

end RLP

end Webthree
