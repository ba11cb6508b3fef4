import Webthree.Rlp.Reader

/-!
# The RLP writer

`RLPStream`: an output buffer and a stack of the lists that are open, each with the number of items it still waits for and the
place where it starts. When the last item of a list arrives its header is written in front of what the list holds, which is
moved up to make room.
-/

namespace Webthree

/-- `RLPStream`; the last open list is at the head of `m_listStack`. -/
structure RLPStream where
  m_out : Bytes := []
  m_listStack : List (Nat × Nat) := []
deriving DecidableEq, Repr

namespace RLPStream

/-- Make room for `n` bytes at the place `p` and write `b` there: `m_out.resize`, `memmove` and the assignments behind it. -/
def insertAt (out : Bytes) (p : Nat) (b : Bytes) : Bytes := out.take p ++ b ++ out.drop p

/-- The header a completed list of `s` bytes gets. -/
def listHeader (s : Nat) : Except RLPError Bytes :=
  if s < c_rlpListImmLenCount then pure [UInt8.ofNat (c_rlpListStart + s)]
  else if c_rlpListIndLenZero + bytesRequired s ≤ 0xff then
    pure (UInt8.ofNat (c_rlpListIndLenZero + bytesRequired s) :: toBigEndian s)
  else throw .RLPException

/-- The loop of `noteAppended`, over the open lists. -/
def noteAppendedLoop (out : Bytes) : List (Nat × Nat) → Nat → Except RLPError RLPStream
  | [], _ => pure ⟨out, []⟩
  | (first, p) :: rest, itemCount =>
    if first < itemCount then throw .RLPException
    else if first - itemCount ≠ 0 then pure ⟨out, (first - itemCount, p) :: rest⟩
    else do
      let h ← listHeader (out.length - p)
      noteAppendedLoop (insertAt out p h) rest 1

def noteAppended (s : RLPStream) (itemCount : Nat) : Except RLPError RLPStream :=
  if itemCount = 0 then pure s else noteAppendedLoop s.m_out s.m_listStack itemCount

def appendRaw (s : RLPStream) (b : Bytes) (itemCount : Nat) : Except RLPError RLPStream :=
  noteAppended { s with m_out := s.m_out ++ b } itemCount

/-- Push the node-type byte (from `base` on) and the count. -/
def pushCount (s : RLPStream) (count base : Nat) : Except RLPError RLPStream :=
  if bytesRequired count + base > 0xff then throw .RLPException
  else pure { s with m_out := s.m_out ++ [UInt8.ofNat (bytesRequired count + base)] ++ toBigEndian count }

/-- `appendList(_rlp)`: a list given as its payload. -/
def appendListRaw (s : RLPStream) (rlp : Bytes) : Except RLPError RLPStream := do
  let s ← if rlp.length < c_rlpListImmLenCount then
      pure { s with m_out := s.m_out ++ [UInt8.ofNat (rlp.length + c_rlpListStart)] }
    else s.pushCount rlp.length c_rlpListIndLenZero
  s.appendRaw rlp 1

/-- `appendList(_items)`: open a list of that many items. -/
def appendList (s : RLPStream) (items : Nat) : Except RLPError RLPStream :=
  if items ≠ 0 then pure { s with m_listStack := (items, s.m_out.length) :: s.m_listStack } else s.appendListRaw []

/-- `append(_s)` of a byte string, not compacted. -/
def append (s : RLPStream) (b : Bytes) : Except RLPError RLPStream := do
  let s ← match b with
    | [x] =>
      if x.toNat < c_rlpDataImmLenStart then pure { s with m_out := s.m_out ++ [x] } else appendSized s b
    | b => appendSized s b
  s.noteAppended 1
where
  /-- The byte string behind its size. -/
  appendSized (s : RLPStream) (b : Bytes) : Except RLPError RLPStream := do
    let s ← if b.length < c_rlpDataImmLenCount then
        pure { s with m_out := s.m_out ++ [UInt8.ofNat (b.length + c_rlpDataImmLenStart)] }
      else s.pushCount b.length c_rlpDataIndLenZero
    s.appendRaw b 0

/-- `out()` -/
def out (s : RLPStream) : Except RLPError Bytes :=
  if s.m_listStack = [] then pure s.m_out else throw .RLPException

mutual
/-- Write a tree: a string by `append`, a list by `appendList` and its items. -/
def writeTree (s : RLPStream) : Item → Except RLPError RLPStream
  | .data b => s.append b
  | .list l => do writeItems (← s.appendList l.length) l
def writeItems (s : RLPStream) : List Item → Except RLPError RLPStream
  | [] => pure s
  | x :: xs => do writeItems (← writeTree s x) xs
end

/-- The bytes a fresh stream writes for a tree. -/
def writeBytes (t : Item) : Except RLPError Bytes := do
  (← writeTree {} t).out

end RLPStream

end Webthree
