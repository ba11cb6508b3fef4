import Webthree.Common
import Webthree.Rlp.Item
import Webthree.Lib.Patricia

/-!
# Nibbles and hex-prefix keys

The helpers of the trie: a `NibbleSlice` is the list of the nibbles it shows, and a node is the item its string encodes, on
which the queries of the class `RLP` are asked (`readBytes_encode` reads an item back from its string). Counts of nibbles are
`unsigned` in the source and `Nat` here.
-/

namespace Webthree

/-- What the trie throws: the exceptions of the source, its failed assertions and a nibble read behind the end of a slice. The
source's loops have no bound of their own; `outOfFuel` is the model's. -/
inductive TrieError where
  | BadCast
  | RootNotFound
  | BadRoot
  | InvalidTrie
  | assertionFailed
  | nibbleOutOfRange
  | outOfFuel
deriving DecidableEq, Repr

/-! ## Items -/

namespace Item

/-- Zero-length string or list. -/
def isEmpty : Item → Bool
  | data b => b.isEmpty
  | list l => l.isEmpty

/-- List value. -/
def isList : Item → Bool
  | data _ => false
  | list _ => true

/-- String value. -/
def isData (x : Item) : Bool := !x.isList

/-- The items of a list. -/
def items : Item → List Item
  | data _ => []
  | list l => l

/-- The number of items in the list, or zero if it isn't a list. -/
def itemCount (x : Item) : Nat := x.items.length

/-- Subscript operator; the trie asks only for items that are there. -/
def get (x : Item) (i : Nat) : Item := x.items.getD i (data [])

/-- The data payload. Valid for all types. -/
def payload : Item → Bytes
  | data b => b
  | list l => encodeAll l

/-- Converts to string: the empty string if not a string. -/
def toString : Item → Bytes
  | data b => b
  | list _ => []

/-- `toHash<h256>`: a string of at most 32 bytes, behind zeros. -/
def toHash : Item → Except TrieError H256
  | data b =>
    if h : b.length ≤ 32 then
      .ok ⟨List.replicate (32 - b.length) 0 ++ b, by rw [List.length_append, List.length_replicate]; omega⟩
    else .error .BadCast
  | list _ => .error .BadCast

end Item

/-! ## Nibbles -/

/-- Four bits. -/
abbrev Nibble := Fin 16

theorem nibble_ne_zero : NeZero 16 := ⟨by decide⟩

/-- `nibble` at an even place. -/
def highNibble (b : UInt8) : Nibble := @Fin.ofNat 16 nibble_ne_zero (b.toNat / 16)

/-- `nibble` at an odd place. -/
def lowNibble (b : UInt8) : Nibble := @Fin.ofNat 16 nibble_ne_zero (b.toNat % 16)

/-- The nibbles of a string. -/
def asNibbles : Bytes → List Nibble
  | [] => []
  | b :: bs => highNibble b :: lowNibble b :: asNibbles bs

/-- Nibble-based view on a string. -/
abbrev NibbleSlice := List Nibble

namespace NibbleSlice

/-- `NibbleSlice(_data, _offset)` -/
def ofBytes (data : Bytes) (offset : Nat) : NibbleSlice := (asNibbles data).drop offset

/-- `operator[]`; behind the end of the slice the source reads whatever stands there. -/
def nibbleAt (s : NibbleSlice) (i : Nat) : Except TrieError Nibble :=
  match s[i]? with
  | some n => .ok n
  | none => .error .nibbleOutOfRange

def size (s : NibbleSlice) : Nat := s.length

def mid (s : NibbleSlice) (i : Nat) : NibbleSlice := s.drop i

/-- The number of shared nibbles at the beginning of this and `k`. -/
def shared (s k : NibbleSlice) : Nat := sharedLength s k

/-- True iff `k` is a prefix of this. -/
def contains (s k : NibbleSlice) : Bool := s.shared k = k.size

/-- Determine if we, a full key, are situated prior to a particular key-prefix. -/
def isEarlierThan : NibbleSlice → NibbleSlice → Bool
  | a :: s, b :: k => if a < b then true else if b < a then false else isEarlierThan s k
  | _, [] => false
  | [], _ :: _ => true

/-- `operator==` -/
def eq (s k : NibbleSlice) : Bool := k.size = s.size && s.shared k = k.size

end NibbleSlice

/-! ## Hex-prefix notation

First nibble has flags: oddness = 2^0 & termination = 2^1. -/

/-- The flags, in the high nibble of a byte. -/
def hexPrefixFlags (leaf odd : Bool) : UInt8 := UInt8.ofNat (((if leaf then 2 else 0) ||| (if odd then 1 else 0)) * 16)

/-- A byte of two nibbles. -/
def packNibbles (a b : Nibble) : UInt8 := UInt8.ofNat (a.val * 16 + b.val)

/-- Two nibbles at a time. -/
def packAll : List Nibble → Bytes
  | a :: b :: s => packNibbles a b :: packAll s
  | _ => []

/-- `hexPrefixEncode(_hexVector, _leaf, _begin, _end)`, with `_end` not negative. -/
def hexPrefixEncodeVector (hexVector : List Nibble) (leaf : Bool) (b e : Nat) : Bytes :=
  match (hexVector.take e).drop b with
  | [] => [hexPrefixFlags leaf false]
  | n :: s =>
    if (n :: s).length % 2 ≠ 0 then (hexPrefixFlags leaf true ||| UInt8.ofNat n.val) :: packAll s
    else hexPrefixFlags leaf false :: packAll (n :: s)

/-- One turn of the loops of `hexPrefixEncode`: `d` is odd when the nibble goes onto the back of the string. -/
def pushNibble (st : Bytes × Nat) (n : Nibble) : Bytes × Nat :=
  if st.2 % 2 = 1 then (st.1.dropLast ++ [st.1.getLastD 0 ||| UInt8.ofNat n.val], st.2 + 1)
  else (st.1 ++ [UInt8.ofNat (n.val * 16)], st.2 + 1)

/-- `hexPrefixEncode(_s, _leaf, _begin, _end)`, with `_end` not negative. -/
def hexPrefixEncode (s : NibbleSlice) (leaf : Bool) (b e : Nat) : Bytes :=
  let ns := (s.take e).drop b
  let odd := ns.length % 2 = 1
  (ns.foldl pushNibble ([hexPrefixFlags leaf odd], if odd then 1 else 2)).1

/-- `hexPrefixEncode(_s1, _s2, _leaf)`: one key behind the other. -/
def hexPrefixEncode₂ (s1 s2 : NibbleSlice) (leaf : Bool) : Bytes :=
  let odd := (s1.length + s2.length) % 2 = 1
  (s2.foldl pushNibble (s1.foldl pushNibble ([hexPrefixFlags leaf odd], if odd then 1 else 2))).1

/-- `keyOf(_hpe)` -/
def keyOfBytes (hpe : Bytes) : NibbleSlice :=
  match hpe with
  | [] => NibbleSlice.ofBytes hpe 0
  | b :: _ => if b &&& 0x10 ≠ 0 then NibbleSlice.ofBytes hpe 1 else NibbleSlice.ofBytes hpe 2

/-- `keyOf(_twoItem)` -/
def keyOf (twoItem : Item) : NibbleSlice := keyOfBytes (twoItem.get 0).payload

/-- `isLeaf`, of a node with a key. -/
def isLeaf (twoItem : Item) : Bool := (twoItem.get 0).payload.headD 0 &&& 0x20 ≠ 0

/-- One turn of the loop of `uniqueInUse`: `none` once two slots are in use. -/
def uniqueInUseStep (orig : Item) (except : Nat) (used : Option Nat) (i : Nat) : Option Nat :=
  match used with
  | none => none
  | some u => if i ≠ except && !(orig.get i).isEmpty then (if u = 255 then some i else none) else some u

/-- The only slot in use, besides `except`; 255 if none or more than one is. -/
def uniqueInUse (orig : Item) (except : Nat) : Nat :=
  ((List.range 17).foldl (uniqueInUseStep orig except) (some 255)).getD 255

end Webthree
