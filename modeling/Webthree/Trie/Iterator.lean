import Webthree.Trie.TrieDB

/-!
# The iterator

`GenericTrieDB::iterator`: a trail of nodes from the root to where the iterator stands. The back of `m_trail` is the head of the
list; `m_that` is `nullptr` exactly when it is not asked for any more and is left out, as `operator==` leaves it out.
-/

namespace Webthree

namespace TrieDB

/-- `iterator::Node`. A string that is not a node's is `none`. -/
structure IterNode where
  rlp : Option Item
  /-- As hexPrefixEncoding. -/
  key : Bytes
  /-- 255 -> entering, 16 -> actually at the node, 17 -> exiting, 0-15 -> actual children. -/
  child : Nat

namespace IterNode

def setChild (b : IterNode) (i : Nat) : IterNode := { b with child := i }

def setFirstChild (b : IterNode) : IterNode := b.setChild 16

/-- 255 -> 16 -> 0 -> 1 -> ... -> 15 -> 17 -/
def incrementChild (b : IterNode) : IterNode :=
  b.setChild (if b.child = 16 then 0 else if b.child = 15 then 17 else b.child + 1)

end IterNode

/-- `m_trail` -/
abbrev Trail := List IterNode

/-- How a turn of the loop of `next` ends: the loop goes on, or the function returns. -/
inductive IterTurn where
  | again (trail : Trail) (k : NibbleSlice)
  | done (trail : Trail)

variable (db : MemoryDB)

/-- The child of a branch that `next` enters. -/
def pushChild (rlp : Item) (back : IterNode) : Except TrieError IterNode := do
  let c ← deref db (rlp.get back.child)
  return ⟨c, hexPrefixEncode₂ (keyOfBytes back.key) (NibbleSlice.ofBytes [UInt8.ofNat back.child] 1) false, 255⟩

/-- The `for` over the children of a branch; it makes at most 18 turns. -/
def childLoop (rlp : Item) : (turns : Nat) → (back : IterNode) → (rest : Trail) → NibbleSlice → Except TrieError IterTurn
  | 0, _, _, _ => .error .outOfFuel
  | turns + 1, back, rest, k =>
    -- finished here.
    if back.child = 17 then .ok (.again rest [])
    else if !(rlp.get back.child).isEmpty then
      -- have a value at this node - exit now.
      if back.child = 16 then .ok (.done (back :: rest))
      -- lead-on to another node - enter child.
      else do return .again ((← pushChild db rlp back) :: back :: rest) k
    else childLoop rlp turns back.incrementChild rest []

/-- The key to go on with below a node with two items, `none` if all of the node is before the key. -/
def descendWith (k keyOfRLP : NibbleSlice) : Option NibbleSlice :=
  if !k.contains keyOfRLP then
    if !k.isEarlierThan keyOfRLP then none
    else some []
  else some (k.mid (min k.size keyOfRLP.size))

/-- A turn of `next(_key)` at a node with two items. -/
def enterPair (rlp : Item) (back : IterNode) (rest : Trail) (k : NibbleSlice) : Except TrieError IterTurn :=
  match descendWith k (keyOf rlp) with
  | none => .ok (.again rest [])
  | some k => do
    let back := { back with key := hexPrefixEncode₂ (keyOfBytes back.key) (keyOf rlp) false }
    if isLeaf rlp then
      -- leaf - exit now.
      if k.isEmpty then return .done (back.setChild 0 :: rest)
      -- Still data in key we're supposed to be looking for when we're at a leaf. Go for next one.
      return .again rest []
    -- enter child.
    return .again ({ back with rlp := ← deref db (rlp.get 1) } :: rest) k

/-- A turn of the loop of `next(_key)`. -/
def nextKeyTurn : Trail → NibbleSlice → Except TrieError IterTurn
  | [], _ => .ok (.done [])
  | back :: rest, k =>
    match back.rlp with
    | none => if back.child = 255 then .ok (.done (back :: rest)) else .ok (.again rest [])
    | some rlp =>
      if back.child = 255 then
        -- Kill our search as soon as we hit an empty node.
        if rlp.isEmpty then .ok (.again rest [])
        else if !rlp.isList || (rlp.itemCount ≠ 2 && rlp.itemCount ≠ 17) then .ok (.done (back :: rest))
        else if rlp.itemCount = 2 then enterPair db rlp back rest k
        else
          -- Already a branch - look for first valid.
          match k with
          | n :: k => childLoop db rlp 18 (back.setChild n) rest k
          | [] => childLoop db rlp 18 (back.setChild 16) rest []
      -- Continuing/exiting. Look for next...
      else if !(rlp.isList && rlp.itemCount = 17) then .ok (.again rest [])
      else childLoop db rlp 18 back.incrementChild rest k

/-- `next(_key)` -/
def nextKey : (fuel : Nat) → Trail → NibbleSlice → Except TrieError Trail
  | 0, _, _ => .error .outOfFuel
  | fuel + 1, trail, k => do
    match ← nextKeyTurn db trail k with
    | .again trail k => nextKey fuel trail k
    | .done trail => return trail

/-- A turn of the loop of `next()`; the `for` is the one of `next(_key)` without a key. -/
def nextTurn : Trail → Except TrieError IterTurn
  | [] => .ok (.done [])
  | back :: rest =>
    match back.rlp with
    | none => if back.child = 255 then .ok (.done (back :: rest)) else .ok (.again rest [])
    | some rlp =>
      if back.child = 255 then
        if rlp.isEmpty then .ok (.again rest [])
        else if !(rlp.isList && (rlp.itemCount = 2 || rlp.itemCount = 17)) then .ok (.done (back :: rest))
        else if rlp.itemCount = 2 then do
          let back := { back with key := hexPrefixEncode₂ (keyOfBytes back.key) (keyOf rlp) false }
          -- leaf - exit now.
          if isLeaf rlp then return .done (back.setChild 0 :: rest)
          -- enter child.
          return .again ({ back with rlp := ← deref db (rlp.get 1) } :: rest) []
        -- Already a branch - look for first valid.
        else childLoop db rlp 18 back.setFirstChild rest []
      -- Continuing/exiting. Look for next...
      else if !(rlp.isList && rlp.itemCount = 17) then .ok (.again rest [])
      else childLoop db rlp 18 back.incrementChild rest []

/-- `next()` -/
def next : (fuel : Nat) → Trail → Except TrieError Trail
  | 0, _ => .error .outOfFuel
  | fuel + 1, trail => do
    match ← nextTurn db trail with
    | .again trail _ => next fuel trail
    | .done trail => return trail

/-- `iterator::at()` -/
def iterAt : Trail → Except TrieError (Bytes × Bytes)
  | [] => .error .assertionFailed
  | b :: _ =>
    match b.rlp with
    | none => .error .assertionFailed
    | some rlp =>
      -- should be an integer number of bytes (i.e. not an odd number of nibbles).
      if b.key.isEmpty || b.key.headD 0 &&& 0x10 ≠ 0 then .error .assertionFailed
      else .ok (b.key.drop 1, (rlp.get (if rlp.itemCount = 2 then 1 else 16)).payload)

/-- The trail an iterator starts from: one null byte is the HPE for the empty key. -/
def startTrail (root : H256) : Trail := [⟨db.lookup root, [0], 255⟩]

/-- `begin()` -/
def begin' (fuel : Nat) (root : H256) : Except TrieError Trail := next db fuel (startTrail db root)

/-- `lower_bound(_key)` -/
def lower_bound (fuel : Nat) (root : H256) (key : Bytes) : Except TrieError Trail :=
  nextKey db fuel (startTrail db root) (NibbleSlice.ofBytes key 0)

/-- What a loop `for (; i != end(); ++i)` reads with `*i`; `end()` is the iterator with the empty trail. -/
def readAll (fuel : Nat) : (turns : Nat) → Trail → Except TrieError (List (Bytes × Bytes))
  | _, [] => .ok []
  | 0, _ :: _ => .error .outOfFuel
  | turns + 1, b :: rest => do
    let e ← iterAt (b :: rest)
    let trail ← next db fuel (b :: rest)
    let es ← readAll fuel turns trail
    return e :: es

end TrieDB

end Webthree
