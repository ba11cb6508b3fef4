import Webthree.Trie.TrieCommon

/-!
# The trie and its database

`MemoryDB`, less its auxiliary table: the nodes under their hashes, each with the number of references to it; `kill` takes a
reference away and never a node, and whether a node without references is still found is up to `m_enforceRefs`. Over it,
`GenericTrieDB`: `init`, `insert`, `remove` and `at`, with the node surgery below them. The member `m_root` is an argument and a
result, the database is the state. `sha3` is a parameter.
-/

namespace Webthree

/-! ## The node database -/

/-- `MemoryDB`, where a node has fewer references than an `unsigned` can count. -/
structure MemoryDB where
  m_main : H256 → Option (Item × Nat)
  m_enforceRefs : Bool
  /-- Every node ever handed to `insert`, the last one first. Nothing reads it: it says which nodes a run involves. -/
  inserted : List Item

namespace MemoryDB

/-- `MemoryDB()`, with references enforced or not. -/
def fresh (enforceRefs : Bool) : MemoryDB := ⟨fun _ => none, enforceRefs, []⟩

/-- The number of references to a hash. -/
def count (db : MemoryDB) (h : H256) : Nat :=
  match db.m_main h with
  | some (_, n) => n
  | none => 0

/-- The node under a hash; the source returns the empty string where there is none. -/
def lookup (db : MemoryDB) (h : H256) : Option Item :=
  match db.m_main h with
  | some (v, n) => if !db.m_enforceRefs || n > 0 then some v else none
  | none => none

def exists' (db : MemoryDB) (h : H256) : Bool :=
  match db.m_main h with
  | some (_, n) => !db.m_enforceRefs || n > 0
  | none => false

def insert (db : MemoryDB) (h : H256) (v : Item) : MemoryDB :=
  { db with
    m_main := Function.update db.m_main h (some (v, db.count h + 1))
    inserted := v :: db.inserted }

def kill (db : MemoryDB) (h : H256) : MemoryDB :=
  match db.m_main h with
  | some (v, n) => if n > 0 then { db with m_main := Function.update db.m_main h (some (v, n - 1)) } else db
  | none => db

/-- The hashes with references. -/
def keys (db : MemoryDB) (h : H256) : Bool := db.count h > 0

end MemoryDB

/-! ## The trie -/

namespace TrieDB

/-- A member function of the trie: it may change the database and it may throw. -/
abbrev TrieM := EStateM TrieError MemoryDB

/-- What a helper without state returns or throws. -/
def ofExcept {α : Type} : Except TrieError α → TrieM α
  | .ok a => pure a
  | .error e => throw e

/-- `assert` -/
def assert (b : Bool) : TrieM Unit := if b then pure () else throw .assertionFailed

/-- An `if` without `else`. -/
def doIf (b : Bool) (m : TrieM Unit) : TrieM Unit := if b then m else pure ()

variable (sha3 : Bytes → H256)

/-- The hash of a node's string. -/
def hashOf (x : Item) : H256 := sha3 x.encode

/-- `c_shaNull` -/
def c_shaNull : H256 := hashOf sha3 (.data [])

/-- `node(_h)`: the node under a hash, if there is one. -/
def node (h : H256) : TrieM (Option Item) := do return (← get).lookup h

/-! ## Putting nodes into the database and taking them out -/

/-- `forceInsertNode` -/
def forceInsertNode (v : Item) : TrieM H256 := do
  modify fun db => db.insert (hashOf sha3 v) v
  return hashOf sha3 v

/-- `forceKillNode` -/
def forceKillNode (h : H256) : TrieM Unit := modify fun db => db.kill h

/-- `killNode(_d, _h)`: only a node of 32 bytes or more has a place of its own in the database. -/
def killNodeHash (d : Item) (h : H256) : TrieM Unit :=
  if d.encode.length ≥ 32 then forceKillNode h else pure ()

/-- `killNode(_d)` -/
def killNode (d : Item) : TrieM Unit := killNodeHash d (hashOf sha3 d)

/-- `streamNode`: what stands in a node for the node `b` below it. -/
def streamNode (b : Item) : TrieM Item :=
  if b.encode.length < 32 then pure b
  else do
    let h ← forceInsertNode sha3 b
    return .data h.bytes

/-! ## Node surgery -/

/-- A node with the item at `i` replaced. -/
def replace (x : Item) (i : Nat) (y : Item) : Item := .list (x.items.set i y)

/-- `place`: in `null` or `[_k, V]` out `[_k, _s]`; in `[V0, ..., V15, S16]` out `[V0, ..., V15, _s]`. -/
def place (orig : Item) (k : NibbleSlice) (s : Bytes) : TrieM Item := do
  killNode sha3 orig
  if orig.isEmpty then return .list [.data (hexPrefixEncode k true 0 k.size), .data s]
  assert (orig.isList && (orig.itemCount = 2 || orig.itemCount = 17))
  if orig.itemCount = 2 then return .list [orig.get 0, .data s]
  return .list ((List.range 16).map orig.get ++ [.data s])

/-- `cleve`: in `[K1 & K2, V]` out `[K1, H]` with `[K2, V] => H`. -/
def cleve (orig : Item) (s : Nat) : TrieM Item := do
  killNode sha3 orig
  assert (orig.isList && orig.itemCount = 2)
  let k := keyOf orig
  assert (s ≠ 0 && s ≤ k.size)
  let bottom := Item.list [.data (hexPrefixEncode k (isLeaf orig) s k.size), orig.get 1]
  let top := hexPrefixEncode k false 0 s
  return .list [.data top, ← streamNode sha3 bottom]

/-- The node below `orig` in `graft`, removed from the trie if it is not a part of `orig`. -/
def graftChild (orig : Item) : TrieM (Option Item) :=
  if (orig.get 1).isList then pure (some (orig.get 1))
  else do
    let lh ← ofExcept (orig.get 1).toHash
    let s ← node lh
    forceKillNode lh
    return s

/-- `graft`: in `[K1, H]` with `H <= [K2, V]` out `[K1 & K2, V]`. -/
def graft (orig : Item) : TrieM Item := do
  assert (orig.isList && orig.itemCount = 2)
  match ← graftChild orig with
  | none => throw .assertionFailed
  | some n =>
    assert (n.itemCount = 2)
    return .list [.data (hexPrefixEncode₂ (keyOf orig) (keyOf n) (isLeaf n)), n.get 1]

/-- `merge`: in `[V0, ... V15, S]` out `[k{i}, Vi]` where `i < 16`, and `[k{}, S]` where `i == 16`. -/
def merge (orig : Item) (i : Nat) : TrieM Item := do
  assert (orig.isList && orig.itemCount = 17)
  if i ≠ 16 then do
    assert !(orig.get i).isEmpty
    return .list [.data (hexPrefixEncode (NibbleSlice.ofBytes [UInt8.ofNat i] 0) false 1 2), orig.get i]
  else return .list [.data (hexPrefixEncode [] true 0 0), orig.get i]

/-- The child in `branch` of a node whose key goes on with `rest` after its first nibble. -/
def branchChild (orig : Item) (rest : NibbleSlice) : TrieM Item :=
  if isLeaf orig || rest.length + 1 > 1 then
    streamNode sha3 (.list [.data (hexPrefixEncode rest (isLeaf orig) 0 rest.length), orig.get 1])
  else pure (orig.get 1)

/-- `branch`: in `[k{}, S]` out `[null ** 16, S]`; in `[k{i}, N]` out `[null ** i, N, null ** (16 - i)]`; in `[k{i}K, V]` out
`[null ** i, H, null ** (16 - i)]` with `[K, V] => H`. -/
def branch (orig : Item) : TrieM Item := do
  assert (orig.isList && orig.itemCount = 2)
  killNode sha3 orig
  match keyOf orig with
  | [] => do
    assert (isLeaf orig)
    return .list (List.replicate 16 (.data []) ++ [orig.get 1])
  | b :: rest => do
    let c ← branchChild sha3 orig rest
    return .list ((List.replicate 17 (.data [])).set b c)

/-! ## Insertion -/

/-- `mergeAtAux`, with the function it calls back. -/
def mergeAtAux (mergeAt : Item → H256 → NibbleSlice → Bytes → Bool → TrieM Item) (orig : Item) (k : NibbleSlice) (v : Bytes) :
    TrieM Item := do
  -- _orig is always a segment of a node's RLP - removing it alone is pointless. However, if may be a hash, in which case we
  -- deref and we know it is removable.
  if !orig.isList && !orig.isEmpty then
    match ← node (← ofExcept orig.toHash) with
    | none => throw .assertionFailed
    | some r => streamNode sha3 (← mergeAt r (hashOf sha3 r) k v false)
  else streamNode sha3 (← mergeAt orig (hashOf sha3 orig) k v true)

/-- `mergeAt` -/
def mergeAt : (fuel : Nat) → (orig : Item) → (origHash : H256) → NibbleSlice → Bytes → (inLine : Bool) → TrieM Item
  | 0, _, _, _, _, _ => throw .outOfFuel
  | fuel + 1, orig, origHash, k, v, inLine => do
    -- Empty - just insert here
    if orig.isEmpty then place sha3 orig k v
    else
      assert (orig.isList && (orig.itemCount = 2 || orig.itemCount = 17))
      if orig.itemCount = 2 then
        let key := keyOf orig
        -- exactly our node - place value in directly.
        if key.eq k && isLeaf orig then place sha3 orig k v
        -- partial key is our key - move down.
        else if k.contains key && !isLeaf orig then
          doIf (!inLine) (killNodeHash orig origHash)
          let c ← mergeAtAux sha3 (mergeAt fuel) (orig.get 1) (k.mid key.size) v
          return .list [orig.get 0, c]
        else
          let sh := k.shared key
          if sh ≠ 0 then
            -- shared stuff - cleve at disagreement.
            let cleved ← cleve sha3 orig sh
            mergeAt fuel cleved (hashOf sha3 cleved) k v true
          else
            -- nothing shared - branch
            let branched ← branch sha3 orig
            mergeAt fuel branched (hashOf sha3 branched) k v true
      else
        -- exactly our node - place value.
        if k.size = 0 then place sha3 orig k v
        else
          doIf (!inLine) (killNodeHash orig origHash)
          -- not exactly our node - delve to next level at the correct index.
          let n ← ofExcept (k.nibbleAt 0)
          let c ← mergeAtAux sha3 (mergeAt fuel) (orig.get n) (k.mid 1) v
          return replace orig n c

/-- Turns enough for any key: one for each of its nibbles, and those of splitting a node. -/
def mergeFuel (k : NibbleSlice) : Nat := k.size + 5

/-- `insert` -/
def insert (root : H256) (key value : Bytes) : TrieM H256 := do
  match ← node root with
  | none => throw .assertionFailed
  | some rootValue =>
    let k := NibbleSlice.ofBytes key 0
    let b ← mergeAt sha3 (mergeFuel k) rootValue root k value false
    -- mergeAt won't attempt to delete the node if it's less than 32 bytes
    -- However, we know it's the root node and thus always hashed.
    doIf (rootValue.encode.length < 32) (forceKillNode root)
    forceInsertNode sha3 b

/-! ## Removal -/

/-- `isTwoItemNode` -/
def isTwoItemNode (n : Item) : TrieM Bool := do
  if n.isData then
    match ← node (← ofExcept n.toHash) with
    | none => return false
    | some r => return r.itemCount = 2
  else return n.itemCount = 2

/-- The call of `deleteAt` in `deleteAtAux`. -/
def deleteAtChild (deleteAt : Option Item → NibbleSlice → TrieM (Option Item)) (orig : Item) (k : NibbleSlice) :
    TrieM (Option Item) := do
  if orig.isEmpty then return none
  else if orig.isList then deleteAt (some orig) k
  else deleteAt (← node (← ofExcept orig.toHash)) k

/-- `deleteAtAux`, with the function it calls back: `none` if the key was not found. -/
def deleteAtAux (deleteAt : Option Item → NibbleSlice → TrieM (Option Item)) (orig : Item) (k : NibbleSlice) :
    TrieM (Option Item) := do
  match ← deleteAtChild deleteAt orig k with
  | none => return none
  | some b => return some (← streamNode sha3 b)

/-- The end of `deleteAt` at a branch with only the slot `used` in use. -/
def mergeUsed (orig : Item) (used : Nat) : TrieM Item := do
  if ← isTwoItemNode (orig.get used) then graft (← merge orig used)
  else merge orig used

/-- `deleteAt`: the node that takes the place of `orig`, `none` if the key was not found. -/
def deleteAt : (fuel : Nat) → (orig : Option Item) → NibbleSlice → TrieM (Option Item)
  | 0, _, _ => throw .outOfFuel
  | _ + 1, none, _ => throw .assertionFailed
  | fuel + 1, some orig, k => do
    -- Empty - not found - no change.
    if orig.isEmpty then return none
    assert (orig.isList && (orig.itemCount = 2 || orig.itemCount = 17))
    if orig.itemCount = 2 then
      let key := keyOf orig
      -- exactly our node - return null.
      if key.eq k && isLeaf orig then
        killNode sha3 orig
        return some (.data [])
      -- partial key is our key - move down.
      else if k.contains key then
        match ← deleteAtAux sha3 (deleteAt fuel) (orig.get 1) (k.mid key.size) with
        | none => return none
        | some c =>
          killNode sha3 orig
          let r := Item.list [orig.get 0, c]
          if ← isTwoItemNode c then return some (← graft r)
          return some r
      -- not found - no change.
      else return none
    else
      -- exactly our node - remove and rejig.
      if k.size = 0 && !(orig.get 16).isEmpty then
        killNode sha3 orig
        let used := uniqueInUse orig 16
        if used ≠ 255 then return some (← mergeUsed orig used)
        return some (.list ((List.range 16).map orig.get ++ [.data []]))
      else
        -- not exactly our node - delve to next level at the correct index.
        let n ← ofExcept (k.nibbleAt 0)
        match ← deleteAtAux sha3 (deleteAt fuel) (orig.get n) (k.mid 1) with
        -- bomb out if the key didn't turn up.
        | none => return none
        | some c =>
          killNode sha3 orig
          -- check if we ended up leaving the node invalid.
          let rlp := replace orig n c
          let used := uniqueInUse rlp 255
          if used = 255 then return some rlp
          -- yes; merge
          return some (← mergeUsed rlp used)

/-- Turns enough for any key: one for each of its nibbles. -/
def deleteFuel (k : NibbleSlice) : Nat := k.size + 2

/-- `remove` -/
def remove (root : H256) (key : Bytes) : TrieM H256 := do
  let rv ← node root
  let k := NibbleSlice.ofBytes key 0
  match ← deleteAt sha3 (deleteFuel k) rv k with
  | none => return root
  | some b =>
    doIf ((rv.map fun r => r.encode.length).getD 0 < 32) (forceKillNode root)
    forceInsertNode sha3 b

/-! ## Reading -/

/-- `deref` -/
def deref (db : MemoryDB) (n : Item) : Except TrieError (Option Item) :=
  if n.isList then .ok (some n) else n.toHash.map db.lookup

/-- `atAux` -/
def atAux (db : MemoryDB) : (fuel : Nat) → (here : Option Item) → NibbleSlice → Except TrieError Bytes
  | 0, _, _ => throw .outOfFuel
  | _ + 1, none, _ => return []
  | fuel + 1, some here, key => do
    -- not found.
    if here.isEmpty then return []
    if !(here.isList && (here.itemCount = 2 || here.itemCount = 17)) then throw .assertionFailed
    if here.itemCount = 2 then
      let k := keyOf here
      -- reached leaf and it's us
      if key.eq k && isLeaf here then return (here.get 1).toString
      -- not yet at leaf and it might yet be us. onwards...
      else if key.contains k && !isLeaf here then atAux db fuel (← deref db (here.get 1)) (key.mid k.size)
      -- not us.
      else return []
    else
      if key.size = 0 then return (here.get 16).toString
      let n := here.get (← key.nibbleAt 0)
      if n.isEmpty then return []
      atAux db fuel (← deref db n) (key.mid 1)

/-- `at(_key)` -/
def at' (db : MemoryDB) (root : H256) (key : Bytes) : Except TrieError Bytes :=
  let k := NibbleSlice.ofBytes key 0
  atAux db (k.size + 2) (db.lookup root) k

/-- `root()` -/
def root (db : MemoryDB) (m_root : H256) : Except TrieError H256 :=
  match db.lookup m_root with
  | none => throw .BadRoot
  | some _ => return m_root

/-! ## The empty trie -/

/-- `init` on the condition of `setRoot`. -/
def initIf (b : Bool) (root : H256) : TrieM H256 := if b then forceInsertNode sha3 (.data []) else pure root

/-- `setRoot`, with `init` where the root is that of an empty trie which is not there. -/
def setRoot (root : H256) : TrieM H256 := do
  let db ← get
  let root ← initIf sha3 (root = c_shaNull sha3 && !db.exists' root) root
  match ← node root with
  | none => throw .RootNotFound
  | some _ => return root

/-- `init` -/
def init : TrieM H256 := do setRoot sha3 (← forceInsertNode sha3 (.data []))

end TrieDB

end Webthree
