import Mathlib.Tactic.Linarith
import Webthree.Trie.TrieDB

/-!
# The root of a map and the nodes of a trie

`hash256` of `TrieHash.cpp`: the root of a trie computed from its contents, over ranges of a sorted map of nibble keys. A range
of iterators is the list of the entries in it.
-/

namespace Webthree

/-- `BytesMap` -/
abbrev BytesMap := Std.TreeMap Bytes Bytes

/-- `HexMap` -/
abbrev HexMap := Std.TreeMap (List Nibble) Bytes

/-- An entry of a `HexMap`. -/
abbrev HexEntry := List Nibble × Bytes

/-- The inner loop of `hash256rlp`: how far two keys agree from `preLen` on, up to `x`. -/
def sharedFrom (first key : List Nibble) (preLen x : Nat) : Nat :=
  preLen + sharedLength ((first.take x).drop preLen) ((key.take x).drop preLen)

/-- The outer loop: the number of nibbles at the beginning shared by the first key and each successive. -/
def sharedPreLoop (first : List Nibble) (preLen : Nat) : Nat → List HexEntry → Nat
  | sharedPre, [] => sharedPre
  | sharedPre, e :: es =>
    if sharedPre = 0 then sharedPre
    else
      let x := min sharedPre (min first.length e.1.length)
      sharedPreLoop first preLen (min (sharedFrom first e.1 preLen x) sharedPre) es

/-- The entries from `b` on whose nibble at `preLen` is `i`, and the ones behind them. -/
def takeSlot (preLen i : Nat) : List HexEntry → Option (List HexEntry × List HexEntry)
  | [] => some ([], [])
  | e :: es =>
    match e.1[preLen]? with
    | none => none
    | some d => if d.val = i then (takeSlot preLen i es).map fun r => (e :: r.1, r.2) else some ([], e :: es)

/-- A slot of a branch: `hash256aux` if there are entries for it. -/
def hashSlot (aux : List HexEntry → Option Item) (a : List HexEntry) : Option Item :=
  if a.isEmpty then some (.data []) else aux a

/-- The loop over the slots of a branch. -/
def hashSlots (aux : List HexEntry → Option Item) (preLen : Nat) : List Nat → List HexEntry → Option (List Item)
  | [], _ => some []
  | i :: is, b => do
    let (a, r) ← takeSlot preLen i b
    let c ← hashSlot aux a
    let cs ← hashSlots aux preLen is r
    return c :: cs

variable (sha3 : Bytes → H256)

/-- `hash256aux`, with the function it calls. -/
def hash256aux (rlp : List HexEntry → Nat → Option Item) (s : List HexEntry) (preLen : Nat) : Option Item := do
  let r ← rlp s preLen
  return if r.encode.length < 32 then r else .data (TrieDB.hashOf sha3 r).bytes

/-- `hash256rlp`. Where the source counts `sharedPre` down from the largest `unsigned`, the count starts from the length of the
first key, which no turn of the loop exceeds. -/
def hash256rlp : (fuel : Nat) → List HexEntry → (preLen : Nat) → Option Item
  | 0, _, _ => none
  | _ + 1, [], _ => some (.data [])
  -- only one left - terminate with the pair.
  | _ + 1, [(k, v)], preLen => some (.list [.data (hexPrefixEncodeVector k true preLen k.length), .data v])
  | fuel + 1, (k, v) :: e :: es, preLen =>
    let sharedPre := sharedPreLoop k preLen k.length (e :: es)
    if sharedPre > preLen then do
      -- if they all have the same next nibble, we also want a pair.
      let c ← hash256aux sha3 (hash256rlp fuel) ((k, v) :: e :: es) sharedPre
      return .list [.data (hexPrefixEncodeVector k false preLen sharedPre), c]
    else do
      -- otherwise enumerate all 16+1 entries.
      let b := if preLen = k.length then e :: es else (k, v) :: e :: es
      let cs ← hashSlots (fun s => hash256aux sha3 (hash256rlp fuel) s (preLen + 1)) preLen (List.range 16) b
      return .list (cs ++ [.data (if preLen = k.length then v else [])])

/-- Turns enough for keys no longer than the longest one. -/
def hashFuel (s : List HexEntry) : Nat := (s.map fun e => e.1.length).foldr max 0 + 1

/-- `rlp256` -/
def rlp256 (s : BytesMap) : Option Item :=
  if s.isEmpty then some (.data [])
  else
    let hexMap := s.toList.reverse.foldl (fun m e => m.insert (asNibbles e.1) e.2) (∅ : HexMap)
    hash256rlp sha3 (hashFuel hexMap.toList) hexMap.toList 0

/-- `hash256` -/
def hash256 (s : BytesMap) : Option H256 := (rlp256 sha3 s).map (TrieDB.hashOf sha3)

/-!
## Scanning a trie

`descendKey`, `descendEntry` and `descendList` take the hashes they meet out of a set of hashes, and `leftOvers` does so with all
hashes that have references. Nothing is printed: `_out` is `nullptr`.
-/

namespace TrieDB

/-- `h256Hash` -/
abbrev H256Hash := H256 → Bool

variable (sha3 : Bytes → H256) (db : MemoryDB) (m_root : H256)

/-- `descendKey`, with the function it calls. -/
def descendKey (list : Item → Bool → H256Hash → Except TrieError H256Hash) (k : H256) (wasExt : Bool) (keyMask : H256Hash) :
    Except TrieError H256Hash :=
  let keyMask := Function.update keyMask k false
  -- root allowed to be empty
  if k = m_root && k = c_shaNull sha3 then .ok keyMask
  else
    match db.lookup k with
    -- if not, it must be a list
    | none => .error .InvalidTrie
    | some r => list r wasExt keyMask

/-- `descendEntry`, with the function it calls. -/
def descendEntry (list : Item → Bool → H256Hash → Except TrieError H256Hash) (r : Item) (wasExt : Bool) (keyMask : H256Hash) :
    Except TrieError H256Hash :=
  if r.isData && r.toString.length = 32 then do descendKey sha3 db m_root list (← r.toHash) wasExt keyMask
  else if r.isList then list r wasExt keyMask
  else .error .InvalidTrie

/-- `descendList` -/
def descendList : (fuel : Nat) → (r : Item) → (wasExt : Bool) → H256Hash → Except TrieError H256Hash
  | 0, _, _, _ => .error .outOfFuel
  | fuel + 1, r, wasExt, keyMask =>
    if r.isList && r.itemCount = 2 && !wasExt then
      -- don't go down leaves
      if !isLeaf r then descendEntry sha3 db m_root (descendList fuel) (r.get 1) true keyMask else .ok keyMask
    else if r.isList && r.itemCount = 17 then
      -- 16 branches are allowed to be empty
      (List.range 16).foldlM (fun keyMask i =>
        if !(r.get i).isEmpty then descendEntry sha3 db m_root (descendList fuel) (r.get i) false keyMask else .ok keyMask) keyMask
    else .error .InvalidTrie

/-- `leftOvers` -/
def leftOvers (fuel : Nat) : Except TrieError H256Hash :=
  descendKey sha3 db m_root (descendList sha3 db m_root fuel) m_root false db.keys

end TrieDB

/-! ## The references of a trie

What a reader of the database finds under a root: every reference, as often as it occurs. -/

section

variable (db : MemoryDB)

/-- The references in an item of a node: none if it is empty, those of the node if that stands there itself, and otherwise the
hash and the references in the node under it. -/
def entryRefs (nodeRefs : Item → List H256) (r : Item) : List H256 :=
  if r.isEmpty then []
  else if r.isList then nodeRefs r
  else
    match r.toHash with
    | .error _ => []
    | .ok h => h :: ((db.lookup h).map nodeRefs).getD []

/-- The references in a node, as far down as the fuel goes. -/
def nodeRefs : (fuel : Nat) → Item → List H256
  | 0, _ => []
  | fuel + 1, r =>
    if r.itemCount = 2 then if isLeaf r then [] else entryRefs db (nodeRefs fuel) (r.get 1)
    else (List.finRange 16).flatMap fun i : Fin 16 => entryRefs db (nodeRefs fuel) (r.get i.val)

/-- The references in a trie, with the one to its root. -/
def trieRefs (fuel : Nat) (root : H256) : List H256 := entryRefs db (nodeRefs db fuel) (.data root.bytes)

end

end Webthree
