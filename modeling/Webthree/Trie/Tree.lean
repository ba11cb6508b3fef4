import Mathlib.Algebra.BigOperators.Pi
import Mathlib.Algebra.BigOperators.Fin
import Webthree.Lib.PatriciaUpdate
import Webthree.Trie.TrieDB
import Webthree.Lemmas.TrieCommon

/-!
# The tree a database holds

What the nodes of the trie stand for: a Patricia tree over nibbles, of which the node database holds every node whose string is
not short enough to stand inside the node above it.
-/

namespace Webthree

open TrieDB

/-- A value of the trie: a string that is not empty. -/
abbrev Value := { b : Bytes // b ≠ [] }

/-- The trees of the trie. -/
abbrev Tree := Patricia 16 Value

/-- The string in the value slot of a branch. -/
def valueBytes : Option Value → Bytes
  | some v => v.val
  | none => []

section

variable (sha3 : Bytes → H256)

/-- What stands for a node inside the node above it. -/
def refOf (x : Item) : Item := if x.encode.length < 32 then x else .data (hashOf sha3 x).bytes

/-- The first node of a tree. -/
def itemOf : Tree → Item
  | .empty => .data []
  | .leaf k v => .list [.data (hexPrefix k true), .data v.val]
  | .ext k c => .list [.data (hexPrefix k false), refOf sha3 (itemOf c)]
  | .branch cs v => .list (List.ofFn (fun i => refOf sha3 (itemOf (cs i))) ++ [.data (valueBytes v)])

/-- A node is in the database, with or without references. -/
def Has (db : MemoryDB) (x : Item) : Prop := ∃ n, db.m_main (hashOf sha3 x) = some (x, n)

/-- A node is in the database if it needs a place there. -/
def Held (db : MemoryDB) (x : Item) : Prop := 32 ≤ x.encode.length → Has sha3 db x

/-- All nodes below the first one are in the database. -/
def Stored (db : MemoryDB) : Tree → Prop
  | .empty => True
  | .leaf _ _ => True
  | .ext _ c => Held sha3 db (itemOf sha3 c) ∧ Stored db c
  | .branch cs _ => ∀ i, Held sha3 db (itemOf sha3 (cs i)) ∧ Stored db (cs i)

/-- One reference to a hash. -/
def one (h : H256) : H256 → Nat := fun h' => if h' = h then 1 else 0

/-- The reference to a node from the node above it. -/
def own (x : Item) : H256 → Nat := if x.encode.length < 32 then 0 else one (hashOf sha3 x)

/-- The references from the nodes of a tree. -/
def below : Tree → H256 → Nat
  | .empty => 0
  | .leaf _ _ => 0
  | .ext _ c => own sha3 (itemOf sha3 c) + below c
  | .branch cs _ => ∑ i, (own sha3 (itemOf sha3 (cs i)) + below (cs i))

/-- What always holds of a database: its nodes stand under their hashes, and where references are enforced they are counted
as `b` says. -/
structure Accounted (db : MemoryDB) (b : H256 → Nat) : Prop where
  hash_eq : ∀ h x n, db.m_main h = some (x, n) → hashOf sha3 x = h ∧ x ∈ db.inserted
  count_eq : db.m_enforceRefs = true → ∀ h, db.count h = b h

/-- No node is lost from one database to another. -/
structure Grown (db db' : MemoryDB) : Prop where
  has : ∀ x, Has sha3 db x → Has sha3 db' x
  enforce_eq : db'.m_enforceRefs = db.m_enforceRefs

/-- No two of the nodes handed to the database have the same hash. -/
def CollisionFree (db : MemoryDB) : Prop := Set.InjOn (hashOf sha3) { x | x ∈ db.inserted }

end

end Webthree
