import Webthree.Asm.AssemblyItem

/-!
# The block deduplicator

`BlockDeduplicator`: blocks are compared by what follows their tags, where the tag of a block itself counts as the same in all of
them, and a tag that is pushed is replaced by that of the first block that compares equal, until nothing changes.
-/

namespace Webthree

namespace BlockDeduplicator

open AssemblyItem SemanticInformation

/-- Virtual tag that signifies "the current block", `u256(-4)`. -/
def selfTag : U256 := -4

/-- `BlockIterator::operator*` -/
def deref (replaceItem replaceWith item : AssemblyItem) : AssemblyItem := if item = replaceItem then replaceWith else item

/-- The items that a `BlockIterator` goes through once tags at its beginning are skipped: the first one, and from each item the next
one that is no tag, until one after which the control flow does not continue. -/
def read (replaceItem replaceWith : AssemblyItem) : List AssemblyItem → List AssemblyItem
  | [] => []
  | item :: rest =>
    if item.type = .Tag then read replaceItem replaceWith rest
    else
      deref replaceItem replaceWith item ::
        if altersControlFlow item ∧ item ≠ ofInstruction .JUMPI then [] else read replaceItem replaceWith rest

/-- What the comparator reads from an index. -/
def contents (items : List AssemblyItem) (i : Nat) : List AssemblyItem :=
  let own := match items[i]? with
    | some item => if item.type = .Tag then pushTag item.data else pushTag selfTag
    | none => pushTag selfTag
  read own (pushTag selfTag) (items.drop i)

/-- `std::lexicographical_compare` -/
def lexicographical_compare : List AssemblyItem → List AssemblyItem → Bool
  | _, [] => false
  | [], _ :: _ => true
  | a :: as, b :: bs => if a.lt b then true else if b.lt a then false else lexicographical_compare as bs

def comparator (items : List AssemblyItem) (i j : Nat) : Bool :=
  if i = j then false else lexicographical_compare (contents items i) (contents items j)

/-- The blocks seen, and the tags that are to be replaced, the last one first. -/
structure Scan where
  blocksSeen : List Nat
  tagReplacement : List (U256 × U256)

/-- One turn of the loop over the items. `blocksSeen.find(i)` finds what is neither less than `i` nor greater. -/
def scanOne (items : List AssemblyItem) (s : Scan) (i : Nat) : Scan :=
  match items[i]? with
  | none => s
  | some item =>
    if item.type ≠ .Tag then s
    else
      match s.blocksSeen.find? fun j => !comparator items i j && !comparator items j i with
      | none => { s with blocksSeen := i :: s.blocksSeen }
      | some j => { s with tagReplacement := (item.data, (items[j]?.map data).getD 0) :: s.tagReplacement }

def scan (items : List AssemblyItem) : Scan := (List.range items.length).foldl (scanOne items) ⟨[], []⟩

/-- `tagReplacement.count(t)` and `tagReplacement.at(t)`. -/
def replacement (items : List AssemblyItem) (t : U256) : Option U256 := (scan items).tagReplacement.lookup t

/-- The item with its tag replaced. -/
def replaceTag (items : List AssemblyItem) (item : AssemblyItem) : AssemblyItem :=
  if item.type = .PushTag then
    match replacement items item.data with
    | none => item
    | some t => pushTag t
  else item

/-- One iteration: the items after it, and whether any has changed. -/
def iterate (items : List AssemblyItem) : List AssemblyItem × Bool :=
  (items.map (replaceTag items), items.any fun item => item.type = .PushTag && (replacement items item.data).isSome)

/-- The loop, for so many iterations: the items and how many iterations have changed them. -/
def iterations : Nat → List AssemblyItem → Option (List AssemblyItem × Nat)
  | 0, _ => none
  | n + 1, items =>
    match iterate items with
    | (items, false) => some (items, 0)
    | (items, true) => (iterations n items).map fun r => (r.1, r.2 + 1)

/-- `deduplicate`, with the items that it leaves: abort if the virtual tag actually exists. -/
def deduplicate (n : Nat) (items : List AssemblyItem) : Option (List AssemblyItem × Bool) :=
  if tag selfTag ∈ items ∨ pushTag selfTag ∈ items then some (items, false)
  else (iterations n items).map fun r => (r.1, 0 < r.2)

end BlockDeduplicator

end Webthree
