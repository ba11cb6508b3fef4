import Webthree.Lib.Table

/-!
# Range masks

`RangeMask`: a subset of a ground range as a map from the beginnings of ranges to their ends. The map stands in the order of its keys,
and items are numbers without an upper limit.
-/

namespace Webthree

structure RangeMask where
  m_all : Nat × Nat
  m_ranges : Assoc Nat Nat
deriving DecidableEq, Repr

inductive RangeError where
  /-- An item is not in the ground range. -/
  | assertion
  /-- The loop has run for more turns than there are items to add. -/
  | endless
deriving DecidableEq, Repr

namespace RangeMask

/-- An empty mask. -/
def new (all : Nat × Nat) : RangeMask := ⟨all, []⟩

/-! ## Lookups in the map -/

/-- The first range that begins behind an item: `m_ranges.upper_bound(i)`. -/
def upper_bound (l : Assoc Nat Nat) (i : Nat) : Option (Nat × Nat) := (l.dropWhile fun r => r.1 ≤ i).head?

/-- The range before that one. -/
def prev (l : Assoc Nat Nat) (i : Nat) : Option (Nat × Nat) := (l.takeWhile fun r => r.1 ≤ i).getLast?

/-! ## Union -/

/-- The turn of the loop of `unionWith(Range)` for an item that no range before it reaches; the next item, unless the loop is left. -/
def unionApart (l : Assoc Nat Nat) (i stop : Nat) : Assoc Nat Nat × Option Nat :=
  match upper_bound l i with
  | none => (l.setSorted (i, stop), none)
  | some after =>
    if stop < after.1 then (l.setSorted (i, stop), none) -- just create a new range
    else if after.1 = i then (l, some after.2)
    else ((l.setSorted (i, after.2)).remove after.1, some after.2) -- merge with the next higher range

/-- The turn for an item at the end of a range. -/
def unionTouching (l : Assoc Nat Nat) (it : Nat × Nat) (i stop : Nat) : Assoc Nat Nat × Option Nat :=
  match upper_bound l i with
  | none => (l.setSorted (it.1, stop), none)
  | some after =>
    if stop < after.1 then (l.setSorted (it.1, stop), none) -- merge with the next lower range
    else ((l.setSorted (it.1, after.2)).remove after.1, some after.2) -- merge with both next lower & next higher

/-- The body of the loop of `unionWith(Range)`. -/
def unionTurn (l : Assoc Nat Nat) (i stop : Nat) : Assoc Nat Nat × Option Nat :=
  match prev l i with
  | none => unionApart l i stop
  | some it =>
    if it.2 < i then unionApart l i stop
    else if it.2 = i then unionTouching l it i stop
    else (l, some it.2)

/-- The loop of `unionWith(Range)`, for a number of turns. -/
def unionLoop (all : Nat × Nat) (stop : Nat) : Nat → Assoc Nat Nat → Nat → Except RangeError (Assoc Nat Nat)
  | 0, l, i => if stop ≤ i then .ok l else .error .endless
  | turns + 1, l, i =>
    if stop ≤ i then .ok l
    else if i < all.1 ∨ all.2 ≤ i then .error .assertion
    else
      match unionTurn l i stop with
      | (l, none) => .ok l
      | (l, some i) => unionLoop all stop turns l i

/-- `unionWith(Range)` -/
def unionRange (m : RangeMask) (r : Nat × Nat) : Except RangeError RangeMask :=
  match unionLoop m.m_all r.2 (r.2 - r.1) m.m_ranges r.1 with
  | .ok l => .ok { m with m_ranges := l }
  | .error e => .error e

/-- `unionWith(T)` -/
def unionItem (m : RangeMask) (i : Nat) : Except RangeError RangeMask := m.unionRange (i, i + 1)

/-- `unionWith(RangeMask)` -/
def unionMask (m x : RangeMask) : Except RangeError RangeMask :=
  x.m_ranges.foldlM unionRange { m with m_all := (min x.m_all.1 m.m_all.1, max x.m_all.2 m.m_all.2) }

/-! ## Complement and difference -/

/-- The loop of `inverted`, with the end of the last range. -/
def invertLoop : Assoc Nat Nat → Nat → Assoc Nat Nat → Assoc Nat Nat × Nat
  | ret, last, [] => (ret, last)
  | ret, last, i :: l => invertLoop (if i.1 ≠ last then ret.setSorted (last, i.1) else ret) i.2 l

def inverted (m : RangeMask) : RangeMask :=
  let ret := invertLoop [] m.m_all.1 m.m_ranges
  { m with m_ranges := if ret.2 ≠ m.m_all.2 then ret.1.setSorted (ret.2, m.m_all.2) else ret.1 }

/-- What `unionWith` and `operator-=` take; the last is the mask itself, by reference. -/
inductive Operand where
  | item (i : Nat)
  | range (r : Nat × Nat)
  | mask (x : RangeMask)
  | self
deriving DecidableEq, Repr

def unionWith (m : RangeMask) : Operand → Except RangeError RangeMask
  | .item i => m.unionItem i
  | .range r => m.unionRange r
  | .mask x => m.unionMask x
  | .self => m.unionMask m

/-- `operator-=`, where the mask is inverted in place before the operand is looked at. -/
def subtract (m : RangeMask) (x : Operand) : Except RangeError RangeMask := (m.inverted.unionWith x).map inverted

/-! ## Lowest items -/

/-- The loop of `lowest`. -/
def lowestLoop : Assoc Nat Nat → Nat → Assoc Nat Nat → Assoc Nat Nat
  | ret, _, [] => ret
  | ret, items, i :: l =>
    if items = 0 then ret
    else lowestLoop (ret.setSorted (i.1, min (i.1 + items) i.2)) (items - (min (i.1 + items) i.2 - i.1)) l

def lowest (m : RangeMask) (items : Nat) : RangeMask := { m with m_ranges := lowestLoop [] items m.m_ranges }

def clear (m : RangeMask) : RangeMask := { m with m_ranges := [] }

/-! ## Queries -/

def contains (m : RangeMask) (i : Nat) : Bool := (prev m.m_ranges i).any fun it => i < it.2

def empty (m : RangeMask) : Bool := m.m_ranges.isEmpty

def full (m : RangeMask) : Bool := m.m_all.1 = m.m_all.2 ∨ m.m_ranges = [m.m_all]

def size (m : RangeMask) : Nat := m.m_ranges.foldl (fun c r => c + (r.2 - r.1)) 0

def firstOut (m : RangeMask) : Nat := (m.m_ranges.find m.m_all.1).getD m.m_all.1

def lastIn (m : RangeMask) : Nat := (m.m_ranges.getLast?.map fun r => r.2 - 1).getD m.m_all.1

/-! ## Iteration -/

/-- The value of the iterator `begin`; that of `end` is the end of the ground range. -/
def begin (m : RangeMask) : Nat := (m.m_ranges.head?.map Prod.fst).getD m.m_all.2

/-- `next` -/
def next (m : RangeMask) (t : Nat) : Nat :=
  let t := t + 1
  if (prev m.m_ranges t).any fun it => it.1 ≤ t ∧ t < it.2 then t
  else ((upper_bound m.m_ranges t).map Prod.fst).getD m.m_all.2

/-- The values from one of the iterator on, for a number of steps. -/
def iterateFrom (m : RangeMask) : Nat → Nat → Except RangeError (List Nat)
  | steps, value =>
    if value = m.m_all.2 then .ok []
    else
      match steps with
      | 0 => .error .endless
      | steps + 1 => (m.iterateFrom steps (m.next value)).map (value :: ·)

/-- The values from `begin` to `end`. -/
def iterate (m : RangeMask) : Except RangeError (List Nat) := m.iterateFrom (m.m_all.2 - m.m_all.1) m.begin

/-! ## Operations -/

inductive Op where
  | unionWith (x : Operand)
  | subtract (x : Operand)
  | invert
  | lowest (items : Nat)
  | clear
deriving DecidableEq, Repr

def apply (m : RangeMask) : Op → Except RangeError RangeMask
  | .unionWith x => m.unionWith x
  | .subtract x => m.subtract x
  | .invert => .ok m.inverted
  | .lowest items => .ok (m.lowest items)
  | .clear => .ok m.clear

end RangeMask

end Webthree
