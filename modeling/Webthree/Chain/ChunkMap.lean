import Webthree.Lib.Chunks

/-!
# The downloaded headers and bodies

`m_headers` and `m_bodies` of `BlockChainSync`: maps from block numbers to vectors of items, in which a vector holds the items of
consecutive numbers.
-/

namespace Webthree

/-- `std::map<unsigned, std::vector<T>>`, in the order of its keys. -/
abbrev ChunkMap (T : Type) := List (UInt32 × List T)

namespace ChunkMap

variable {T : Type}

/-- `lower_bound`: the chunks before the iterator, and those from it on. -/
def lower_bound (container : ChunkMap T) (number : UInt32) : ChunkMap T × ChunkMap T :=
  (container.takeWhile fun c => c.1 < number, container.dropWhile fun c => c.1 < number)

/-- `--lower`, where it is not at the beginning. -/
def stepBack : ChunkMap T × ChunkMap T → Option (ChunkMap T × (UInt32 × List T) × ChunkMap T)
  | (before, lower) => before.getLast?.map fun c => (before.dropLast, c, lower)

/-- `haveItem` -/
def haveItem (container : ChunkMap T) (number : UInt32) : Bool :=
  if container.isEmpty then false
  else
    match container.lower_bound number with
    | (before, lower) =>
      if lower.head?.any fun c => c.1 = number then true
      else
        match stepBack (before, lower) with
        | none => false
        | some (_, c, _) => c.1 ≤ number ∧ c.1.toNat + c.2.length > number.toNat

/-- `findItem` -/
def findItem (container : ChunkMap T) (number : UInt32) : Option T :=
  if container.isEmpty then none
  else
    match container.lower_bound number with
    | (before, lower) =>
      match lower.head?.filter fun c => c.1 = number with
      | some c => c.2.head?
      | none =>
        match stepBack (before, lower) with
        | none => none
        | some (_, c, _) =>
          if c.1 ≤ number ∧ c.1.toNat + c.2.length > number.toNat then c.2[number.toNat - c.1.toNat]? else none

/-- `removeItem` -/
def removeItem (container : ChunkMap T) (number : UInt32) : ChunkMap T :=
  if container.isEmpty then container
  else
    match container.lower_bound number with
    | (before, lower) =>
      if lower.head?.any fun c => c.1 = number then before ++ lower.tail
      else
        match stepBack (before, lower) with
        | none => container
        | some (before, c, next) =>
          if c.1 ≤ number ∧ c.1.toNat + c.2.length > number.toNat then
            before ++ (c.1, c.2.take (number.toNat - c.1.toNat)) :: next
          else container

/-- `removeAllStartingWith` -/
def removeAllStartingWith (container : ChunkMap T) (number : UInt32) : ChunkMap T :=
  if container.isEmpty then container
  else
    match container.lower_bound number with
    | (before, lower) =>
      if lower.head?.any fun c => c.1 = number then before
      else
        match stepBack (before, lower) with
        | none => []
        | some (before, c, _) =>
          if c.1 ≤ number ∧ c.1.toNat + c.2.length > number.toNat then
            before ++ [(c.1, c.2.take (number.toNat - c.1.toNat))]
          else before ++ [c]

/-- Put the chunk behind a chunk on its end, if it starts there. -/
def join (c : UInt32 × List T) (starts : UInt32 → Bool) : ChunkMap T → ChunkMap T
  | [] => [c]
  | next :: rest => if starts next.1 then (c.1, c.2 ++ next.2) :: rest else c :: next :: rest

/-- `mergeInto`, with `none` for a failure of its assertion. -/
def mergeInto (container : ChunkMap T) (number : UInt32) (data : T) : Option (ChunkMap T) :=
  if container.haveItem number then none
  else
    let lower := container.lower_bound number
    -- at the beginning of the map the iterator stays where it is
    let (before, at_) := match stepBack lower with
      | some (before, c, next) => (before, c :: next)
      | none => lower
    match at_.head?.filter fun c => c.1.toNat + c.2.length = number.toNat with
    | some c =>
      -- extend existing chunk
      let c := (c.1, c.2 ++ [data])
      some (before ++ join c (fun next => c.1.toNat + c.2.length = next.toNat) at_.tail)
    | none =>
      -- insert a new chunk
      some (lower.1 ++ join (number, [data]) (fun next => next = number + 1) lower.2)

end ChunkMap

end Webthree
