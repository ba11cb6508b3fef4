import Webthree.Lib.Registry
import Webthree.Chain.Block
import Webthree.Core.FixedHash

/-!
# Filters and watches of the client

Filters for logs, and the watches that share them. `LogFilter`: which logs of a receipt it matches, and the blooms by which the client looks for blocks. The hash function is a
parameter, and so is what stands in memory behind the topics of a log, where the matcher looks for a topic that is missing.
-/

namespace Webthree

/-- `LogFilter`. The sets are lists, in the order in which they are iterated over. -/
structure LogFilter where
  m_addresses : List Address
  m_topics : Fin 4 → List H256
  m_earliest : H256
  m_latest : H256

/-- `bloomPart<3, 256>`: three bits, each by two bytes of the hash. -/
def bloomPart (h : H256) : LogBloom :=
  (List.range 3).foldl (fun ret i =>
    ret ||| (1 : LogBloom) <<< (((h.bytes.getD (2 * i) 0).toNat <<< 8 ||| (h.bytes.getD (2 * i + 1) 0).toNat) &&& 2047)) 0

namespace LogBloom

/-- `shiftBloom<3>` -/
def shiftBloom (b : LogBloom) (h : H256) : LogBloom := b ||| bloomPart h

/-- `containsBloom<3>` -/
def containsBloom (b : LogBloom) (h : H256) : Bool := b.contains (bloomPart h)

end LogBloom

section

variable (sha3 : Bytes → H256)

/-- `dev::sha3` of an address. -/
def addressHash (a : Address) : H256 := sha3 (hashBytes 20 a)

/-- `dev::sha3` of a topic. -/
def topicHash (t : H256) : H256 := sha3 t.bytes

/-- `LogEntry::bloom` -/
def LogEntry.bloom (e : LogEntry) : LogBloom :=
  e.topics.foldl (fun ret t => LogBloom.shiftBloom ret (topicHash sha3 t)) (LogBloom.shiftBloom 0 (addressHash sha3 e.address))

/-- `bloom` of the logs of a receipt. -/
def bloomOfLogs (logs : List LogEntry) : LogBloom := logs.foldl (fun ret l => ret ||| l.bloom sha3) 0

end

namespace LogFilter

/-- The topics, as the array of the source is iterated over. -/
def positions (f : LogFilter) : List (List H256) := List.ofFn f.m_topics

/-- `isRangeFilter` -/
def isRangeFilter (f : LogFilter) : Bool := f.m_addresses.isEmpty && f.positions.all List.isEmpty

/-- The item that `streamRLP` writes. -/
def item (f : LogFilter) : Item :=
  .list [.list (f.m_addresses.map fun a => .data (hashBytes 20 a)), .list (f.positions.map fun t => .list (t.map fun h => .data h.bytes)),
    .data f.m_earliest.bytes, .data f.m_latest.bytes]

/-- `sha3` -/
def sha3 (sha3 : Bytes → H256) (f : LogFilter) : H256 := sha3 f.item.encode

section

variable (sha3 : Bytes → H256)

/-- `matches(LogBloom)` -/
def matchesBloom (f : LogFilter) (bloom : LogBloom) : Bool :=
  (f.m_addresses.isEmpty || f.m_addresses.any fun i => bloom.containsBloom (addressHash sha3 i)) &&
    f.positions.all fun t => t.isEmpty || t.any fun i => bloom.containsBloom (topicHash sha3 i)

/-- The bloom of an address and of all topics of a position. -/
def candidate (b : LogBloom) (t : List H256) : LogBloom := t.foldl (fun b j => b.shiftBloom (topicHash sha3 j)) b

/-- `bloomPossibilities` -/
def bloomPossibilities (f : LogFilter) : List LogBloom :=
  let filled := f.positions.filter fun t => !t.isEmpty
  -- 1st case, there are addresses and topics
  let ret := f.m_addresses.flatMap fun i => filled.map (candidate sha3 (LogBloom.shiftBloom 0 (addressHash sha3 i)))
  -- 2nd case, there are no topics
  let ret := if ret.isEmpty then f.m_addresses.map fun i => LogBloom.shiftBloom 0 (addressHash sha3 i) else ret
  -- 3rd case, there are no addresses, at least create blooms from topics
  if f.m_addresses.isEmpty then ret ++ filled.map (candidate sha3 0) else ret

variable (behind : LogEntry → H256)

/-- `e.topics[i]`, for an index up to the number of topics. -/
def topicAt (e : LogEntry) (i : Nat) : H256 := e.topics.getD i (behind e)

/-- The body of the loop over the logs. -/
def matchesEntry (f : LogFilter) (e : LogEntry) : Bool :=
  (f.m_addresses.isEmpty || f.m_addresses.contains e.address) &&
    (List.finRange 4).all fun i =>
      (f.m_topics i).isEmpty || (!(e.topics.length < i.val) && (f.m_topics i).contains (topicAt behind e i.val))

/-- `matches(TransactionReceipt)` -/
def matchesReceipt (f : LogFilter) (m : TransactionReceipt) : List LogEntry :=
  if f.isRangeFilter then m.log
  else if f.matchesBloom sha3 m.bloom then m.log.filter (f.matchesEntry behind)
  else []

/-- The indices at which the loop over the positions reads a topic, until a position rejects the log. -/
def readsFrom (f : LogFilter) (e : LogEntry) : List (Fin 4) → List Nat
  | [] => []
  | i :: is =>
    if (f.m_topics i).isEmpty then f.readsFrom e is
    else if e.topics.length < i.val then []
    else i.val :: if (f.m_topics i).contains (topicAt behind e i.val) then f.readsFrom e is else []

/-- The topics that `matches(TransactionReceipt)` reads, each as a log and an index. -/
def receiptReads (f : LogFilter) (m : TransactionReceipt) : List (LogEntry × Nat) :=
  if f.isRangeFilter || !f.matchesBloom sha3 m.bloom then []
  else (m.log.filter fun e => f.m_addresses.isEmpty || f.m_addresses.contains e.address).flatMap fun e =>
    (f.readsFrom behind e (List.finRange 4)).map fun i => (e, i)

/-- The numbers of the blocks on the main chain that `logs` looks at, between two numbers. -/
def matchingBlocks (f : LogFilter) («end» «begin» : Nat) : BlockChain.ChainM (List Nat) := do
  if f.isRangeFilter then return List.range' «end» («begin» + 1 - «end»)
  else do
    let us ← (f.bloomPossibilities sha3).mapM fun i => BlockChain.withBlockBloom i «end» «begin»
    return us.flatten

end

end LogFilter

/-!
## Watches of the client

`ClientBase`: the filters for logs that are installed, each once under its hash with a count of the watches that use it, and the
watches, under numbers. A watch names its filter by the hash. What a watch has seen of the logs is left out.
-/

/-- `PendingChangedFilter` -/
def PendingChangedFilter : H256 := H256.ofU256 0

/-- `ChainChangedFilter` -/
def ChainChangedFilter : H256 := H256.ofU256 1

/-- `InstalledFilter` -/
structure InstalledFilter where
  filter : LogFilter
  refCount : Nat := 1

/-- `ClientWatch` -/
structure ClientWatch where
  id : H256
deriving DecidableEq

/-- `ClientBase` -/
structure ClientBase where
  m_filters : Assoc H256 InstalledFilter := []
  m_watches : Assoc Nat ClientWatch := []

namespace ClientBase

/-- The number of a new watch, an `unsigned`. -/
def newId (s : ClientBase) : Nat := s.m_watches.nextKey 32

/-- `installWatch(_h)` -/
def installWatch (s : ClientBase) (h : H256) : Nat × ClientBase :=
  (s.newId, { s with m_watches := s.m_watches.set s.newId ⟨h⟩ })

/-- What `installWatch(_f)` does with the filter: it is put there only if there is none with its hash. -/
def addFilter (sha3 : Bytes → H256) (s : ClientBase) (f : LogFilter) : ClientBase :=
  match s.m_filters.find (f.sha3 sha3) with
  | none => { s with m_filters := s.m_filters.set (f.sha3 sha3) { filter := f } }
  | some _ => s

/-- `installWatch(_f)` -/
def installFilter (sha3 : Bytes → H256) (s : ClientBase) (f : LogFilter) : Nat × ClientBase :=
  (s.addFilter sha3 f).installWatch (f.sha3 sha3)

/-- A use less, where the count is an `unsigned`. -/
def release (m : Assoc H256 InstalledFilter) (id : H256) : Assoc H256 InstalledFilter :=
  match m.find id with
  | none => m
  | some fit =>
    let refCount := (fit.refCount + (2 ^ 32 - 1)) % 2 ^ 32
    if refCount = 0 then m.remove id else m.set id { fit with refCount := refCount }

/-- `uninstallWatch` -/
def uninstallWatch (s : ClientBase) (i : Nat) : Bool × ClientBase :=
  match s.m_watches.find i with
  | none => (false, s)
  | some it => (true, { m_watches := s.m_watches.remove i, m_filters := release s.m_filters it.id })

end ClientBase

/-- A call of the client. -/
inductive ClientOp where
  | installFilter (f : LogFilter)
  | installWatch (h : H256)
  | uninstallWatch (i : Nat)

/-- A step of the client. -/
def ClientOp.next (sha3 : Bytes → H256) (s : ClientBase) : ClientOp → ClientBase
  | .installFilter f => (s.installFilter sha3 f).2
  | .installWatch h => (s.installWatch h).2
  | .uninstallWatch i => (s.uninstallWatch i).2

end Webthree
