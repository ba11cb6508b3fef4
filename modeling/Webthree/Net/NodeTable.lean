import Webthree.Lib.Transition
import Webthree.Evm.Instruction

/-!
# The node table

`NodeTable` as far as it decides which nodes are in its buckets: nodes are added and noted as active, an active node that finds its
bucket full contests the place of the one least recently seen, and a pong or a timer settles that. Entries are shared by pointer:
a place in a bucket is a weak pointer, which is empty once the entry has been replaced in `m_nodes` and no discovery round holds it.
Datagrams are given decoded, unexpired ones only. What is sent, and what is told to the event handler, is left out.

`nearestNodeEntries`, which spreads over the buckets from the one that the distance of the target leads to.
-/

namespace Webthree

abbrev NodeID := BitVec 512

/-- A reading of the steady clock, in nanoseconds. -/
abbrev TimePoint := Nat

/-! ## Endpoints -/

inductive IpAddress where
  | v4 (bits : BitVec 32)
  | v6 (bits : BitVec 128)
deriving DecidableEq, Repr

namespace IpAddress

/-- The bytes of the address, the first one at index 0. -/
def byte : IpAddress → Nat → Nat
  | .v4 a, i => (a >>> (8 * (3 - i))).toNat % 256
  | .v6 a, i => (a >>> (8 * (15 - i))).toNat % 256

def is_unspecified : IpAddress → Bool
  | .v4 a => a = 0
  | .v6 a => a = 0

def isPrivateAddress : IpAddress → Bool
  | .v4 a =>
    let b := (IpAddress.v4 a).byte
    b 0 = 10 ∨ b 0 = 127 ∨ (b 0 = 172 ∧ 16 ≤ b 1 ∧ b 1 ≤ 31) ∨ (b 0 = 192 ∧ b 1 = 168)
  | .v6 a =>
    let b := (IpAddress.v6 a).byte
    (b 0 = 0xfd ∧ b 1 = 0) ∨ a = 0 ∨ a = 1

def isLocalHostAddress (a : IpAddress) : Bool := a ∈ [.v4 0x7f000001, .v4 0, .v6 1, .v6 0]

def isPublicAddress (a : IpAddress) : Bool := !(a.isPrivateAddress || a.isLocalHostAddress)

end IpAddress

structure NodeIPEndpoint where
  address : IpAddress
  udpPort : UInt16
  tcpPort : UInt16
deriving DecidableEq, Repr

/-- `operator bool` of an endpoint. -/
def NodeIPEndpoint.isSet (e : NodeIPEndpoint) : Bool := !e.address.is_unspecified && 0 < e.udpPort && 0 < e.tcpPort

/-- An UDP endpoint. -/
structure UdpEndpoint where
  address : IpAddress
  port : UInt16
deriving DecidableEq, Repr

structure Node where
  id : NodeID
  endpoint : NodeIPEndpoint
deriving DecidableEq, Repr

/-- What the table is created with. -/
structure NodeTableParams where
  sha3 : NodeID → U256
  /-- The id of `m_node`. -/
  id : NodeID
  test_allowLocal : Bool

namespace NodeTable

def s_bucketSize : Nat := 16

/-- 300 milliseconds. -/
def c_reqTimeout : Nat := 300 * 10 ^ 6

variable (P : NodeTableParams)

def isAllowed (a : IpAddress) : Bool := if P.test_allowLocal then !a.is_unspecified else a.isPublicAddress

def distance (a b : NodeID) : Nat := (P.sha3 a ^^^ P.sha3 b).toNat.log2

end NodeTable

structure NodeEntry where
  id : NodeID
  endpoint : NodeIPEndpoint
  distance : Nat
  pending : Bool
deriving DecidableEq, Repr

/-- An entry of `m_evictions`: the first node may be evicted and replaced with the second. -/
structure EvictionTimeout where
  leastSeen : NodeID
  since : TimePoint
  new : NodeID
deriving DecidableEq, Repr

structure NodeTable where
  /-- The entries ever made; a pointer is an index. -/
  entries : List NodeEntry
  m_nodes : NodeID → Option Nat
  m_state : Nat → List Nat
  m_evictions : List EvictionTimeout
  m_pubkDiscoverPings : List IpAddress
  m_findNodeTimeout : List (NodeID × TimePoint)
  isOpen : Bool
  isStopped : Bool
  /-- How many runs of the check of evictions are scheduled. -/
  checks : Nat

/-- When something happens, and which entries are held by discovery rounds then. -/
structure Moment where
  now : TimePoint
  held : List Nat

inductive NodeRelation where
  | Unknown
  | Known
deriving DecidableEq, Repr

/-- What happens to the table. Of a pong, a list of neighbours, a question for a node and a ping, `sourceid` has signed it. -/
inductive NodeTableEvent where
  | addNode (node : Node) (relation : NodeRelation)
  | pong (sourceid : NodeID) (src : UdpEndpoint)
  | neighbours (sourceid : NodeID) (src : UdpEndpoint) (nodes : List Node)
  | findNode (sourceid : NodeID) (src : UdpEndpoint)
  | pingNode (sourceid : NodeID) (src : UdpEndpoint) (source : NodeIPEndpoint)
  | findNodeSent (id : NodeID)
  | checkEvictions
  | disconnect
  | stop
deriving DecidableEq, Repr

namespace NodeTable

/-- A table whose socket is connected. -/
def new : NodeTable where
  entries := []
  m_nodes _ := none
  m_state _ := []
  m_evictions := []
  m_pubkDiscoverPings := []
  m_findNodeTimeout := []
  isOpen := true
  isStopped := false
  checks := 0

variable (P : NodeTableParams) (m : Moment)

/-- The entry that a pointer points to. -/
def entry (s : NodeTable) (p : Nat) : NodeEntry := s.entries.getD p ⟨0, ⟨.v4 0, 0, 0⟩, 0, true⟩

/-- `weak_ptr::lock` returns the entry. -/
def lock (s : NodeTable) (p : Nat) : Bool := s.m_nodes (s.entry p).id = some p ∨ p ∈ m.held

/-- The bucket of an entry, as an index of an unsigned: an entry at distance 0 would get one beyond the array. -/
def bucket_UNSAFE (e : NodeEntry) : Nat := (e.distance + 2 ^ 32 - 1) % 2 ^ 32

/-- `m_nodes[id] = make_shared<NodeEntry>(m_node.id, id, endpoint)` -/
def makeEntry (node : Node) (pending : Bool) (s : NodeTable) : NodeTable :=
  { s with
    entries := s.entries ++ [⟨node.id, node.endpoint, distance P P.id node.id, pending⟩]
    m_nodes := fun i => if i = node.id then some s.entries.length else s.m_nodes i }

def setBucket (i : Nat) (nodes : List Nat) (s : NodeTable) : NodeTable :=
  { s with m_state := fun j => if j = i then nodes else s.m_state j }

/-- `n->pending = false` for the entry of an id, if there is one. -/
def clearPending (id : NodeID) (s : NodeTable) : NodeTable :=
  match s.m_nodes id with
  | none => s
  | some p => { s with entries := s.entries.modify p fun e => { e with pending := false } }

def dropNode (p : Nat) (s : NodeTable) : NodeTable :=
  let i := bucket_UNSAFE (s.entry p)
  s.setBucket i ((s.m_state i).filter (· ≠ p))

/-- The timer is set unless the timers are stopped. -/
def doCheckEvictions (s : NodeTable) : NodeTable := if s.isStopped then s else { s with checks := s.checks + 1 }

def evict (leastSeen new : Nat) (s : NodeTable) : NodeTable :=
  if !s.isOpen then s
  else
    let s := { s with m_evictions := s.m_evictions ++ [⟨(s.entry leastSeen).id, m.now, (s.entry new).id⟩] }
    if s.m_evictions.length = 1 then s.doCheckEvictions else s

/-- The entry that is noted as active: of another node, at an address that is allowed, and no longer pending. -/
def activeEntry (pubk : NodeID) (endpoint : UdpEndpoint) (s : NodeTable) : Option Nat :=
  if pubk = P.id ∨ isAllowed P endpoint.address = false then none
  else (s.m_nodes pubk).filter fun p => !(s.entry p).pending

/-- `s.nodes.remove_if`: once it has met the entry, `removed` makes it remove all that follow as well. -/
def withoutNode (p : Nat) (s : NodeTable) : List Nat := (s.m_state (bucket_UNSAFE (s.entry p))).takeWhile (· ≠ p)

/-- The entry whose place is contested: the first one of a full bucket, if it still exists. -/
def contested (p : Nat) (s : NodeTable) : Option Nat :=
  if s_bucketSize ≤ (s.withoutNode p).length then (s.withoutNode p).head?.filter (s.lock m) else none

/-- The place of an active entry in its bucket. -/
def placeNode (p : Nat) (s : NodeTable) : NodeTable :=
  let nodes := s.withoutNode p
  let i := bucket_UNSAFE (s.entry p)
  if s_bucketSize ≤ nodes.length then
    match s.contested m p with
    | none => s.setBucket i (nodes.drop 1 ++ [p])
    | some _ => s.setBucket i nodes
  else s.setBucket i (nodes ++ [p])

/-- The address and the UDP port that an active node has been seen at. -/
def updateEndpoint (p : Nat) (endpoint : UdpEndpoint) (s : NodeTable) : NodeTable :=
  { s with
    entries := s.entries.modify p fun e =>
      { e with endpoint := { e.endpoint with address := endpoint.address, udpPort := endpoint.port } } }

def noteActiveNode (pubk : NodeID) (endpoint : UdpEndpoint) (s : NodeTable) : NodeTable :=
  match s.activeEntry P pubk endpoint with
  | none => s
  | some p =>
    let s := s.updateEndpoint p endpoint
    match s.contested m p with
    | none => s.placeNode m p
    | some leastSeen => (s.placeNode m p).evict m leastSeen p

/-- `addNode`, up to the call of `noteActiveNode` for a known node. -/
def addNode (node : Node) (relation : NodeRelation) (s : NodeTable) : NodeTable :=
  match relation with
  | .Known => s.makeEntry P node false
  | .Unknown =>
    if !node.endpoint.isSet then s
    -- ping address to recover nodeid if nodeid is empty
    else if node.id = 0 then { s with m_pubkDiscoverPings := s.m_pubkDiscoverPings.insert node.endpoint.address }
    else if (s.m_nodes node.id).isSome then s
    else s.makeEntry P node true

/-- The entry of `m_evictions` that a pong settles. -/
def answered (sourceid : NodeID) (e : EvictionTimeout) : Bool := e.leastSeen = sourceid ∧ m.now < e.since

/-- What `onReceived` does on a pong, and whether it goes on to note the node as active. -/
def onPong (sourceid : NodeID) (src : UdpEndpoint) (s : NodeTable) : NodeTable × Bool :=
  match s.m_evictions.find? (answered m sourceid) with
  | some e =>
    let s := { s with m_evictions := s.m_evictions.eraseP (answered m sourceid) }
    let s := match s.m_nodes e.new with
      | none => s
      | some n => s.dropNode n
    (s.clearPending e.leastSeen, true)
  | none =>
    if (s.m_nodes sourceid).isSome then (s.clearPending sourceid, true)
    else if src.address ∈ s.m_pubkDiscoverPings then
      let s := { s with m_pubkDiscoverPings := s.m_pubkDiscoverPings.erase src.address }
      (s.addNode P ⟨sourceid, ⟨src.address, src.port, src.port⟩⟩ .Unknown, true)
    -- unsolicited pong; don't note node as active
    else (s, false)

/-- What `onReceived` does on a list of neighbours: it is expected within the timeout of a question, and older questions of the
node are forgotten. -/
def onNeighbours (sourceid : NodeID) (nodes : List Node) (s : NodeTable) : NodeTable :=
  let expected := s.m_findNodeTimeout.any fun t => t.1 = sourceid ∧ m.now - t.2 < c_reqTimeout
  let s := { s with m_findNodeTimeout := s.m_findNodeTimeout.filter fun t => ¬(t.1 = sourceid ∧ c_reqTimeout ≤ m.now - t.2) }
  if expected then nodes.foldl (fun s n => s.addNode P n .Unknown) s else s

/-- What the run of the timer that `doCheckEvictions` sets does. -/
def checkEvictions (s : NodeTable) : NodeTable :=
  let s := { s with checks := s.checks - 1 }
  if s.isStopped then s
  else
    let expired := s.m_evictions.filter fun e => c_reqTimeout < m.now - e.since
    let drop := expired.filterMap fun e => s.m_nodes e.new
    let evictionsRemain := 0 < s.m_evictions.length - drop.length
    -- `list::unique` leaves one of equal neighbours
    let s := (drop.destutter (· ≠ ·)).foldl (fun s n => s.dropNode n) s
    if evictionsRemain then s.doCheckEvictions else s

/-- What an event does before a node is noted as active, and the node to note. -/
def handle (s : NodeTable) : NodeTableEvent → NodeTable × Option (NodeID × UdpEndpoint)
  | .addNode node .Known => (s.addNode P node .Known, some (node.id, ⟨node.endpoint.address, node.endpoint.udpPort⟩))
  | .addNode node .Unknown => (s.addNode P node .Unknown, none)
  | .pong sourceid src =>
    match s.onPong P m sourceid src with
    | (s, true) => (s, some (sourceid, src))
    | (s, false) => (s, none)
  | .neighbours sourceid src nodes => (s.onNeighbours P m sourceid nodes, some (sourceid, src))
  | .findNode sourceid src => (s, some (sourceid, src))
  | .pingNode sourceid src source =>
    let source := { source with address := src.address, udpPort := src.port }
    (s.addNode P ⟨sourceid, source⟩ .Unknown, some (sourceid, src))
  | .findNodeSent id => ({ s with m_findNodeTimeout := s.m_findNodeTimeout ++ [(id, m.now)] }, none)
  | .checkEvictions => (s.checkEvictions m, none)
  | .disconnect => ({ s with isOpen := false }, none)
  | .stop => ({ s with isStopped := true, checks := 0 }, none)

/-- The step of the table. -/
def next (s : NodeTable) (e : NodeTableEvent) : NodeTable :=
  match s.handle P m e with
  | (s, none) => s
  | (s, some (pubk, endpoint)) => s.noteActiveNode P m pubk endpoint

/-! ## The nodes nearest to a target -/

def s_bits : Nat := 256

/-- The size of `m_state`. -/
def s_bins : Nat := s_bits - 1

/-- `map<unsigned, list<shared_ptr<NodeEntry>>>`, empty for a key that is not there. -/
abbrev Found := Nat → List Nat

def Found.push_back (found : Found) (d p : Nat) : Found := fun e => if e = d then found e ++ [p] else found e

variable (s : NodeTable) (target : NodeID)

/-- The loop over the nodes of a bucket. -/
def gatherNodes (count : Nat) : List Nat → Found → Found
  | [], found => found
  | p :: nodes, found =>
    if s.lock m p then
      if count < s_bucketSize then gatherNodes count nodes (found.push_back (distance P target (s.entry p).id) p) else found
    else gatherNodes count nodes found

def gather (count i : Nat) (found : Found) : Found := gatherNodes P m s target count (s.m_state i) found

/-- From a bucket in both directions. -/
def spread (count head tail : Nat) (found : Found) : Found :=
  if head ≠ tail ∧ head < s_bins ∧ count < s_bucketSize then
    let found := gather P m s target count head found
    let found := if count < s_bucketSize ∧ tail ≠ 0 then gather P m s target count tail found else found
    spread count (head + 1) (if tail ≠ 0 then tail - 1 else tail) found
  else found
termination_by s_bins - head

/-- Forward to the last bucket. -/
def rollForward (count head : Nat) (found : Found) : Found :=
  if head < s_bins ∧ count < s_bucketSize then rollForward count (head + 1) (gather P m s target count head found) else found
termination_by s_bins - head

/-- Back to the second bucket. -/
def reverse (count : Nat) : (tail : Nat) → Found → Found
  | 0, found => found
  | tail + 1, found => if count < s_bucketSize then reverse count tail (gather P m s target count (tail + 1) found) else found

/-- What is found in the buckets; nothing changes `count`. -/
def search : Found :=
  let lastBin := s_bins - 1
  let head := distance P P.id target
  let tail := if head = 0 then lastBin else (head - 1) % s_bins
  let count := 0
  if 1 < head ∧ tail ≠ lastBin then spread P m s target count head tail fun _ => []
  else if head < 2 then rollForward P m s target count head fun _ => []
  else reverse P m s target count tail fun _ => []

/-- The endpoint of an entry is set, and allowed. -/
def usable (p : Nat) : Bool := (s.entry p).endpoint.isSet && isAllowed P (s.entry p).endpoint.address

/-- The entries that are found, up to as many as a bucket has. -/
def nearestNodeEntries : List Nat :=
  ((List.range s_bits).flatMap (search P m s target)).foldl
    (fun ret p => if ret.length < s_bucketSize ∧ usable P s p then ret ++ [p] else ret) []

end NodeTable

end Webthree
