import Webthree.Lib.Registry
import Webthree.Core.FixedHash
import Webthree.Rlp.Convert

/-!
# Whisper

The messages of Whisper with their topics, and the host that keeps them.
-/

namespace Webthree

/-!
## Blooms, envelopes and filters for topics

`TopicBloomFilter`, a bloom with a counter for each of its bits, so that what was put into it can be taken out again, `Envelope`
with its hash and its way from RLP, and `TopicFilter`, which matches envelopes by their abridged topics.
-/

namespace Shh

/-- `AbridgedTopic`, four bytes. -/
abbrev AbridgedTopic := BitVec 32

/-- `TopicBloomFilterHash`, 64 bytes. Its bit `i` is the one that `isBitSet` looks at for `i`: bit `i % 8` of byte `i / 8`. -/
abbrev TopicBloomFilterHash := BitVec 512

namespace TopicBloomFilterHash

/-- `contains` -/
def contains (f c : TopicBloomFilterHash) : Bool := f &&& c == c

/-- `setBit` -/
def setBit (h : TopicBloomFilterHash) (index : Nat) : TopicBloomFilterHash := h ||| (1 : TopicBloomFilterHash) <<< index

/-- `isBitSet` -/
def isBitSet (h : TopicBloomFilterHash) (index : Nat) : Bool := h.getLsbD index

end TopicBloomFilterHash

/-- `TopicBloomFilter` -/
structure TopicBloomFilter where
  bits : TopicBloomFilterHash := 0
  m_refCounter : Fin 512 → Nat := fun _ => 0

namespace TopicBloomFilter

open TopicBloomFilterHash

/-- `bloom`: three bits, each by a byte of the topic, and by a bit of its last byte. -/
def bloom (h : AbridgedTopic) : TopicBloomFilterHash :=
  let byte (i : Nat) := ((hashBytes 4 h).getD i 0).toNat
  (List.range 3).foldl (fun ret i => setBit ret (byte i + if byte 3 &&& 2 ^ i ≠ 0 then 256 else 0)) 0

/-- The loop of `addRaw` over the counters, each an `uint16_t`; `false` for `Overflow`. -/
def addRawLoop (h : TopicBloomFilterHash) : List (Fin 512) → (Fin 512 → Nat) → (Fin 512 → Nat) × Bool
  | [], c => (c, true)
  | i :: l, c =>
    if isBitSet h i then
      if c i ≠ 2 ^ 16 - 1 then addRawLoop h l (Function.update c i (c i + 1)) else (c, false)
    else addRawLoop h l c

/-- `addRaw`, and whether it returns. -/
def addRaw (f : TopicBloomFilter) (h : TopicBloomFilterHash) : TopicBloomFilter × Bool :=
  let r := addRawLoop h (List.finRange 512) f.m_refCounter
  ({ bits := f.bits ||| h, m_refCounter := r.1 }, r.2)

/-- The body of the loop of `removeRaw`. -/
def removeBit (h : TopicBloomFilterHash) (f : TopicBloomFilter) (i : Fin 512) : TopicBloomFilter :=
  if isBitSet h i then
    { bits := if f.m_refCounter i - 1 = 0 then f.bits &&& ~~~((1 : TopicBloomFilterHash) <<< i.val) else f.bits
      m_refCounter := Function.update f.m_refCounter i (f.m_refCounter i - 1) }
  else f

/-- `removeRaw` -/
def removeRaw (f : TopicBloomFilter) (h : TopicBloomFilterHash) : TopicBloomFilter := (List.finRange 512).foldl (removeBit h) f

end TopicBloomFilter

end Shh

/-! ## Topics -/

namespace Shh

/-- `Topic` -/
abbrev Topic := H256

/-- An `AbridgedTopic`, as an item. -/
def topicItem (t : AbridgedTopic) : Item := .data (hashBytes 4 t)

/-! ## Envelopes -/

/-- `Envelope` -/
structure Envelope where
  m_expiry : BitVec 32
  m_ttl : BitVec 32
  m_topic : List AbridgedTopic
  m_data : Bytes
  m_nonce : U256
deriving DecidableEq

namespace Envelope

/-- The item that `streamRLP` writes, with the nonce. -/
def item (e : Envelope) : Item :=
  .list [.data (toBigEndian e.m_expiry.toNat), .data (toBigEndian e.m_ttl.toNat), .list (e.m_topic.map topicItem), .data e.m_data,
    .data (toBigEndian e.m_nonce.toNat)]

/-- `sha3` -/
def sha3 (sha3 : Bytes → H256) (e : Envelope) : H256 := sha3 e.item.encode

/-- `toVector<FixedHash<4>>` -/
def toTopics (r : RLP) : Except RLPError (List AbridgedTopic) :=
  if r.isList then do
    (List.range (← r.itemCount)).mapM fun i => do
      return hashOfBytes 32 (← (← r.index i).toHash 4 RLP.LaissezFaire)
  else pure []

/-- `Envelope(_m)` -/
def ofRLP (m : RLP) : Except RLPError Envelope := do
  let m_expiry ← (← m.index 0).toInt 4 RLP.Strict
  let m_ttl ← (← m.index 1).toInt 4 RLP.Strict
  let m_topic ← toTopics (← m.index 2)
  let m_data ← (← m.index 3).toBytes
  let m_nonce ← (← m.index 4).toInt 32 RLP.Strict
  return { m_expiry := BitVec.ofNat 32 m_expiry, m_ttl := BitVec.ofNat 32 m_ttl, m_topic := m_topic, m_data := m_data
           m_nonce := BitVec.ofNat 256 m_nonce }

/-- `matchesBloomFilter` -/
def matchesBloomFilter (e : Envelope) (f : TopicBloomFilterHash) : Bool := e.m_topic.any fun t => f.contains (TopicBloomFilter.bloom t)

/-- `isExpired` -/
def isExpired (e : Envelope) (utcTime : Nat) : Bool := e.m_expiry.toNat ≤ utcTime

end Envelope

/-! ## Filters for topics -/

/-- `abridge` -/
def abridge (sha3 : Bytes → H256) (t : Topic) : AbridgedTopic := hashOfBytes 32 ((sha3 t.bytes).bytes.take 4)

/-- `TopicFilter`: abridged topics with masks. -/
structure TopicFilter where
  m_topicMasks : List (List (AbridgedTopic × AbridgedTopic))
deriving DecidableEq

namespace TopicFilter

/-- `TopicFilter(Topics)`: the mask of the null topic is zero. -/
def ofTopics (sha3 : Bytes → H256) (m : List Topic) : TopicFilter :=
  ⟨[m.map fun h => (abridge sha3 h, if h.bytes.any (· ≠ 0) then ~~~0 else 0)]⟩

/-- The item that `streamRLP` writes. -/
def item (f : TopicFilter) : Item :=
  .list (f.m_topicMasks.map fun t => .list (t.map fun i => .list [topicItem i.1, topicItem i.2]))

/-- `sha3` -/
def sha3 (sha3 : Bytes → H256) (f : TopicFilter) : H256 := sha3 f.item.encode

/-- `matches` -/
def «matches» (f : TopicFilter) (e : Envelope) : Bool :=
  f.m_topicMasks.any fun t => t.all fun i => e.m_topic.any fun et => (i.1 ^^^ et) &&& i.2 == 0

/-- `exportBloom` -/
def exportBloom (f : TopicFilter) : TopicBloomFilterHash :=
  f.m_topicMasks.foldl (fun ret t => t.foldl (fun ret i => ret ||| TopicBloomFilter.bloom i.1) ret) 0

end TopicFilter

end Shh

/-!
## The whisper host

`WhisperHost`: the messages with the queue of their expiry times, the filters that are installed with a count of the watches that
use each, the watches under numbers, and the bloom of all filters. What is sent to peers, and how they are rated, is left out. A
host that starts may find messages in the database.
-/

namespace Shh

/-- `InstalledFilter` -/
structure InstalledFilter where
  full : List Topic
  filter : TopicFilter
  refCount : Nat := 1

/-- `ClientWatch` -/
structure ClientWatch where
  id : H256
  changes : List H256 := []
deriving DecidableEq

/-- `WhisperHost` -/
structure WhisperHost where
  m_messages : Assoc H256 Envelope := []
  m_expiryQueue : List (BitVec 32 × H256) := []
  m_filters : Assoc H256 InstalledFilter := []
  m_watches : Assoc Nat ClientWatch := []
  m_bloom : TopicBloomFilter := {}

namespace WhisperHost

section

variable (sha3 : Bytes → H256)

/-! ## Watches -/

/-- The number of a new watch, an `unsigned`. -/
def newId (s : WhisperHost) : Nat := s.m_watches.nextKey 32

/-- What `installWatch` does with the filter. -/
def addFilter (m : Assoc H256 InstalledFilter) (h : H256) (f : InstalledFilter) : Assoc H256 InstalledFilter :=
  match m.find h with
  | none => m.set h f
  | some it => m.set h { it with refCount := (it.refCount + 1) % 2 ^ 32 }

/-- `installWatch`; no number if the bloom throws. -/
def installWatch (s : WhisperHost) (t : List Topic) : Option Nat × WhisperHost :=
  let f : InstalledFilter := { full := t, filter := .ofTopics sha3 t }
  let h := f.filter.sha3 sha3
  let bloom := s.m_bloom.addRaw f.filter.exportBloom
  let s := { s with m_filters := addFilter s.m_filters h f, m_bloom := bloom.1 }
  if bloom.2 then (some s.newId, { s with m_watches := s.m_watches.set s.newId { id := h } }) else (none, s)

/-- `uninstallWatch` -/
def uninstallWatch (s : WhisperHost) (i : Nat) : WhisperHost :=
  match s.m_watches.find i with
  | none => s
  | some it =>
    let s := { s with m_watches := s.m_watches.remove i }
    match s.m_filters.find it.id with
    | none => s
    | some fit =>
      let refCount := (fit.refCount + (2 ^ 32 - 1)) % 2 ^ 32
      { s with
        m_bloom := s.m_bloom.removeRaw fit.filter.exportBloom
        m_filters := if refCount = 0 then s.m_filters.remove it.id else s.m_filters.set it.id { fit with refCount := refCount } }

/-! ## Messages -/

/-- `m_expiryQueue.insert`: behind the entries with a time that is not later. -/
def insertQueue (q : List (BitVec 32 × H256)) (e : BitVec 32 × H256) : List (BitVec 32 × H256) :=
  q.orderedInsert (fun a b => a.1.toNat < b.1.toNat) e

/-- The changes of the watches with a filter. -/
def notify (id h : H256) (ws : Assoc Nat ClientWatch) : Assoc Nat ClientWatch :=
  ws.map fun i => if i.2.id = id then (i.1, { i.2 with changes := i.2.changes ++ [h] }) else i

/-- What `inject` adds to the changes of the watches. -/
def deliver (s : WhisperHost) (m : Envelope) (h : H256) : Assoc Nat ClientWatch :=
  if m.matchesBloomFilter s.m_bloom.bits then
    s.m_filters.foldl (fun ws f => if f.2.filter.matches m then notify f.1 h ws else ws) s.m_watches
  else s.m_watches

/-- `inject` -/
def inject (s : WhisperHost) (utcTime : Nat) (m : Envelope) : WhisperHost :=
  if m.isExpired utcTime then s
  else
    let h := m.sha3 sha3
    match s.m_messages.find h with
    | some _ => s
    | none =>
      { s with
        m_messages := s.m_messages.set h m
        m_expiryQueue := insertQueue s.m_expiryQueue (m.m_expiry, h)
        m_watches := s.deliver m h }

/-- The loop of `cleanup`. -/
def cleanupLoop (now : Nat) : List (BitVec 32 × H256) → Assoc H256 Envelope → List (BitVec 32 × H256) × Assoc H256 Envelope
  | [], messages => ([], messages)
  | it :: q, messages => if it.1.toNat ≤ now then cleanupLoop now q (messages.remove it.2) else (it :: q, messages)

/-- `cleanup` -/
def cleanup (s : WhisperHost) (utcTime : Nat) : WhisperHost :=
  let r := cleanupLoop utcTime s.m_expiryQueue s.m_messages
  { s with m_expiryQueue := r.1, m_messages := r.2 }

/-! ## The database -/

/-- The envelope of an entry of the database; `none` for an entry that is wasted. -/
def stored (now : Nat) (entry : Bytes × Bytes) : Option (H256 × Envelope) :=
  match RLP.ofRef (.ofBytes entry.2) RLP.VeryStrict >>= Envelope.ofRLP with
  | .error _ => none
  | .ok e =>
    let h1 := if entry.1.length = 32 then H256.ofBytes entry.1 else H256.ofU256 0
    if h1 = e.sha3 sha3 ∧ now % 2 ^ 32 < e.m_expiry.toNat then some (h1, e) else none

/-- `WhisperMessagesDB::loadAllMessages`, over the entries of the database in order. -/
def loadAllMessages (now : Nat) (db : List (Bytes × Bytes)) : Assoc H256 Envelope :=
  (db.filterMap (stored sha3 now)).foldl (fun o_dst e => o_dst.set e.1 e.2) []

/-- `loadMessagesFromBD`, on the database if it can be opened: the messages and the loaded map are swapped, and the loop is over the
map that the messages were in before. -/
def loadMessagesFromBD (s : WhisperHost) (m_storeMessagesInDB : Bool) (db : Option (List (Bytes × Bytes))) (now : Nat) : WhisperHost :=
  if m_storeMessagesInDB then
    match db with
    | none => s
    | some db =>
      { s with
        m_messages := loadAllMessages sha3 now db
        m_expiryQueue := s.m_messages.foldl (fun q msg => insertQueue q (msg.2.m_expiry, msg.1)) s.m_expiryQueue }
  else s

/-- `WhisperHost()` -/
def new (m_storeMessagesInDB : Bool) (db : Option (List (Bytes × Bytes))) (now : Nat) : WhisperHost :=
  loadMessagesFromBD sha3 {} m_storeMessagesInDB db now

end

end WhisperHost

/-- A call of the host. -/
inductive HostOp where
  | installWatch (t : List Topic)
  | uninstallWatch (i : Nat)
  | inject (utcTime : Nat) (m : Envelope)
  | cleanup (utcTime : Nat)

/-- A step of the host. -/
def HostOp.next (sha3 : Bytes → H256) (s : WhisperHost) : HostOp → WhisperHost
  | .installWatch t => (s.installWatch sha3 t).2
  | .uninstallWatch i => s.uninstallWatch i
  | .inject utcTime m => s.inject sha3 utcTime m
  | .cleanup utcTime => s.cleanup utcTime

end Shh

end Webthree
