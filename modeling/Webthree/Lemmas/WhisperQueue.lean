import Mathlib.Data.List.Sort
import Webthree.Lemmas.WhisperWatches

/-!
# The expiry queue

The queue is sorted by time, and holds the messages, each once under its time, if it does so at the start. The cleanup takes the
first part of it, and the messages that this part names.
-/

namespace Webthree

namespace Shh

namespace WhisperHost

/-- A message has one entry in the queue, which is under its expiry time, and every entry names a message. -/
structure Queued (s : WhisperHost) : Prop where
  entry : ∀ h m, s.m_messages.find h = some m → (s.m_expiryQueue.filter fun e => e.2 = h) = [(m.m_expiry, h)]
  named : ∀ t h, (t, h) ∈ s.m_expiryQueue → ∃ m, s.m_messages.find h = some m

/-- An entry of the table of messages, as it stands in the queue. -/
def queueEntry (e : H256 × Envelope) : BitVec 32 × H256 := (e.2.m_expiry, e.1)

/-- The queue is sorted by time. -/
def SortedQueue (q : List (BitVec 32 × H256)) : Prop := q.Pairwise fun a b => a.1.toNat ≤ b.1.toNat

/-- The messages are a table, the queue is sorted, and its entries are those of the messages. -/
structure InQueue (messages : Assoc H256 Envelope) (queue : List (BitVec 32 × H256)) : Prop where
  proper : messages.Proper
  sorted : SortedQueue queue
  perm : queue.Perm (messages.map queueEntry)

variable {messages : Assoc H256 Envelope} {queue : List (BitVec 32 × H256)}

theorem InQueue.queued {s : WhisperHost} (h : InQueue s.m_messages s.m_expiryQueue) : s.Queued := by
  constructor
  · intro k m hm
    have hperm : s.m_expiryQueue.Perm (queueEntry (k, m) :: (s.m_messages.remove k).map queueEntry) :=
      h.perm.trans ((Assoc.perm_cons_remove h.proper hm).map queueEntry)
    have hrest : ((s.m_messages.remove k).map queueEntry).filter (fun e => e.2 = k) = [] := by
      refine List.filter_eq_nil_iff.mpr fun e he => ?_
      obtain ⟨x, hx, rfl⟩ := List.mem_map.mp he
      have hne : x.1 ≠ k := by simpa using (List.mem_filter.mp hx).2
      exact fun hc => hne (of_decide_eq_true hc)
    have hfilter := hperm.filter fun e => e.2 = k
    rw [List.filter_cons, if_pos (by simp [queueEntry]), hrest] at hfilter
    exact List.perm_singleton.mp hfilter
  · intro t k hmem
    obtain ⟨e, he, heq⟩ := List.mem_map.mp (h.perm.mem_iff.mp hmem)
    obtain ⟨-, rfl⟩ := Prod.mk.inj heq
    exact ⟨e.2, Assoc.find_eq_some_of_mem h.proper he⟩

/-! ## A message more -/

theorem sorted_insertQueue (hq : SortedQueue queue) (e : BitVec 32 × H256) : SortedQueue (insertQueue queue e) := by
  induction queue with
  | nil => exact List.pairwise_singleton _ e
  | cons x queue ih =>
    obtain ⟨hx, hq⟩ := List.pairwise_cons.mp hq
    rw [insertQueue, List.orderedInsert_cons]
    split
    · rename_i hlt
      refine List.pairwise_cons.mpr ⟨fun y hy => ?_, List.pairwise_cons.mpr ⟨hx, hq⟩⟩
      rcases List.mem_cons.mp hy with rfl | hy
      · exact hlt.le
      · exact hlt.le.trans (hx y hy)
    · rename_i hle
      refine List.pairwise_cons.mpr ⟨fun y hy => ?_, ih hq⟩
      rcases List.mem_cons.mp ((List.perm_orderedInsert _ e queue).mem_iff.mp hy) with rfl | hy
      · exact Nat.le_of_not_lt hle
      · exact hx y hy

theorem InQueue.insert (h : InQueue messages queue) {k : H256} (hk : messages.find k = none) (m : Envelope) :
    InQueue (messages.set k m) (insertQueue queue (m.m_expiry, k)) := by
  refine ⟨h.proper.set k m, sorted_insertQueue h.sorted _, ?_⟩
  have hset : (messages.set k m).Perm ((k, m) :: messages) := by
    have hperm := Assoc.perm_cons_remove (h.proper.set k m) (k := k) (v := m) (by rw [Assoc.find_set, if_pos rfl])
    rwa [Assoc.remove_set h.proper, Assoc.remove_eq_self hk] at hperm
  exact (List.perm_orderedInsert _ _ queue).trans ((h.perm.cons _).trans (hset.map queueEntry).symm)

/-! ## The cleanup -/

/-- The cleanup leaves the messages that have not expired, with their entries. -/
theorem InQueue.cleanupLoop (h : InQueue messages queue) (now : Nat) :
    InQueue (cleanupLoop now queue messages).2 (cleanupLoop now queue messages).1 ∧
      ∀ e ∈ (cleanupLoop now queue messages).2, now < e.2.m_expiry.toNat := by
  induction queue generalizing messages with
  | nil =>
    have hempty : messages = [] := List.map_eq_nil_iff.mp (List.nil_perm.mp h.perm)
    subst hempty
    exact ⟨h, fun e he => absurd he List.not_mem_nil⟩
  | cons x queue ih =>
    obtain ⟨hx, hq⟩ := List.pairwise_cons.mp h.sorted
    rw [WhisperHost.cleanupLoop]
    by_cases hnow : x.1.toNat ≤ now
    · rw [if_pos hnow]
      refine ih ⟨h.proper.remove x.2, hq, ?_⟩
      obtain ⟨e, he, heq⟩ := List.mem_map.mp (h.perm.mem_iff.mp List.mem_cons_self)
      subst heq
      have hperm := h.perm.trans ((Assoc.perm_cons_remove h.proper (Assoc.find_eq_some_of_mem h.proper he)).map queueEntry)
      exact (List.perm_cons _).mp hperm
    · rw [if_neg hnow]
      refine ⟨h, fun e he => ?_⟩
      rcases List.mem_cons.mp (h.perm.mem_iff.mpr (List.mem_map_of_mem he)) with heq | hmem
      · subst heq
        exact Nat.lt_of_not_le hnow
      · exact lt_of_lt_of_le (Nat.lt_of_not_le hnow) (hx _ hmem)

/-! ## The start -/

/-- An entry of the database with an envelope that has the hash of its key and has not expired. -/
def Useful (sha3 : Bytes → H256) (now : Nat) (entry : Bytes × Bytes) : Prop :=
  ∃ e, (RLP.ofRef (.ofBytes entry.2) RLP.VeryStrict >>= Envelope.ofRLP) = .ok e ∧
    (if entry.1.length = 32 then H256.ofBytes entry.1 else H256.ofU256 0) = e.sha3 sha3 ∧ now % 2 ^ 32 < e.m_expiry.toNat

variable {sha3 : Bytes → H256} {now : Nat}

theorem stored_eq_none_iff {entry : Bytes × Bytes} : stored sha3 now entry = none ↔ ¬ Useful sha3 now entry := by
  unfold stored Useful
  cases RLP.ofRef (.ofBytes entry.2) RLP.VeryStrict >>= Envelope.ofRLP with
  | error _ => simp
  | ok e => simp

theorem set_ne_nil {κ β : Type} [DecidableEq κ] (l : Assoc κ β) (k : κ) (v : β) : l.set k v ≠ [] := by
  cases l with
  | nil => exact List.cons_ne_nil _ _
  | cons e l =>
    rw [Assoc.set]
    split <;> exact List.cons_ne_nil _ _

theorem proper_foldl_set {κ β : Type} [DecidableEq κ] {es : List (κ × β)} {l : Assoc κ β} (hl : l.Proper) :
    (es.foldl (fun l e => l.set e.1 e.2) l : Assoc κ β).Proper := by
  induction es generalizing l with
  | nil => exact hl
  | cons e es ih => exact ih (hl.set _ _)

theorem foldl_set_eq_nil {κ β : Type} [DecidableEq κ] {es : List (κ × β)} {l : Assoc κ β} :
    es.foldl (fun l e => l.set e.1 e.2) l = [] ↔ es = [] ∧ l = [] := by
  induction es generalizing l with
  | nil => simp
  | cons e es ih => simp [ih, set_ne_nil]

theorem stored_eq_some {entry : Bytes × Bytes} {e : Envelope}
    (hread : (RLP.ofRef (.ofBytes entry.2) RLP.VeryStrict >>= Envelope.ofRLP) = .ok e) (hkey : entry.1 = (e.sha3 sha3).bytes)
    (hnow : now % 2 ^ 32 < e.m_expiry.toNat) : stored sha3 now entry = some (e.sha3 sha3, e) := by
  have hhash : (if entry.1.length = 32 then H256.ofBytes entry.1 else H256.ofU256 0) = e.sha3 sha3 := by
    rw [hkey, if_pos (e.sha3 sha3).length_eq, H256.ofBytes_bytes]
  rw [stored, hread]
  simp only [hhash, hnow, and_self, if_true]

/-- Nothing is loaded exactly if no entry is useful. -/
theorem loadAllMessages_eq_nil_iff {db : List (Bytes × Bytes)} :
    loadAllMessages sha3 now db = [] ↔ ∀ entry ∈ db, ¬ Useful sha3 now entry := by
  rw [loadAllMessages, foldl_set_eq_nil, and_iff_left rfl, List.filterMap_eq_nil_iff]
  exact forall₂_congr fun entry _ => stored_eq_none_iff

/-- A host that starts has what was loaded, and an empty queue. -/
theorem new_eq (sha3 : Bytes → H256) (now : Nat) (store : Bool) (db : Option (List (Bytes × Bytes))) : (new sha3 store db now).m_expiryQueue = [] ∧
    (new sha3 store db now).m_messages.Proper ∧
      ((new sha3 store db now).m_messages = [] ↔ (store = true → ∀ l, db = some l → ∀ entry ∈ l, ¬ Useful sha3 now entry)) := by
  unfold new loadMessagesFromBD
  cases store with
  | false => exact ⟨rfl, List.nodup_nil, by simp⟩
  | true =>
    cases db with
    | none => exact ⟨rfl, List.nodup_nil, by simp⟩
    | some l =>
      refine ⟨rfl, proper_foldl_set List.nodup_nil, ?_⟩
      simp [loadAllMessages_eq_nil_iff]

/-- The queue is right at the start exactly if nothing was loaded. -/
theorem new_queued_iff (store : Bool) (db : Option (List (Bytes × Bytes))) : (new sha3 store db now).Queued ↔
    (store = true → ∀ l, db = some l → ∀ entry ∈ l, ¬ Useful sha3 now entry) := by
  obtain ⟨hqueue, hproper, hnil⟩ := new_eq sha3 now store db
  rw [← hnil]
  constructor
  · intro hq
    cases hm : (new sha3 store db now).m_messages with
    | nil => rfl
    | cons e l =>
      have hentry := hq.entry e.1 e.2 (Assoc.find_eq_some_of_mem hproper (by rw [hm]; exact List.mem_cons_self))
      rw [hqueue] at hentry
      cases hentry
  · intro hm
    refine InQueue.queued ⟨hproper, ?_, ?_⟩
    · rw [hqueue]
      exact List.Pairwise.nil
    · rw [hqueue, hm]
      exact List.Perm.refl _

end WhisperHost

namespace HostOp

open WhisperHost

/-- A call keeps the queue that of the messages, and no message that has expired is left by a cleanup. -/
def KeepsQueue (sha3 : Bytes → H256) (s : WhisperHost) (op : HostOp) : Prop :=
  (op.next sha3 s).Queued ∧
    match op with
    | .cleanup utcTime => ∀ h m, (s.cleanup utcTime).m_messages.find h = some m → utcTime < m.m_expiry.toNat
    | _ => True

variable {sha3 : Bytes → H256} {s : WhisperHost}

/-- Watches come and go without the messages. -/
theorem uninstallWatch_messages (s : WhisperHost) (i : Nat) :
    (s.uninstallWatch i).m_messages = s.m_messages ∧ (s.uninstallWatch i).m_expiryQueue = s.m_expiryQueue := by
  unfold WhisperHost.uninstallWatch
  split
  · exact ⟨rfl, rfl⟩
  · dsimp only
    split <;> exact ⟨rfl, rfl⟩

theorem installWatch_messages (sha3 : Bytes → H256) (s : WhisperHost) (t : List Topic) : (s.installWatch sha3 t).2.m_messages = s.m_messages ∧
    (s.installWatch sha3 t).2.m_expiryQueue = s.m_expiryQueue := by
  unfold WhisperHost.installWatch
  dsimp only
  split <;> exact ⟨rfl, rfl⟩

theorem next_inQueue (h : InQueue s.m_messages s.m_expiryQueue) (op : HostOp) :
    InQueue (op.next sha3 s).m_messages (op.next sha3 s).m_expiryQueue := by
  cases op with
  | installWatch t =>
    obtain ⟨hm, hq⟩ := installWatch_messages sha3 s t
    rwa [next, hm, hq]
  | uninstallWatch i =>
    obtain ⟨hm, hq⟩ := uninstallWatch_messages s i
    rwa [next, hm, hq]
  | inject utcTime m =>
    rw [next]
    cases hm : m.isExpired utcTime with
    | true => rwa [inject_of_expired hm]
    | false =>
      cases hfind : s.m_messages.find (m.sha3 sha3) with
      | some e => rwa [inject_of_seen hfind]
      | none =>
        rw [inject_of_new hm hfind]
        exact h.insert hfind m
  | cleanup utcTime => exact (h.cleanupLoop utcTime).1

theorem keepsQueue (h : InQueue s.m_messages s.m_expiryQueue) (op : HostOp) : op.KeepsQueue sha3 s := by
  refine ⟨(next_inQueue h op).queued, ?_⟩
  cases op with
  | cleanup utcTime => exact fun k m hm => (h.cleanupLoop utcTime).2 (k, m) (Assoc.mem_of_find_eq_some hm)
  | installWatch t => trivial
  | uninstallWatch i => trivial
  | inject utcTime m => trivial

/-! ## Messages outside of the queue -/

/-- The cleanup leaves a message that the queue does not name. -/
theorem find_cleanupLoop (messages : Assoc H256 Envelope) {queue : List (BitVec 32 × H256)} {k : H256}
    (hq : ∀ e ∈ queue, e.2 ≠ k) (now : Nat) : (cleanupLoop now queue messages).2.find k = messages.find k ∧
      ∀ e ∈ (cleanupLoop now queue messages).1, e.2 ≠ k := by
  induction queue generalizing messages with
  | nil => exact ⟨rfl, hq⟩
  | cons x queue ih =>
    obtain ⟨hx, hq⟩ := List.forall_mem_cons.mp hq
    rw [cleanupLoop]
    split
    · obtain ⟨hfind, hrest⟩ := ih (messages.remove x.2) hq
      rw [hfind, Assoc.find_remove, if_neg (Ne.symm hx)]
      exact ⟨rfl, hrest⟩
    · exact ⟨rfl, List.forall_mem_cons.mpr ⟨hx, hq⟩⟩

/-- A message that the queue does not name stays, and is not named. -/
theorem next_outside {k : H256} {m : Envelope} (hm : s.m_messages.find k = some m) (hq : ∀ e ∈ s.m_expiryQueue, e.2 ≠ k) (op : HostOp) :
    (op.next sha3 s).m_messages.find k = some m ∧ ∀ e ∈ (op.next sha3 s).m_expiryQueue, e.2 ≠ k := by
  cases op with
  | installWatch t =>
    obtain ⟨hm', hq'⟩ := installWatch_messages sha3 s t
    rw [next, hm', hq']
    exact ⟨hm, hq⟩
  | uninstallWatch i =>
    obtain ⟨hm', hq'⟩ := uninstallWatch_messages s i
    rw [next, hm', hq']
    exact ⟨hm, hq⟩
  | inject utcTime x =>
    rw [next]
    cases hx : x.isExpired utcTime with
    | true => rw [inject_of_expired hx]; exact ⟨hm, hq⟩
    | false =>
      cases hfind : s.m_messages.find (x.sha3 sha3) with
      | some e => rw [inject_of_seen hfind]; exact ⟨hm, hq⟩
      | none =>
        have hne : k ≠ x.sha3 sha3 := by
          rintro rfl
          exact nomatch hfind.symm.trans hm
        rw [inject_of_new hx hfind]
        refine ⟨by rw [Assoc.find_set, if_neg hne, hm], fun e he => ?_⟩
        rcases List.mem_cons.mp ((List.perm_orderedInsert _ _ s.m_expiryQueue).mem_iff.mp he) with rfl | he
        · exact Ne.symm hne
        · exact hq e he
  | cleanup utcTime =>
    obtain ⟨hfind, hrest⟩ := find_cleanupLoop s.m_messages hq utcTime
    exact ⟨hfind.trans hm, hrest⟩

end HostOp

end Shh

end Webthree
