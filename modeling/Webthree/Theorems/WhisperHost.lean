import Webthree.Lemmas.Envelope
import Webthree.Lemmas.WhisperQueue

/-!
# The whisper host

When messages come to the watches that want them, and when they go.
-/

namespace Webthree

namespace Shh

namespace WhisperHost

variable (sha3 : Bytes → H256)

/-- A host that starts has no watches. -/
theorem new_watches (store : Bool) (db : Option (List (Bytes × Bytes))) (now : Nat) :
    (new sha3 store db now).Basic sha3 ∧ (new sha3 store db now).Consistent := by
  have hsame : (new sha3 store db now).m_filters = [] ∧ (new sha3 store db now).m_watches = [] ∧ (new sha3 store db now).m_bloom = {} := by
    unfold new loadMessagesFromBD
    split
    · split <;> exact ⟨rfl, rfl, rfl⟩
    · exact ⟨rfl, rfl, rfl⟩
  obtain ⟨hfilters, hwatches, hbloom⟩ := hsame
  have hbasic : (new sha3 store db now).Basic sha3 := by
    refine ⟨?_, ?_, ?_⟩
    · rw [hfilters]
      exact List.nodup_nil
    · rw [hwatches]
      exact List.nodup_nil
    · rw [hfilters]
      exact fun _ _ h => nomatch h
  refine ⟨hbasic, Consistent.of_counts hbasic ?_ ?_ ?_⟩
  · rw [hwatches]
    exact fun _ _ h => nomatch h
  · rw [hfilters]
    exact fun _ _ h => nomatch h
  · have hzero : (fun b : Fin 512 => (new sha3 store db now).setters b) = fun _ => 0 := funext fun b => by
      rw [setters, hwatches, Assoc.uses_nil]
    rw [hzero, hbloom]
    exact TopicBloomFilter.Counts.init

end WhisperHost

namespace HostOp

open WhisperHost TopicBloomFilterHash

/-- All along a run the calls do what they are for exactly if each is allowed. -/
theorem run_right_iff (sha3 : Bytes → H256) (store : Bool) (db : Option (List (Bytes × Bytes))) (now : Nat) (ops : List HostOp) :
    AllowedFrom (next sha3) (Right sha3) (new sha3 store db now) ops ↔
      AllowedFrom (next sha3) (Allowed sha3) (new sha3 store db now) ops := by
  have hkeep : ∀ (s : WhisperHost) (op : HostOp), s.Basic sha3 ∧ s.Consistent → op.Right sha3 s →
      (op.next sha3 s).Basic sha3 ∧ (op.next sha3 s).Consistent :=
    fun s op hs hop => ⟨next_basic hs.1 op, hop.1⟩
  exact allowedFrom_congr (fun s op hs => right_iff hs.1 hs.2 op) hkeep (new_watches sha3 store db now)

namespace HostSample

/-- One hash for everything. -/
def hash (_ : Bytes) : H256 := H256.ofU256 2

/-- A message about one topic. -/
def message : Envelope := { m_expiry := 1, m_ttl := 1, m_topic := [0], m_data := [], m_nonce := 0 }

/-- The host with a watch without topics. -/
def watching : WhisperHost :=
  { m_filters := [(hash [], installed hash [])], m_watches := [(0, { id := hash [] })], m_bloom := (({} : TopicBloomFilter).addRaw 0).1 }

theorem next_installWatch : next hash (new hash false none 0) (.installWatch []) = watching := by
  have hroom : (new hash false none 0).m_bloom.Room (TopicFilter.ofTopics hash []).exportBloom := fun b hb =>
    absurd hb (by rw [show (TopicFilter.ofTopics hash []).exportBloom = 0 from rfl, isBitSet_zero]; exact Bool.false_ne_true)
  exact congrArg Prod.snd (installWatch_of_room hroom)

end HostSample

open HostSample in
/-- A watch for all messages, without topics, does not get a message that no other watch is for. -/
theorem not_run_right : ¬ AllowedFrom (next hash) (Right hash) (new hash false none 0) [.installWatch [], .inject 0 message] := by
  rintro ⟨⟨hc, -⟩, hright, -⟩
  have hs := next_basic (new_watches hash false none 0).1 (.installWatch [])
  rw [next_installWatch] at hc hs hright
  have hwanted : watching.Matches message { id := hash [] } := ⟨installed hash [], rfl, rfl⟩
  obtain ⟨-, hnamed | hgate⟩ := (inject_right_iff hs hc 0 message).mp hright rfl ⟨0, { id := hash [] }, rfl, hwanted⟩
  · obtain ⟨i, w, f, -, hf, -, t, ht, -⟩ := hnamed
    obtain rfl : installed hash [] = f := by
      have hmem := Assoc.mem_of_find_eq_some hf
      exact (Prod.mk.inj (List.mem_singleton.mp hmem)).2.symm
    exact absurd ht List.not_mem_nil
  · have hbits : watching.m_bloom.bits = 0 := BitVec.or_self
    have hset : isBitSet (TopicBloomFilter.bloom 0) 0 = true := by decide +kernel
    rw [hbits] at hgate
    obtain ⟨t, ht, hcontains⟩ := List.any_eq_true.mp hgate
    obtain rfl := List.mem_singleton.mp ht
    exact Bool.false_ne_true ((isBitSet_zero 0).symm.trans (contains_iff.mp hcontains 0 hset))

/-! ## Expiry -/

/-- All along a run the queue is that of the messages, and a cleanup leaves none that has expired, exactly if no entry of the database
was useful at the start. -/
theorem run_keepsQueue_iff (sha3 : Bytes → H256) (store : Bool) (db : Option (List (Bytes × Bytes))) (now : Nat) (ops : List HostOp) :
    ((new sha3 store db now).Queued ∧ AllowedFrom (next sha3) (KeepsQueue sha3) (new sha3 store db now) ops) ↔
      (store = true → ∀ l, db = some l → ∀ entry ∈ l, ¬ Useful sha3 now entry) := by
  rw [← new_queued_iff]
  refine and_iff_left_of_imp fun hq => ?_
  obtain ⟨hqueue, hproper, hnil⟩ := new_eq sha3 now store db
  have hempty := hnil.mpr ((new_queued_iff store db).mp hq)
  have hstart : InQueue (new sha3 store db now).m_messages (new sha3 store db now).m_expiryQueue := by
    refine ⟨hproper, ?_, ?_⟩
    · rw [hqueue]
      exact List.Pairwise.nil
    · rw [hqueue, hempty]
      exact List.Perm.refl _
  exact allowedFrom_of_invariant (fun s => InQueue s.m_messages s.m_expiryQueue) (fun _ op hs => keepsQueue hs op)
    (fun _ op hs => next_inQueue hs op) hstart

/-- What was loaded at the start stays, whatever is called. -/
theorem loaded_stays (sha3 : Bytes → H256) (store : Bool) (db : Option (List (Bytes × Bytes))) (now : Nat) {k : H256} {m : Envelope}
    (hm : (new sha3 store db now).m_messages.find k = some m) (ops : List HostOp) :
    (ops.foldl (next sha3) (new sha3 store db now)).m_messages.find k = some m := by
  have hrun : ∀ (s : WhisperHost), s.m_messages.find k = some m → (∀ e ∈ s.m_expiryQueue, e.2 ≠ k) →
      (ops.foldl (next sha3) s).m_messages.find k = some m := by
    induction ops with
    | nil => exact fun s hm _ => hm
    | cons op ops ih =>
      intro s hm hq
      obtain ⟨hm', hq'⟩ := next_outside hm hq op
      exact ih _ hm' hq'
  refine hrun _ hm ?_
  rw [(new_eq sha3 now store db).1]
  exact fun e he => absurd he List.not_mem_nil

open HostSample in
/-- A message that was saved is loaded without an entry in the queue, and stays when it has expired. -/
theorem not_run_keepsQueue :
    ∃ s, s = new hash true (some [((message.sha3 hash).bytes, message.item.encode)]) 0 ∧ ¬ s.Queued ∧
      message.m_expiry.toNat ≤ 1 ∧ (s.cleanup 1).m_messages.find (message.sha3 hash) = some message := by
  have hread := Envelope.ofRLP_encode (e := message) (show List.length _ < _ by decide)
  have hstored : stored hash 0 ((message.sha3 hash).bytes, message.item.encode) = some (message.sha3 hash, message) :=
    stored_eq_some hread rfl (by decide)
  have hm : (new hash true (some [((message.sha3 hash).bytes, message.item.encode)]) 0).m_messages.find (message.sha3 hash) =
      some message := by
    simp [new, loadMessagesFromBD, loadAllMessages, hstored, Assoc.set, Assoc.find]
  refine ⟨_, rfl, fun hq => ?_, by decide, loaded_stays hash true _ 0 hm [.cleanup 1]⟩
  exact (new_queued_iff _ _).mp hq rfl _ rfl _ List.mem_cons_self ⟨message, hread, rfl, by decide⟩

end HostOp

end Shh

end Webthree
