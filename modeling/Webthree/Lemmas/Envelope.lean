import Webthree.Lemmas.Fields
import Webthree.Whisper.WhisperHost

/-!
# Envelopes in the database

An envelope is read back from the bytes that it is written as.
-/

namespace Webthree

namespace Shh

namespace Envelope

open RLP

/-- The items of an envelope. -/
def items (e : Envelope) : List Bytes :=
  [numberItem e.m_expiry.toNat, numberItem e.m_ttl.toNat, wire (e.m_topic.map fun t => Item.encodeData (hashBytes 4 t)),
    Item.encodeData e.m_data, numberItem e.m_nonce.toNat]

/-- The bytes of an envelope are those of the list of its items. -/
theorem encode_item (e : Envelope) : e.item.encode = wire e.items := by
  have htopics : Item.encodeAll (e.m_topic.map topicItem) = (e.m_topic.map fun t => Item.encodeData (hashBytes 4 t)).flatten := by
    have h := encodeAll_data (e.m_topic.map (hashBytes 4))
    rwa [List.map_map, List.map_map] at h
  simp [item, items, wire, numberItem, htopics, c_rlpListStart_eq]

variable {r : RLP}

/-- A topic is read from its bytes. -/
theorem toHash_topic (hv : r.m_data.Valid) {t : AbridgedTopic} (hd : r.m_data.toBytes = Item.encodeData (hashBytes 4 t)) :
    r.toHash 4 LaissezFaire = .ok (hashBytes 4 t) := by
  have hlen : (hashBytes 4 t).length = 4 := length_hashBytes t
  obtain ⟨-, hdata, -, hgood, -, p, hp, hpb, hps, -⟩ := string_queries hv (by unfold RLP.Small; omega) hd
  rw [RLP.toHash, hgood, ok_bind, hp, ok_bind, hdata, hps, hpb, hlen]
  simp [hlen, List.take_of_length_le, pure_eq_ok]

/-- The topics are read from their list. -/
theorem toTopics_eq {ts : List AbridgedTopic} (h : ListOf r (ts.map fun t => Item.encodeData (hashBytes 4 t))) :
    toTopics r = .ok ts := by
  have hread : ∀ i ∈ List.range ts.length, (do
      return hashOfBytes 32 (← (← r.index i).toHash 4 LaissezFaire) : Except RLPError AbridgedTopic) = .ok (ts.getD i 0) := by
    intro i hi
    have hi := List.mem_range.mp hi
    obtain ⟨x, hx, hv, hb, -⟩ := h.index i
    rw [List.getD_eq_getElem?_getD, List.getElem?_map, List.getElem?_eq_getElem hi, Option.map_some, Option.getD_some] at hb
    rw [hx, ok_bind, toHash_topic hv hb, ok_bind, hashOfBytes_hashBytes (n := 4) rfl, List.getD_eq_getElem?_getD,
      List.getElem?_eq_getElem hi]
    rfl
  have hall : (List.range ts.length).map (fun i => ts.getD i 0) = ts :=
    List.ext_getElem (by simp) fun i hi _ => by simp [List.getD_eq_getElem?_getD, List.getElem?_eq_getElem (by simpa using hi)]
  rw [toTopics, if_pos h.isList, h.itemCount, ok_bind, List.length_map, mapM_eq_ok hread, hall]

theorem length_le_wire (cs : List Bytes) : cs.flatten.length ≤ (wire cs).length := by
  rw [wire, List.length_append]
  exact Nat.le_add_left _ _

/-- An envelope is read back from its bytes. -/
theorem ofRLP_encode {e : Envelope} (h : RLP.Small e.item.encode) :
    (ofRef (.ofBytes e.item.encode) VeryStrict >>= ofRLP) = .ok e := by
  rw [encode_item] at h ⊢
  have hexpiry : e.m_expiry.toNat < 256 ^ 4 := e.m_expiry.isLt
  have httl : e.m_ttl.toNat < 256 ^ 4 := e.m_ttl.isLt
  have hnonce : e.m_nonce.toNat < 256 ^ 32 := e.m_nonce.isLt
  have hitem : ∀ c ∈ e.items, c.length < 2 ^ 64 - 1 - 0x100 := fun c hc => by
    have h1 := (List.sublist_flatten_of_mem hc).length_le
    have h2 := length_le_wire e.items
    unfold RLP.Small at h
    omega
  have htopics : RLP.Small (e.m_topic.map fun t => Item.encodeData (hashBytes 4 t)).flatten :=
    lt_of_le_of_lt (length_le_wire _) (hitem _ (by simp [items]))
  have hdata : RLP.Small e.m_data := lt_of_le_of_lt (length_encodeData e.m_data).1 (hitem _ (by simp [items]))
  have htopicItems : ∀ c ∈ e.m_topic.map fun t => Item.encodeData (hashBytes 4 t), c ≠ [] ∧ Framed c c.length := by
    intro c hc
    obtain ⟨t, -, rfl⟩ := List.mem_map.mp hc
    exact item_encodeData (by rw [RLP.Small, length_hashBytes]; decide)
  have hitems : ∀ c ∈ e.items, c ≠ [] ∧ Framed c c.length := by
    intro c hc
    simp only [items, List.mem_cons, List.not_mem_nil, or_false] at hc
    rcases hc with rfl | rfl | rfl | rfl | rfl
    · exact item_numberItem (lt_of_lt_of_le hexpiry (Nat.pow_le_pow_right (by decide) (by decide)))
    · exact item_numberItem (lt_of_lt_of_le httl (Nat.pow_le_pow_right (by decide) (by decide)))
    · obtain ⟨x, t, hcons, -⟩ := wire_cons (lt_of_lt_of_le htopics (by decide))
      exact ⟨by rw [hcons]; exact List.cons_ne_nil x t, framed_list htopics⟩
    · exact item_encodeData hdata
    · exact item_numberItem hnonce
  obtain ⟨hread, hlist⟩ := listOf_wire hitems (lt_of_le_of_lt (length_le_wire _) h)
  obtain ⟨x0, hx0, hv0, hb0, hf0⟩ := hlist.index 0
  obtain ⟨x1, hx1, hv1, hb1, hf1⟩ := hlist.index 1
  obtain ⟨x2, hx2, hv2, hb2, -⟩ := hlist.index 2
  obtain ⟨x3, hx3, hv3, hb3, -⟩ := hlist.index 3
  obtain ⟨x4, hx4, hv4, hb4, hf4⟩ := hlist.index 4
  rw [hread, ok_bind, ofRLP, hx0, ok_bind, (toInt_ok_iff hv0 hf0 (by decide) e.m_expiry.toNat).mpr ⟨hb0, hexpiry⟩, ok_bind, hx1, ok_bind,
    (toInt_ok_iff hv1 hf1 (by decide) e.m_ttl.toNat).mpr ⟨hb1, httl⟩, ok_bind, hx2, ok_bind,
    toTopics_eq (listOf_of_bytes hv2 htopicItems htopics hb2), ok_bind, hx3, ok_bind, toBytes_string hv3 hdata hb3, ok_bind, hx4, ok_bind,
    (toInt_ok_iff hv4 hf4 (by decide) e.m_nonce.toNat).mpr ⟨hb4, hnonce⟩, ok_bind]
  simp [pure_eq_ok]

end Envelope

end Shh

end Webthree
