import Webthree.Core.HeaderRLP
import Webthree.Lemmas.RlpConvert

/-!
# Fields of a list, on its items

A field that is read as a number or a hash is the encoding of that numberItem or hash, and fields that are put on a fresh stream are
read from what the stream holds.
-/

namespace Webthree

/-- A number, as an item. -/
def numberItem (i : Nat) : Bytes := Item.encodeData (toBigEndian i)

/-- The bytes of a list of items. -/
def wire (cs : List Bytes) : Bytes := Item.header 0xc0 cs.flatten.length ++ cs.flatten

namespace RLP

/-! ## Single items -/

theorem encodeAll_data (bs : List Bytes) : Item.encodeAll (bs.map Item.data) = (bs.map Item.encodeData).flatten := by
  induction bs with
  | nil => simp
  | cons b bs ih => simp [ih]

theorem encodeData_ne_nil (b : Bytes) : Item.encodeData b ≠ [] := by
  rcases encodeData_cases b with ⟨x, -, -, he⟩ | ⟨he, -⟩
  · rw [he]
    exact List.cons_ne_nil _ _
  · rw [he, Item.header]
    split <;> simp

/-- An item is at least as long as its string, and at most nine bytes longer. -/
theorem length_encodeData (b : Bytes) : b.length ≤ (Item.encodeData b).length ∧
    (b.length < 2 ^ 64 → (Item.encodeData b).length ≤ b.length + 9) := by
  rcases encodeData_cases b with ⟨x, rfl, -, he⟩ | ⟨he, -⟩
  · rw [he]
    exact ⟨Nat.le_refl _, fun _ => Nat.le_add_right _ _⟩
  · rw [he, List.length_append]
    refine ⟨Nat.le_add_left _ _, fun hb => ?_⟩
    have h8 := (bytesRequired_le_iff b.length 8).mpr hb
    rw [Item.header]
    split
    · simp only [List.length_singleton]
      omega
    · simp only [List.length_cons, length_toBigEndian]
      omega

theorem length_numberItem {i : Nat} (hi : i < 256 ^ 32) : (numberItem i).length ≤ 41 := by
  have hb := (bytesRequired_le_iff i 32).mpr hi
  rw [← length_toBigEndian] at hb
  have := (length_encodeData (toBigEndian i)).2 (by omega)
  unfold numberItem
  omega

/-- A string is an item of its own in a list. -/
theorem item_encodeData {b : Bytes} (hb : Small b) :
    Item.encodeData b ≠ [] ∧ Framed (Item.encodeData b) (Item.encodeData b).length :=
  ⟨encodeData_ne_nil b, framed_encodeData hb⟩

theorem item_numberItem {i : Nat} (hi : i < 256 ^ 32) : numberItem i ≠ [] ∧ Framed (numberItem i) (numberItem i).length := by
  have hb := (bytesRequired_le_iff i 32).mpr hi
  rw [← length_toBigEndian] at hb
  exact item_encodeData (by unfold Small; omega)

/-- The items that `isEmpty` accepts: the empty string and the empty list. -/
theorem isEmpty_iff {r : RLP} (hv : r.m_data.Valid) (hf : Framed r.m_data.toBytes r.m_data.toBytes.length) :
    r.isEmpty = true ↔ r.m_data.toBytes = [0x80] ∨ r.m_data.toBytes = [0xc0] := by
  constructor
  · intro he
    rw [RLP.isEmpty, Bool.and_eq_true, Bool.or_eq_true, decide_eq_true_eq, decide_eq_true_eq, c_rlpDataImmLenStart_eq,
      c_rlpListStart_eq] at he
    obtain ⟨hnull, hfirst⟩ := he
    rcases hf.cases with hd | ⟨b, hb, hd⟩ | ⟨p, hp, hd⟩
    · rw [(null_queries hv hd).1] at hnull
      cases hnull
    · left
      rcases encodeData_cases b with ⟨x, rfl, hx, he⟩ | ⟨he, hs⟩
      · rw [get_zero (hd.trans he)] at hfirst
        omega
      · cases b with
        | nil => exact hd
        | cons y t =>
          rcases (encodeData_headed hb hs).first with ⟨hlt, hd', hn⟩ | ⟨hge, h1, h8, hd', hn⟩
          · rw [get_zero (hd.trans hd'), hn, List.length_cons] at hfirst
            rw [List.length_cons] at hlt
            omega
          · rw [get_zero (hd.trans hd'), hn] at hfirst
            omega
    · right
      cases p with
      | nil => exact hd
      | cons y t =>
        rcases (list_headed hp).first with ⟨hlt, hd', hn⟩ | ⟨hge, h1, h8, hd', hn⟩
        · rw [get_zero (hd.trans hd'), hn, List.length_cons] at hfirst
          omega
        · rw [get_zero (hd.trans hd'), hn] at hfirst
          omega
  · intro hd
    rw [RLP.isEmpty]
    rcases hd with hd | hd
    · rw [not_isNull hv hd, get_zero hd]
      rfl
    · rw [not_isNull hv hd, get_zero hd]
      rfl

/-! ## Lists on the wire -/

/-- A list starts with a byte from `0xc0` on. -/
theorem wire_cons {cs : List Bytes} (h : cs.flatten.length < 2 ^ 64) : ∃ x t, wire cs = x :: t ∧ 0xc0 ≤ x.toNat := by
  have h8 := (bytesRequired_le_iff cs.flatten.length 8).mpr h
  rw [wire, Item.header]
  split
  · exact ⟨_, _, rfl, by rw [UInt8.toNat_ofNat', Nat.mod_eq_of_lt (by omega)]; omega⟩
  · exact ⟨_, _, rfl, by rw [UInt8.toNat_ofNat', Nat.mod_eq_of_lt (by omega)]; omega⟩

/-- Two lists with the same bytes have the same payload. -/
theorem flatten_of_wire {cs cs' : List Bytes} (hc : cs.flatten.length < 2 ^ 64) (hc' : cs'.flatten.length < 2 ^ 64)
    (h : wire cs = wire cs') : cs.flatten = cs'.flatten := by
  have h8 := (bytesRequired_le_iff cs.flatten.length 8).mpr hc
  have h8' := (bytesRequired_le_iff cs'.flatten.length 8).mpr hc'
  have hpos : ∀ {n : Nat}, ¬ n < 56 → 0 < bytesRequired n := fun hn => by
    rw [bytesRequired_pos (by omega)]
    exact Nat.succ_pos _
  have hbyte : ∀ {n m : Nat}, n < 256 → m < 256 → UInt8.ofNat n = UInt8.ofNat m → n = m := fun hn hm hnm => by
    have := congrArg UInt8.toNat hnm
    rwa [UInt8.toNat_ofNat', UInt8.toNat_ofNat', Nat.mod_eq_of_lt hn, Nat.mod_eq_of_lt hm] at this
  rw [wire, wire, Item.header, Item.header] at h
  split at h
  · split at h
    · exact (List.cons.inj h).2
    · rename_i hn
      have := hpos hn
      have := hbyte (by omega) (by omega) (List.cons.inj h).1
      omega
  · rename_i hn
    have := hpos hn
    split at h
    · have := hbyte (by omega) (by omega) (List.cons.inj h).1
      omega
    · obtain ⟨hfirst, hrest⟩ := List.cons.inj h
      have := hbyte (by omega) (by omega) hfirst
      exact (List.append_inj hrest (by rw [length_toBigEndian, length_toBigEndian]; omega)).2

/-- What `toBytes` makes of an item is as small as the item. -/
theorem small_of_toBytes {r : RLP} (hv : r.m_data.Valid) (hf : Framed r.m_data.toBytes r.m_data.toBytes.length) {b : Bytes}
    (h : r.toBytes = .ok b) : Small b := by
  by_cases hdata : r.isData = true
  · obtain ⟨d, hd, hrd⟩ := string_of_isData hv hf hdata
    rw [toBytes_string hv hd hrd] at h
    cases h
    exact hd
  · rw [toBytes_of_not_data (by simpa using hdata)] at h
    cases h
    simp [Small]

section

variable {d : BytesConstRef} (hv : d.Valid)

include hv

theorem valid_cropped (b n : Nat) : (d.cropped b n).Valid := by
  unfold BytesConstRef.cropped
  split
  case isTrue hbn => exact (hv.sub hbn.2.2).1
  case isFalse => simp [BytesConstRef.Valid, BytesConstRef.null]

theorem valid_croppedFrom (b : Nat) : (d.croppedFrom b).Valid := by
  by_cases hb : b ≤ d.m_count
  · exact (hv.croppedFrom hb).1
  · rw [BytesConstRef.croppedFrom, if_neg hb]
    simp [BytesConstRef.Valid, BytesConstRef.null]

/-- The first part of a reference, as long as is encoded in it, is one item. -/
theorem framed_cropped {k : Nat} (hk : sizeAsEncoded d = .ok k) :
    Framed (d.cropped 0 k).toBytes (d.cropped 0 k).toBytes.length := by
  have hf := (sizeAsEncoded_ok_iff hv k).mp hk
  have hle := hf.le_length
  rw [hv.length_toBytes] at hle
  have hsub := (hv.sub (b := 0) (n := k) (by omega)).2
  rw [Nat.add_zero, ← cropped_framed hv hf, List.drop_zero] at hsub
  rw [hsub, List.length_take, hv.length_toBytes, Nat.min_eq_left hle]
  exact hf.take

theorem framed_of_indexLoop {n done : Nat} {item x : BytesConstRef} (hitem : item.Valid)
    (hf : Framed item.toBytes item.toBytes.length) (h : indexLoop d n item done = .ok x) :
    x.Valid ∧ Framed x.toBytes x.toBytes.length := by
  induction n generalizing item done with
  | zero =>
    cases h
    exact ⟨hitem, hf⟩
  | succ n ih =>
    rw [indexLoop_succ] at h
    split at h
    · cases h
      exact ⟨hitem, hf⟩
    · obtain ⟨k, hk, h⟩ := bind_eq_ok.mp h
      exact ih (valid_cropped (valid_croppedFrom hv done) 0 k) (framed_cropped (valid_croppedFrom hv done) hk) h

end

/-- What `operator[]` finds is one item. -/
theorem framed_of_index {r : RLP} (hv : r.m_data.Valid) {i : Nat} {x : RLP} (h : r.index i = .ok x) :
    x.m_data.Valid ∧ Framed x.m_data.toBytes x.m_data.toBytes.length := by
  obtain ⟨pl, hpl, h⟩ := bind_eq_ok.mp h
  obtain ⟨lastEnd, hend, h⟩ := bind_eq_ok.mp h
  obtain ⟨item, hitem, h⟩ := bind_eq_ok.mp h
  have hplv : pl.Valid := by
    obtain ⟨l, -, hpl⟩ := bind_eq_ok.mp hpl
    split at hpl
    · cases hpl
    · cases hpl
      exact valid_cropped hv _ _
  obtain ⟨hxv, hxf⟩ := framed_of_indexLoop hplv (valid_cropped hplv 0 lastEnd) (framed_cropped hplv hend) hitem
  rw [ofRef_of_framed hxv (by rw [← hxv.length_toBytes]; exact hxf)] at h
  cases h
  exact ⟨hxv, hxf⟩

/-! ## Fields of a list of items -/

section

variable {r : RLP} {cs : List Bytes}

/-- A field that is there is one of the items. -/
theorem lt_length_of_getD {i : Nat} (hne : cs.getD i [] ≠ []) : i < cs.length := by
  by_contra hi
  exact hne (by rw [List.getD_eq_getElem?_getD, List.getElem?_eq_none (Nat.le_of_not_lt hi)]; rfl)

/-- The first items, one by one. -/
theorem take_eq_map_getD {n : Nat} (hn : n ≤ cs.length) : cs.take n = (List.range n).map fun i => cs.getD i [] := by
  refine List.ext_getElem? fun i => ?_
  rw [List.getElem?_take, List.getElem?_map]
  by_cases hi : i < n
  · rw [if_pos hi, List.getElem?_range hi, Option.map_some, List.getD_eq_getElem?_getD,
      List.getElem?_eq_getElem (by omega : i < cs.length), Option.getD_some]
  · rw [if_neg hi, List.getElem?_eq_none (by rw [List.length_range]; omega), Option.map_none]

variable (h : ListOf r cs)

include h

theorem ListOf.item_ok (i : Nat) : ∃ x, r.item i = .ok x ∧ x.m_data.Valid ∧ x.m_data.toBytes = cs.getD i [] ∧
    Framed x.m_data.toBytes x.m_data.toBytes.length := by
  obtain ⟨x, hx, hv, hb, hf⟩ := h.index i
  exact ⟨x, item_eq_ok.mpr hx, hv, hb, hf⟩

/-- A field that is read as a number is the encoding of the number. -/
theorem ListOf.intField_ok_iff {i k n : Nat} (hk : k < 2 ^ 32) : r.intField i k = .ok n ↔ cs.getD i [] = numberItem n ∧ n < 256 ^ k := by
  obtain ⟨x, hx, hv, hb, hf⟩ := h.item_ok i
  rw [intField, hx, ok_bind, inField_eq_ok, liftRlp_eq_ok, toInt_ok_iff hv hf hk, hb]
  rfl

theorem ListOf.hashField_ok_iff {i n : Nat} (hn : n < 2 ^ 32) {b : Bytes} :
    r.hashField i n = .ok b ↔ cs.getD i [] = Item.encodeData b ∧ b.length = n := by
  obtain ⟨x, hx, hv, hb, hf⟩ := h.item_ok i
  rw [hashField, hx, ok_bind, inField_eq_ok, liftRlp_eq_ok, toHash_ok_iff hv hf hn, hb]

end

/-- The bytes of a list of items are read as that list. -/
theorem listOf_wire {cs : List Bytes} (hcs : ∀ c ∈ cs, c ≠ [] ∧ Framed c c.length) (hsmall : Small cs.flatten) :
    ofRef (.ofBytes (wire cs)) VeryStrict = .ok ⟨.ofBytes (wire cs)⟩ ∧ ListOf ⟨.ofBytes (wire cs)⟩ cs :=
  ⟨ofRef_ofBytes_ok_iff.mpr ⟨rfl, framed_list hsmall⟩,
    listOf_of_bytes (BytesConstRef.valid_ofBytes _) hcs hsmall (BytesConstRef.toBytes_ofBytes _)⟩

end RLP

namespace RLPStream

theorem put_append (s : RLPStream) (fs gs : List (RLPStream → Except RLPError RLPStream)) :
    s.put (fs ++ gs) = s.put fs >>= fun s => s.put gs := List.foldlM_append

theorem out_eq (b : Bytes) : out ⟨b, []⟩ = .ok b := if_pos rfl

end RLPStream

end Webthree
