import Webthree.Core.HeaderRLP
import Webthree.Lemmas.Fields
import Webthree.Lib.EState

/-!
# Headers, on their items

A header is written as the list of its thirteen basic items and its seal fields. What is read from a list determines the list, but
for the item of the extra data.
-/

namespace Webthree

open RLP

namespace BlockHeader

/-- The items in front of the extra data. -/
def typedItems (h : BlockHeader) : List Bytes :=
  [Item.encodeData h.parentHash.bytes, Item.encodeData h.sha3Uncles.bytes, Item.encodeData (hashBytes 20 h.author),
    Item.encodeData h.stateRoot.bytes, Item.encodeData h.transactionsRoot.bytes, Item.encodeData h.receiptsRoot.bytes,
    Item.encodeData (hashBytes 256 h.logBloom), numberItem h.difficulty.toNat, numberItem h.number.toNat, numberItem h.gasLimit.toNat,
    numberItem h.gasUsed.toNat, numberItem h.timestamp.toNat]

/-- The items of a header. -/
def items (h : BlockHeader) : List Bytes := h.typedItems ++ Item.encodeData h.extraData :: h.sealFields

/-! ## Writing -/

/-- The operations of `streamRLPFields`. -/
def operations (h : BlockHeader) : List (RLPStream → Except RLPError RLPStream) :=
  [(·.append h.parentHash.bytes), (·.append h.sha3Uncles.bytes), (·.append (hashBytes 20 h.author)), (·.append h.stateRoot.bytes),
    (·.append h.transactionsRoot.bytes), (·.append h.receiptsRoot.bytes), (·.append (hashBytes 256 h.logBloom)),
    (·.appendInt h.difficulty.toNat), (·.appendInt h.number.toNat), (·.appendInt h.gasLimit.toNat), (·.appendInt h.gasUsed.toNat),
    (·.appendInt h.timestamp.toNat), (·.append h.extraData)]

open RLPStream in
/-- Each operation puts one of the items. -/
theorem puts_items {h : BlockHeader} (hd : h.extraData.length < 2 ^ 64) :
    List.Forall₂ Puts (h.operations ++ h.sealFields.map fun f s => s.appendRaw f 1) h.items := by
  have hint : ∀ x : U256, Puts (appendInt · x.toNat) (numberItem x.toNat) := fun x => puts_appendInt x.isLt
  have hhash : ∀ x : H256, Puts (append · x.bytes) (Item.encodeData x.bytes) := fun x => puts_append (by rw [x.length_eq]; omega)
  have hseal : List.Forall₂ Puts (h.sealFields.map fun f s => s.appendRaw f 1) h.sealFields := by
    rw [List.forall₂_map_left_iff]
    exact List.forall₂_same.mpr fun f _ => puts_raw f
  have hbloom : Puts (append · (hashBytes 256 h.logBloom)) (Item.encodeData (hashBytes 256 h.logBloom)) :=
    puts_append (by rw [length_hashBytes]; omega)
  have hauthor : Puts (append · (hashBytes 20 h.author)) (Item.encodeData (hashBytes 20 h.author)) :=
    puts_append (by rw [length_hashBytes]; omega)
  unfold operations items typedItems
  exact .cons (hhash _) (.cons (hhash _) (.cons hauthor (.cons (hhash _) (.cons (hhash _) (.cons (hhash _) (.cons hbloom
    (.cons (hint _) (.cons (hint _) (.cons (hint _) (.cons (hint _) (.cons (hint _) (.cons (puts_append hd) hseal))))))))))))

/-- A header is written as the list of its items. -/
theorem rlp_ok_iff {h : BlockHeader} (hd : h.extraData.length < 2 ^ 64) (hseal : h.sealFields.length < 2 ^ 32) {b : Bytes} :
    h.rlp .WithSeal = .ok b ↔ h.items.flatten.length < 2 ^ 64 ∧ b = wire h.items := by
  have hput := fun s => RLPStream.put_list_ok_iff (puts_items hd) (by simp [operations]) (s := s)
  have hcount : (h.operations ++ h.sealFields.map fun f s => RLPStream.appendRaw s f 1).length = BasicFields + h.sealFields.length := by
    rw [List.length_append, List.length_map]
    rfl
  have hstream : h.streamRLP {} .WithSeal = (RLPStream.appendList {} (BasicFields + h.sealFields.length) >>= fun s =>
      s.put (h.operations ++ h.sealFields.map fun f s => RLPStream.appendRaw s f 1)) := by
    simp only [RLPStream.put_append]
    rw [streamRLP]
    simp only [streamSeal, if_pos hseal]
    rfl
  rw [hcount] at hput
  rw [rlp, hstream, bind_eq_ok]
  constructor
  · rintro ⟨s, hs, hb⟩
    obtain ⟨hlen, rfl⟩ := (hput s).mp hs
    rw [RLPStream.out_eq, Except.ok.injEq] at hb
    exact ⟨hlen, hb.symm⟩
  · rintro ⟨hlen, rfl⟩
    exact ⟨_, (hput _).mpr ⟨hlen, rfl⟩, RLPStream.out_eq _⟩

/-! ## Reading -/

section

variable {r : RLP} {cs : List Bytes} (h : ListOf r cs)

include h

/-- The seal fields are the items behind the basic ones. -/
theorem readSeal_ok_iff {l : List Bytes} : readSeal r = .ok l ↔ cs.length < 2 ^ 32 ∧ l = cs.drop BasicFields := by
  have hloop : (List.range' BasicFields (cs.length - BasicFields)).mapM (fun i => do
      let x ← r.inField 12 (liftRlp (r.index i))
      pure x.m_data.toBytes : Nat → Except Thrown Bytes) = .ok (cs.drop BasicFields) := by
    have hturn : ∀ i ∈ List.range' BasicFields (cs.length - BasicFields), (do
        let x ← r.inField 12 (liftRlp (r.index i))
        pure x.m_data.toBytes : Except Thrown Bytes) = .ok (cs.getD i []) := fun i _ => by
      obtain ⟨x, hx, -, hb, -⟩ := h.index i
      rw [inField_eq_ok.mpr (liftRlp_eq_ok.mpr hx), ok_bind, hb]
      rfl
    rw [mapM_eq_ok hturn]
    refine congrArg Except.ok (List.ext_getElem? fun i => ?_)
    rw [List.getElem?_map, List.getElem?_drop]
    by_cases hi : i < cs.length - BasicFields
    · rw [List.getElem?_range' hi, Option.map_some, Nat.one_mul, List.getD_eq_getElem?_getD,
        List.getElem?_eq_getElem (by omega : BasicFields + i < cs.length), Option.getD_some]
    · rw [List.getElem?_eq_none (by rw [List.length_range']; omega), Option.map_none, List.getElem?_eq_none (by omega)]
  rw [readSeal, inField_eq_ok.mpr (liftRlp_eq_ok.mpr h.itemCount), ok_bind]
  by_cases hcount : cs.length < 2 ^ 32
  · rw [if_pos hcount, hloop, Except.ok.injEq, and_iff_right hcount]
    exact eq_comm
  · rw [if_neg hcount]
    exact iff_of_false (fun h => by cases h) (fun h => hcount h.1)

/-- A hash that is read stands in its field. -/
theorem h256Field {i : Nat} {b : Bytes} (hb : r.hashField i 32 = .ok b) : cs.getD i [] = Item.encodeData (H256.ofBytes b).bytes := by
  obtain ⟨hi, hlen⟩ := (h.hashField_ok_iff (by decide)).mp hb
  rw [hi, H256.bytes_ofBytes hlen]

theorem bitsField {i n w : Nat} (hn : n < 2 ^ 32) (hw : w = 8 * n) {b : Bytes} (hb : r.hashField i n = .ok b) :
    cs.getD i [] = Item.encodeData (hashBytes n (hashOfBytes w b)) := by
  obtain ⟨hi, hlen⟩ := (h.hashField_ok_iff hn).mp hb
  rw [hi, hashBytes_hashOfBytes hw hlen]

theorem u256Field {i n : Nat} (hn : r.intField i 32 = .ok n) : cs.getD i [] = numberItem (BitVec.ofNat 256 n).toNat := by
  obtain ⟨hi, hlt⟩ := (h.intField_ok_iff (by decide)).mp hn
  rw [hi, BitVec.toNat_ofNat, Nat.mod_eq_of_lt (by omega)]

omit h in
/-- What is read: the typed fields are those of a list of items, and the other two are read on their own. -/
theorem populate_inv {hd : BlockHeader} (hp : populate r = .ok hd) :
    (∀ cs, ListOf r cs → (List.range 12).map (cs.getD · []) = hd.typedItems) ∧
      (∃ x, r.index 12 = .ok x ∧ x.toBytes = .ok hd.extraData) ∧ readSeal r = .ok hd.sealFields := by
  obtain ⟨parentHash, h0, hp⟩ := bind_eq_ok.mp hp
  obtain ⟨sha3Uncles, h1, hp⟩ := bind_eq_ok.mp hp
  obtain ⟨author, h2, hp⟩ := bind_eq_ok.mp hp
  obtain ⟨stateRoot, h3, hp⟩ := bind_eq_ok.mp hp
  obtain ⟨transactionsRoot, h4, hp⟩ := bind_eq_ok.mp hp
  obtain ⟨receiptsRoot, h5, hp⟩ := bind_eq_ok.mp hp
  obtain ⟨logBloom, h6, hp⟩ := bind_eq_ok.mp hp
  obtain ⟨difficulty, h7, hp⟩ := bind_eq_ok.mp hp
  obtain ⟨number, h8, hp⟩ := bind_eq_ok.mp hp
  obtain ⟨gasLimit, h9, hp⟩ := bind_eq_ok.mp hp
  obtain ⟨gasUsed, h10, hp⟩ := bind_eq_ok.mp hp
  obtain ⟨timestamp, h11, hp⟩ := bind_eq_ok.mp hp
  obtain ⟨x, hx, hp⟩ := bind_eq_ok.mp hp
  obtain ⟨extraData, h12, hp⟩ := bind_eq_ok.mp hp
  obtain ⟨sealFields, h13, hp⟩ := bind_eq_ok.mp hp
  cases hp
  refine ⟨fun cs h => ?_, ⟨x, item_eq_ok.mp hx, liftRlp_eq_ok.mp (inField_eq_ok.mp h12)⟩, h13⟩
  simp only [List.range_succ, List.range_zero, List.map_cons, List.map_nil, List.nil_append, List.cons_append, typedItems,
    h256Field h h0, h256Field h h1, bitsField (w := 160) h (by decide) rfl h2, h256Field h h3, h256Field h h4, h256Field h h5,
    bitsField (w := 2048) h (by decide) rfl h6, u256Field h h7, u256Field h h8, u256Field h h9, u256Field h h10, u256Field h h11]

/-- What is read has the items of the list, but for the extra data, which is what `toBytes` makes of its item. -/
theorem populate_ok_iff {hd : BlockHeader} : populate r = .ok hd ↔
    (List.range 12).map (cs.getD · []) = hd.typedItems ∧ (∃ x, r.index 12 = .ok x ∧ x.toBytes = .ok hd.extraData) ∧
      cs.length < 2 ^ 32 ∧ hd.sealFields = cs.drop BasicFields := by
  constructor
  · intro hp
    obtain ⟨htyped, h12, h13⟩ := populate_inv hp
    exact ⟨htyped cs h, h12, (readSeal_ok_iff h).mp h13⟩
  · rintro ⟨htyped, ⟨x, hx, h12⟩, hseal⟩
    simp only [List.range_succ, List.range_zero, List.map_cons, List.map_nil, List.nil_append, List.cons_append, typedItems,
      List.cons.injEq, and_true] at htyped
    obtain ⟨h0, h1, h2, h3, h4, h5, h6, h7, h8, h9, h10, h11⟩ := htyped
    have hhash : ∀ {i : Nat} {x : H256}, cs.getD i [] = Item.encodeData x.bytes → r.hashField i 32 = .ok x.bytes :=
      fun {_ x} hi => (h.hashField_ok_iff (by decide)).mpr ⟨hi, x.length_eq⟩
    have hbits : ∀ {i n w : Nat} {x : BitVec w}, n < 2 ^ 32 → cs.getD i [] = Item.encodeData (hashBytes n x) →
        r.hashField i n = .ok (hashBytes n x) := fun hn hi => (h.hashField_ok_iff hn).mpr ⟨hi, length_hashBytes _⟩
    have hint : ∀ {i : Nat} {x : U256}, cs.getD i [] = numberItem x.toNat → r.intField i 32 = .ok x.toNat :=
      fun {_ x} hi => (h.intField_ok_iff (by decide)).mpr ⟨hi, x.isLt⟩
    rw [populate, hhash h0, ok_bind, hhash h1, ok_bind, hbits (by decide) h2, ok_bind, hhash h3, ok_bind, hhash h4, ok_bind, hhash h5,
      ok_bind, hbits (by decide) h6, ok_bind, hint h7, ok_bind, hint h8, ok_bind, hint h9, ok_bind, hint h10, ok_bind, hint h11,
      ok_bind, item_eq_ok.mpr hx, ok_bind, inField_eq_ok.mpr (liftRlp_eq_ok.mpr h12), ok_bind, (readSeal_ok_iff h).mpr hseal, ok_bind]
    simp only [H256.ofBytes_bytes, hashOfBytes_hashBytes (w := 160) (n := 20) rfl, hashOfBytes_hashBytes (w := 2048) (n := 256) rfl, BitVec.ofNat_toNat, BitVec.setWidth_eq]
    rfl

end

/-! ## Reading and writing -/

/-- A byte string that is one item. -/
def IsItem (f : Bytes) : Prop := f ≠ [] ∧ Framed f f.length

/-- What the constructor takes for the header is one item. -/
theorem framed_of_headerRLP {data : Bytes} {bdt : BlockDataType} {r : RLP} (h : headerRLP data bdt = .ok r) :
    r.m_data.Valid ∧ Framed r.m_data.toBytes r.m_data.toBytes.length := by
  have hthrow : ∀ {α : Type} {x : Except RLPError α} {a : α}, orThrow x = .ok a → x = .ok a := fun {_ x _} hx => by
    cases x with
    | error e => cases hx
    | ok a => exact congrArg Except.ok (Except.ok.inj hx)
  have hvalid := BytesConstRef.valid_ofBytes data
  cases bdt with
  | HeaderData =>
    obtain ⟨rfl, hf⟩ := ofRef_ofBytes_ok_iff.mp (hthrow h)
    exact ⟨hvalid, (BytesConstRef.toBytes_ofBytes data).symm ▸ hf⟩
  | BlockData =>
    obtain ⟨root, hroot, h⟩ := bind_eq_ok.mp h
    obtain ⟨rfl, -⟩ := ofRef_ofBytes_ok_iff.mp (hthrow hroot)
    split at h
    · obtain ⟨header, hheader, h⟩ := bind_eq_ok.mp h
      obtain ⟨-, -, h⟩ := bind_eq_ok.mp h
      obtain ⟨-, -, h⟩ := bind_eq_ok.mp h
      cases h
      obtain ⟨x, hx, hheader⟩ := bind_eq_ok.mp hheader
      split at hheader
      · cases hheader
        exact framed_of_index hvalid (hthrow hx)
      · cases hheader
    · cases h

/-- The items of a header are items. -/
theorem items_isItem {h : BlockHeader} (hd : RLP.Small h.extraData) (hs : ∀ f ∈ h.sealFields, IsItem f) : ∀ c ∈ h.items, IsItem c := by
  have hhash : ∀ x : H256, IsItem (Item.encodeData x.bytes) := fun x => item_encodeData (by rw [RLP.Small, x.length_eq]; decide)
  have hint : ∀ x : U256, IsItem (numberItem x.toNat) := fun x => item_numberItem x.isLt
  simp only [items, typedItems, List.cons_append, List.nil_append, List.forall_mem_cons]
  exact ⟨hhash _, hhash _, item_encodeData (by simp [RLP.Small]), hhash _, hhash _, hhash _, item_encodeData (by simp [RLP.Small]), hint _,
    hint _, hint _, hint _, hint _, item_encodeData hd, hs⟩

/-- The items of a header that was read from a list are the items of the list, if the extra data was a string. -/
theorem items_of_populate {r : RLP} {cs : List Bytes} {h : BlockHeader} (hcs : ListOf r cs) (hp : populate r = .ok h)
    (h12 : ∀ x, r.index 12 = .ok x → x.isData = true) : h.items = cs := by
  obtain ⟨htyped, ⟨x, hx, hxb⟩, -, hseal⟩ := (populate_ok_iff hcs).mp hp
  obtain ⟨x', hx', hv, hb, hf⟩ := hcs.index 12
  rw [hx] at hx'
  cases hx'
  obtain ⟨d, hd, hxd⟩ := string_of_isData hv hf (h12 x hx)
  rw [toBytes_string hv hd hxd] at hxb
  cases hxb
  have hlen : 12 < cs.length := lt_length_of_getD (by rw [← hb, hxd]; exact encodeData_ne_nil _)
  have h13 : cs.getD 12 [] :: cs.drop 13 = cs.drop 12 := by
    rw [List.drop_eq_getElem_cons hlen, List.getD_eq_getElem?_getD, List.getElem?_eq_getElem hlen, Option.getD_some]
  rw [items, ← htyped, ← take_eq_map_getD (Nat.le_of_lt hlen), ← hxd, hb, hseal]
  exact (congrArg (cs.take 12 ++ ·) h13).trans (List.take_append_drop 12 cs)

/-- The thirteenth item of what has the items of a header is a string. -/
theorem isData_of_items {r : RLP} {h : BlockHeader} (hcs : ListOf r h.items) (hd : RLP.Small h.extraData) {x : RLP}
    (hx : r.index 12 = .ok x) : x.isData = true := by
  obtain ⟨x', hx', hv, hb, hf⟩ := hcs.index 12
  rw [hx] at hx'
  cases hx'
  exact (string_queries hv hd hb).2.1

/-- What is read from a header is written as the header, exactly if it is a list and its extra data is a string. -/
theorem rlp_populate_iff {r : RLP} (hv : r.m_data.Valid) (hf : Framed r.m_data.toBytes r.m_data.toBytes.length) {h : BlockHeader}
    (hp : populate r = .ok h) :
    h.rlp .WithSeal = .ok r.m_data.toBytes ↔ r.isList = true ∧ ∀ x, r.index 12 = .ok x → x.isData = true := by
  obtain ⟨-, ⟨x, hx, hxb⟩, hseal⟩ := populate_inv hp
  obtain ⟨count, hcount, hloop⟩ := bind_eq_ok.mp hseal
  rw [inField_eq_ok, liftRlp_eq_ok] at hcount
  obtain ⟨hxv, hxf⟩ := framed_of_index hv hx
  have hsmall := small_of_toBytes hxv hxf hxb
  have hextra : h.extraData.length < 2 ^ 64 := by
    unfold RLP.Small at hsmall
    omega
  by_cases hl : r.isList = true
  · obtain ⟨cs, -, hcs⟩ := listOf_of_itemCount hv hf hl hcount
    obtain ⟨hlen, hdrop⟩ := (readSeal_ok_iff hcs).mp hseal
    have hsmall' := hcs.small
    unfold RLP.Small at hsmall'
    rw [rlp_ok_iff hextra (by rw [hdrop, List.length_drop]; omega), hcs.bytes, and_iff_right hl]
    constructor
    · rintro ⟨hlen', hb⟩ y hy
      have hflat : h.items.flatten = cs.flatten := flatten_of_wire hlen' (by omega) hb.symm
      have hitems : ∀ c ∈ h.items, IsItem c :=
        items_isItem hsmall fun f hf => hcs.chunk f (List.mem_of_mem_drop (hdrop ▸ hf))
      refine isData_of_items (listOf_of_bytes hv hitems (by rw [hflat]; exact hcs.small) ?_) hsmall hy
      rw [hflat]
      exact hcs.bytes
    · intro h12
      rw [items_of_populate hcs hp h12]
      exact ⟨by omega, rfl⟩
  · -- the loop over the seal fields does not take a turn, and what is written is a list
    rw [RLP.itemCount, if_neg hl] at hcount
    cases hcount
    have hnil : h.sealFields = [] := (Except.ok.inj (hloop : Except.ok [] = Except.ok h.sealFields)).symm
    rw [rlp_ok_iff hextra (by rw [hnil]; decide)]
    refine iff_of_false ?_ (fun h => hl h.1)
    rintro ⟨hlen, hb⟩
    obtain ⟨y, t, hy, hy0⟩ := wire_cons hlen
    exact hl ((isList_iff hv (hb.trans hy)).mpr hy0)

/-- The typed fields take up little. -/
theorem length_items_le {h : BlockHeader} (hd : h.extraData.length < 2 ^ 64) :
    h.items.flatten.length ≤ h.extraData.length + h.sealFields.flatten.length + 1024 := by
  have hhash : ∀ x : H256, (Item.encodeData x.bytes).length ≤ 41 := fun x => by
    have := (length_encodeData x.bytes).2
    rw [x.length_eq] at this
    omega
  have hbits : ∀ {n w : Nat} (x : BitVec w), n < 2 ^ 32 → (Item.encodeData (hashBytes n x)).length ≤ n + 9 := fun {n w} x hn => by
    have := (length_encodeData (hashBytes n x)).2
    rw [length_hashBytes] at this
    omega
  have hint : ∀ x : U256, (numberItem x.toNat).length ≤ 41 := fun x => length_numberItem x.isLt
  have h0 := hhash h.parentHash
  have h1 := hhash h.sha3Uncles
  have h2 := hbits (n := 20) h.author (by decide)
  have h3 := hhash h.stateRoot
  have h4 := hhash h.transactionsRoot
  have h5 := hhash h.receiptsRoot
  have h6 := hbits (n := 256) h.logBloom (by decide)
  have h7 := hint h.difficulty
  have h8 := hint h.number
  have h9 := hint h.gasLimit
  have h10 := hint h.gasUsed
  have h11 := hint h.timestamp
  have h12 := (length_encodeData h.extraData).2 hd
  simp only [items, typedItems, List.cons_append, List.nil_append, List.flatten_cons, List.length_append]
  omega

/-- A header whose seal fields are items is read from what is written for it. -/
theorem populate_rlp {h : BlockHeader} (hs : ∀ f ∈ h.sealFields, IsItem f) (hcount : BasicFields + h.sealFields.length < 2 ^ 32)
    (hsize : h.extraData.length + h.sealFields.flatten.length < 2 ^ 63) :
    h.rlp .WithSeal = .ok (wire h.items) ∧ headerRLP (wire h.items) .HeaderData = .ok ⟨.ofBytes (wire h.items)⟩ ∧
      populate ⟨.ofBytes (wire h.items)⟩ = .ok h := by
  have hextra : RLP.Small h.extraData := by
    unfold RLP.Small
    omega
  have hflat := length_items_le (h := h) (by omega)
  have hitems := items_isItem hextra hs
  obtain ⟨hr, hlist⟩ := listOf_wire hitems (by unfold RLP.Small; omega)
  refine ⟨(rlp_ok_iff (by omega) (by omega)).mpr ⟨by omega, rfl⟩, by rw [headerRLP, hr]; rfl, ?_⟩
  obtain ⟨x, hx, hxv, hxb, -⟩ := hlist.index 12
  have hlen : h.items.length = BasicFields + h.sealFields.length := by
    simp only [items, typedItems, List.length_append, List.length_cons, List.length_nil, BasicFields]
    omega
  have htyped : (List.range 12).map (h.items.getD · []) = h.typedItems := by
    rw [← take_eq_map_getD (by rw [hlen, BasicFields]; omega)]
    exact List.take_left' rfl
  have hdrop : h.items.drop BasicFields = h.sealFields := by
    rw [items, List.append_cons]
    exact List.drop_left' rfl
  exact (populate_ok_iff hlist).mpr ⟨htyped, ⟨x, hx, toBytes_string hxv hextra hxb⟩, by omega, hdrop.symm⟩

end BlockHeader

/-!
## Hashes that headers keep

A memo that is not null is the hash of the fields. Every member keeps that which clears the memos or leaves the fields as they are;
`populateFromParent` does neither.
-/

variable {sha3 : Bytes → H256}

namespace HashedHeader

/-- The memos that are set are the hashes of the fields. -/
structure Memoised (sha3 : Bytes → H256) (h : HashedHeader) : Prop where
  withSeal : h.m_hash ≠ nullHash → (h.fields.rlp .WithSeal).map sha3 = .ok h.m_hash
  withoutSeal : h.m_hashWithout ≠ nullHash → (h.fields.rlp .WithoutSeal).map sha3 = .ok h.m_hashWithout

/-- `hash` gives the hash of what `streamRLP` writes for the fields, or throws as it does. -/
def Hashes (sha3 : Bytes → H256) (h : HashedHeader) : Prop :=
  ∀ i, (h.hash sha3 i).map (·.1) = (h.fields.rlp i).map sha3

theorem memoised_of_null {h : HashedHeader} (h0 : h.m_hash = nullHash) (h1 : h.m_hashWithout = nullHash) : h.Memoised sha3 :=
  ⟨fun h => absurd h0 h, fun h => absurd h1 h⟩

theorem memoised_set (h : HashedHeader) (f : BlockHeader → BlockHeader) : (h.set f).Memoised sha3 := memoised_of_null rfl rfl

theorem Memoised.hashes {h : HashedHeader} (hm : h.Memoised sha3) : h.Hashes sha3 := by
  intro i
  cases i with
  | WithSeal =>
    rw [hash]
    by_cases h0 : h.m_hash = nullHash
    · rw [if_pos h0]
      cases h.fields.rlp .WithSeal <;> rfl
    · rw [if_neg h0, hm.withSeal h0]
      rfl
  | WithoutSeal =>
    rw [hash]
    by_cases h0 : h.m_hashWithout = nullHash
    · rw [if_pos h0]
      cases h.fields.rlp .WithoutSeal <;> rfl
    · rw [if_neg h0, hm.withoutSeal h0]
      rfl
  | OnlySeal =>
    rw [hash]
    cases h.fields.rlp .OnlySeal <;> rfl

/-- A query fills a memo with the hash of the fields. -/
theorem Memoised.hash {h h' : HashedHeader} {i : IncludeSeal} {v : H256} (hm : h.Memoised sha3) (hq : h.hash sha3 i = .ok (v, h')) :
    h'.Memoised sha3 ∧ h'.fields = h.fields := by
  cases i with
  | WithSeal =>
    rw [HashedHeader.hash] at hq
    split at hq
    · obtain ⟨b, hb, hq⟩ := bind_eq_ok.mp hq
      cases hq
      exact ⟨⟨fun _ => by rw [hb]; rfl, hm.withoutSeal⟩, rfl⟩
    · cases hq
      exact ⟨hm, rfl⟩
  | WithoutSeal =>
    rw [HashedHeader.hash] at hq
    split at hq
    · obtain ⟨b, hb, hq⟩ := bind_eq_ok.mp hq
      cases hq
      exact ⟨⟨hm.withSeal, fun _ => by rw [hb]; rfl⟩, rfl⟩
    · cases hq
      exact ⟨hm, rfl⟩
  | OnlySeal =>
    rw [HashedHeader.hash] at hq
    obtain ⟨b, hb, hq⟩ := bind_eq_ok.mp hq
    cases hq
    exact ⟨hm, rfl⟩

theorem Memoised.setSeal {h h' : HashedHeader} {offset : Nat} {rlp : Bytes} (hs : h.setSeal offset rlp = some h') :
    h'.Memoised sha3 := by
  unfold HashedHeader.setSeal at hs
  simp only [Option.ite_none_right_eq_some, Option.some.injEq] at hs
  obtain ⟨-, rfl⟩ := hs
  exact memoised_set _ _

/-- When a header may be populated from a parent: it keeps no hash, or its fields stay as they are, and the parent keeps one. -/
def Populates (h parent : HashedHeader) : Prop :=
  (h.m_hash = nullHash ∧ h.m_hashWithout = nullHash ∨ (h.populateFromParent parent).fields = h.fields) ∧ parent.m_hash ≠ nullHash

instance (h parent : HashedHeader) : Decidable (h.Populates parent) := by
  unfold Populates
  infer_instance

theorem Memoised.populateFromParent {h parent : HashedHeader} (hm : h.Memoised sha3) (hp : h.Populates parent) :
    (h.populateFromParent parent).Memoised sha3 := by
  rcases hp.1 with ⟨h0, h1⟩ | hsame
  · exact memoised_of_null h0 h1
  · exact ⟨fun h0 => by rw [hsame]; exact hm.withSeal h0, fun h1 => by rw [hsame]; exact hm.withoutSeal h1⟩

/-- What is assigned for the hash of the parent is its hash, if the parent keeps one. -/
theorem hash_of_populates {h parent : HashedHeader} (hp : h.Populates parent) :
    (parent.hash sha3 .WithSeal).map (·.1) = .ok (h.populateFromParent parent).fields.parentHash := by
  rw [HashedHeader.hash, if_neg hp.2]
  rfl

end HashedHeader

namespace HeaderOp

open HashedHeader

/-- The calls that do not leave a wrong hash behind. -/
def Allowed (s : Headers) (c : Nat × HeaderOp) : Prop := ∀ parent, c.2 = .populateFromParent parent → (s c.1).Populates (s parent)

/-- What one call makes of a header. -/
theorem memoised_apply {s : Headers} (hs : ∀ n, (s n).Memoised sha3) {n : Nat} {op : HeaderOp} (ha : Allowed s (n, op))
    {h : HashedHeader} (h' : op.apply sha3 s (s n) = some h) : h.Memoised sha3 := by
  cases op with
  | setSeal offset rlp => exact Memoised.setSeal h'
  | clear =>
    cases h'
    exact memoised_set _ _
  | noteDirty =>
    cases h'
    exact memoised_of_null rfl rfl
  | populateFromParent parent =>
    cases h'
    exact (hs n).populateFromParent (ha parent rfl)
  | assign other =>
    cases h'
    exact hs other
  | hash i =>
    rw [apply] at h'
    split at h'
    · rename_i hq
      cases h'
      exact ((hs n).hash hq).1
    · cases h'
      exact hs n
  | _ =>
    -- the other setters clear the memos
    cases h'
    exact memoised_set _ _

theorem next_of_apply {s : Headers} {c : Nat × HeaderOp} {h : HashedHeader} (hh : c.2.apply sha3 s (s c.1) = some h) :
    next sha3 s c = Function.update s c.1 h := by
  rw [next, hh]

theorem memoised_next {s : Headers} (hs : ∀ n, (s n).Memoised sha3) {c : Nat × HeaderOp} (ha : Allowed s c) :
    ∀ n, (next sha3 s c n).Memoised sha3 := by
  intro n
  cases hh : c.2.apply sha3 s (s c.1) with
  | none =>
    rw [next, hh]
    exact hs n
  | some h =>
    rw [next_of_apply hh]
    by_cases hn : n = c.1
    · subst hn
      rw [Function.update_self]
      exact memoised_apply hs ha hh
    · rw [Function.update_of_ne hn]
      exact hs n

/-- After an allowed call of `populateFromParent`, the hash of the parent is the parent hash of the header. -/
theorem parentHash_next {s : Headers} {n parent : Nat} (ha : Allowed s (n, .populateFromParent parent)) :
    ((next sha3 s (n, .populateFromParent parent) parent).hash sha3 .WithSeal).map (·.1) =
      .ok (next sha3 s (n, .populateFromParent parent) n).fields.parentHash := by
  have hp := ha parent rfl
  have hnext : next sha3 s (n, .populateFromParent parent) = Function.update s n ((s n).populateFromParent (s parent)) :=
    next_of_apply rfl
  rw [hnext]
  by_cases hn : parent = n
  · subst hn
    rw [Function.update_self, HashedHeader.hash, if_neg (by exact hp.2)]
    rfl
  · rw [Function.update_self, Function.update_of_ne hn]
    exact hash_of_populates hp

/-- In every state that allowed calls lead to, the memos that are set are the hashes of the fields. -/
theorem memoised_reach {s : Headers} (h : Reach (next sha3) Allowed (fun _ => HashedHeader.new) s) : ∀ n, (s n).Memoised sha3 :=
  h.invariant (fun _ => memoised_of_null rfl rfl) fun _ _ hs ha => memoised_next hs ha

end HeaderOp

end Webthree
