import Webthree.Core.TransactionBase
import Webthree.Lemmas.Fields

/-!
# Transactions, on their items

What a transaction is read from and what it is written as are both a list of nine items. The two lists differ at most in the
receiver of a contract creation, which is read from an empty list as well.
-/

namespace Webthree

open RLP

namespace TransactionBase

/-- The items of a transaction, with an item for the receiver and a number for `v`. -/
def items (t : TransactionBase) (dest : Bytes) (v : Nat) : List Bytes :=
  [numberItem t.m_nonce.toNat, numberItem t.m_gasPrice.toNat, numberItem t.m_gas.toNat, dest, numberItem t.m_value.toNat,
    Item.encodeData t.m_data, numberItem v, numberItem t.m_vrs.r.toU256.toNat, numberItem t.m_vrs.s.toU256.toNat]

/-- What is written for the receiver. -/
def destination (t : TransactionBase) : Bytes := if t.m_type = .MessageCall then hashBytes 20 t.m_receiveAddress else []

/-- The items as they are written. -/
def written (t : TransactionBase) : List Bytes := t.items (Item.encodeData t.destination) (t.m_vrs.v.toNat + 27)

/-- How the receiver is read. -/
inductive ReadsReceiver : TransactionType → Address → Bytes → Prop where
  | emptyString : ReadsReceiver .ContractCreation 0 [0x80]
  | emptyList : ReadsReceiver .ContractCreation 0 [0xc0]
  | address (a : Address) : ReadsReceiver .MessageCall a (Item.encodeData (hashBytes 20 a))

variable {t : TransactionBase}

/-! ## Writing -/

/-- The operations of `streamRLP` on the open list. -/
def operations (t : TransactionBase) : List (RLPStream → Except RLPError RLPStream) :=
  [(·.appendInt t.m_nonce.toNat), (·.appendInt t.m_gasPrice.toNat), (·.appendInt t.m_gas.toNat), (·.append t.destination),
    (·.appendInt t.m_value.toNat), (·.append t.m_data), (·.appendInt (t.m_vrs.v.toNat + 27)), (·.appendInt t.m_vrs.r.toU256.toNat),
    (·.appendInt t.m_vrs.s.toU256.toNat)]

theorem streamRLP_eq (ht : t.m_type ≠ .NullTransaction) (s : RLPStream) :
    t.streamRLP s .WithSignature = s.appendList t.operations.length >>= fun s => s.put t.operations := by
  rw [streamRLP, if_neg ht, if_pos rfl, operations, destination]
  by_cases hm : t.m_type = .MessageCall
  · simp [hm, RLPStream.put]
  · simp [hm, RLPStream.put]

open RLPStream in
/-- Each operation puts one of the items. -/
theorem puts_operations (hd : t.m_data.length < 2 ^ 64) : List.Forall₂ Puts t.operations t.written := by
  have hint : ∀ x : U256, Puts (appendInt · x.toNat) (numberItem x.toNat) := fun x => puts_appendInt x.isLt
  have hv : t.m_vrs.v.toNat < 256 := t.m_vrs.v.toNat_lt
  have hdest : t.destination.length < 2 ^ 64 := by
    unfold destination
    split <;> simp
  exact .cons (hint _) (.cons (hint _) (.cons (hint _) (.cons (puts_append hdest) (.cons (hint _) (.cons (puts_append hd)
    (.cons (puts_appendInt (by omega)) (.cons (hint _) (.cons (hint _) .nil))))))))

/-- A transaction is written as the list of its items. -/
theorem rlp_eq (ht : t.m_type ≠ .NullTransaction) (hd : t.m_data.length < 2 ^ 64) (hs : t.written.flatten.length < 2 ^ 64) :
    t.rlp .WithSignature = .ok (wire t.written) := by
  rw [rlp, streamRLP_eq ht, RLPStream.put_list_eq (puts_operations hd) (by simp [operations]) hs, ok_bind, RLPStream.out_eq]
  rfl

/-! ## Reading -/

/-- The items of a byte string are those of a transaction whose signature has not been looked at yet. -/
structure ReadsAs (b : Bytes) (t : TransactionBase) (dest : Bytes) (v : Nat) : Prop where
  bytes : b = wire (t.items dest v)
  small : RLP.Small (t.items dest v).flatten
  dest : ReadsReceiver t.m_type t.m_receiveAddress dest
  v_lt : v < 256
  v_eq : t.m_vrs.v = UInt8.ofNat v - 27
  hash : t.m_hashWith = H256.ofU256 0
  sender : t.m_sender = 0

/-- What becomes of a transaction when its signature is looked at. -/
def Checked (C : Crypto) (check : CheckTransaction) (t₀ t : TransactionBase) : Prop :=
  (check ≠ .None → t₀.m_vrs.isValid = true) ∧
    if check = .Everything then ∃ a, t₀.sender C = .ok (a, t) else t = t₀

/-- `sender` keeps nothing but the address. -/
theorem sender_eq_ok {C : Crypto} {t t' : TransactionBase} {a : Address} (h : t.sender C = .ok (a, t')) :
    t' = { t with m_sender := a } := by
  rw [sender] at h
  by_cases h0 : t.m_sender = 0
  · rw [if_neg (by simp [h0]), bind_eq_ok] at h
    obtain ⟨⟨g, u⟩, hg, h⟩ := h
    obtain rfl : u = t := by
      rw [liftRlp_eq_ok, sha3, if_neg (by simp), bind_eq_ok] at hg
      obtain ⟨_, -, hg⟩ := hg
      cases hg
      rfl
    dsimp only at h
    split at h
    · cases h
    · cases h
      rfl
  · rw [if_pos h0] at h
    cases h
    rfl

section

variable {ty : TransactionType} {a : Address} {dest : Bytes}

theorem ReadsReceiver.item (h : ReadsReceiver ty a dest) : dest ≠ [] ∧ Framed dest dest.length := by
  cases h with
  | emptyString => exact item_encodeData (b := []) (by simp [RLP.Small])
  | emptyList => exact ⟨by simp, framed_list (p := []) (by simp [RLP.Small])⟩
  | address => exact item_encodeData (by simp [RLP.Small])

/-- The encoding of an address is longer than the empty string and the empty list. -/
theorem encodeAddress_ne (a : Address) {c : Bytes} (hc : c.length ≤ 1) : Item.encodeData (hashBytes 20 a) ≠ c := by
  have hlen := (length_encodeData (hashBytes 20 a)).1
  rw [length_hashBytes] at hlen
  intro h
  rw [h] at hlen
  omega

theorem ReadsReceiver.isEmpty (h : ReadsReceiver ty a dest) : dest = [0x80] ∨ dest = [0xc0] ↔ ty = .ContractCreation := by
  cases h with
  | emptyString => simp
  | emptyList => simp
  | address => simp [encodeAddress_ne]

theorem ReadsReceiver.isList_iff (h : ReadsReceiver ty a dest) {x : RLP} (hv : x.m_data.Valid) (hb : x.m_data.toBytes = dest) :
    x.isList = true ↔ dest = [0xc0] := by
  cases h with
  | emptyString => simp [(string_queries (b := []) hv (by simp [RLP.Small]) hb).2.2.1]
  | emptyList => simp [(list_queries (p := []) hv (by simp [RLP.Small]) hb).2.2.1]
  | address => simp [(string_queries hv (by simp [RLP.Small]) hb).2.2.1, encodeAddress_ne]

end

theorem ReadsAs.small_data {b : Bytes} {t : TransactionBase} {dest : Bytes} {v : Nat} (h : ReadsAs b t dest v) : RLP.Small t.m_data := by
  have hle := (length_encodeData t.m_data).1
  have hs := h.small
  simp only [RLP.Small, TransactionBase.items, List.flatten_cons, List.length_append] at hs ⊢
  omega

/-- Each item is one, and not nothing. -/
theorem ReadsAs.items {b : Bytes} {t : TransactionBase} {dest : Bytes} {v : Nat} (h : ReadsAs b t dest v) :
    ∀ c ∈ t.items dest v, c ≠ [] ∧ Framed c c.length := by
  have hv := h.v_lt
  simp only [TransactionBase.items, List.forall_mem_cons]
  exact ⟨item_numberItem (BitVec.isLt _), item_numberItem (BitVec.isLt _), item_numberItem (BitVec.isLt _), h.dest.item, item_numberItem (BitVec.isLt _),
    item_encodeData h.small_data, item_numberItem (by omega), item_numberItem (BitVec.isLt _), item_numberItem (BitVec.isLt _), by simp⟩

theorem readReceiver_ok_iff {r : RLP} {cs : List Bytes} (h : ListOf r cs) {ty : TransactionType} {a : Address} :
    readReceiver r = .ok (ty, a) ↔ ReadsReceiver ty a (cs.getD 3 []) := by
  obtain ⟨x, hx, hv, hb, hf⟩ := h.item_ok 3
  have hempty := isEmpty_iff hv hf
  rw [hb] at hempty
  rw [readReceiver, hx, ok_bind]
  by_cases he : x.isEmpty = true
  · rw [if_pos he, pure_eq_ok, Except.ok.injEq, Prod.mk.injEq]
    constructor
    · rintro ⟨rfl, rfl⟩
      rcases hempty.mp he with h3 | h3
      · rw [h3]
        exact .emptyString
      · rw [h3]
        exact .emptyList
    · intro hr
      obtain rfl := hr.isEmpty.mp (hempty.mp he)
      generalize cs.getD 3 [] = dest at hr
      cases hr <;> exact ⟨rfl, rfl⟩
  · rw [if_neg he]
    constructor
    · intro hr
      obtain ⟨address, haddress, hr⟩ := bind_eq_ok.mp hr
      obtain ⟨h3, hlen⟩ := (h.hashField_ok_iff (by decide)).mp haddress
      cases hr
      have := ReadsReceiver.address (hashOfBytes 160 address)
      rwa [hashBytes_hashOfBytes (w := 160) rfl hlen, ← h3] at this
    · intro hr
      have hty : ty ≠ .ContractCreation := fun hty => he (hempty.mpr (hr.isEmpty.mpr hty))
      generalize h3 : cs.getD 3 [] = dest at hr
      cases hr with
      | emptyString => exact absurd rfl hty
      | emptyList => exact absurd rfl hty
      | address =>
        rw [(h.hashField_ok_iff (by decide)).mpr ⟨h3, length_hashBytes a⟩, ok_bind, hashOfBytes_hashBytes (w := 160) rfl, pure_eq_ok]

theorem readData_ok_iff {r : RLP} {cs : List Bytes} (h : ListOf r cs) {b : Bytes} :
    readData r = .ok b ↔ cs.getD 5 [] = Item.encodeData b ∧ RLP.Small b := by
  obtain ⟨x, hx, hv, hb, hf⟩ := h.item_ok 5
  rw [readData, hx, ok_bind, ← hb]
  by_cases hdata : x.isData = true
  · obtain ⟨d, hd, hxd⟩ := string_of_isData hv hf hdata
    rw [if_neg (by simp [hdata]), inField_eq_ok, liftRlp_eq_ok]
    constructor
    · intro h5
      rw [toBytes_string hv hd hxd] at h5
      cases h5
      exact ⟨hxd, hd⟩
    · rintro ⟨h5, hb⟩
      exact toBytes_string hv hb h5
  · rw [if_pos (by simp [hdata])]
    constructor
    · intro h5
      cases h5
    · rintro ⟨h5, hb⟩
      exact absurd (string_queries hv hb h5).2.1 hdata

/-- The fields that are read make up the list. -/
theorem readFields_ok_iff {r : RLP} (hv : r.m_data.Valid) (hf : Framed r.m_data.toBytes r.m_data.toBytes.length)
    (hl : r.isList = true) {t : TransactionBase} : readFields r = .ok t ↔ ∃ dest v, ReadsAs r.m_data.toBytes t dest v := by
  constructor
  · intro h
    obtain ⟨nonce, hnonce, h⟩ := bind_eq_ok.mp h
    obtain ⟨gasPrice, hgasPrice, h⟩ := bind_eq_ok.mp h
    obtain ⟨gas, hgas, h⟩ := bind_eq_ok.mp h
    obtain ⟨⟨ty, a⟩, hreceiver, h⟩ := bind_eq_ok.mp h
    obtain ⟨value, hvalue, h⟩ := bind_eq_ok.mp h
    obtain ⟨data, hdata, h⟩ := bind_eq_ok.mp h
    obtain ⟨v, hv', h⟩ := bind_eq_ok.mp h
    obtain ⟨sr, hr, h⟩ := bind_eq_ok.mp h
    obtain ⟨ss, hs, h⟩ := bind_eq_ok.mp h
    obtain ⟨count, hcount, h⟩ := bind_eq_ok.mp h
    by_cases h9 : count > 9
    · rw [if_pos h9] at h
      cases h
    rw [if_neg h9] at h
    obtain ⟨cs, hlen, hcs⟩ := listOf_of_itemCount hv hf hl (liftRlp_eq_ok.mp (inField_eq_ok.mp hcount))
    have hint : ∀ {i k n : Nat}, k < 2 ^ 32 → r.intField i k = .ok n → cs.getD i [] = numberItem n ∧ n < 256 ^ k :=
      fun hk => (hcs.intField_ok_iff hk).mp
    obtain ⟨h0, hnonce⟩ := hint (by decide) hnonce
    obtain ⟨h1, hgasPrice⟩ := hint (by decide) hgasPrice
    obtain ⟨h2, hgas⟩ := hint (by decide) hgas
    have h3 := (readReceiver_ok_iff hcs).mp hreceiver
    obtain ⟨h4, hvalue⟩ := hint (by decide) hvalue
    obtain ⟨h5, hsmall⟩ := (readData_ok_iff hcs).mp hdata
    obtain ⟨h6, hv'⟩ := hint (by decide) hv'
    obtain ⟨h7, hr⟩ := hint (by decide) hr
    obtain ⟨h8, hs⟩ := hint (by decide) hs
    cases h
    have hcs' : cs = [numberItem nonce, numberItem gasPrice, numberItem gas, cs.getD 3 [], numberItem value, Item.encodeData data, numberItem v,
        numberItem sr, numberItem ss] := by
      have h9' : 8 < cs.length := lt_length_of_getD (by rw [h8]; exact encodeData_ne_nil _)
      have htake : cs.take 9 = _ := take_eq_map_getD (by omega)
      rw [List.take_of_length_le (by omega)] at htake
      refine htake.trans ?_
      simp only [List.range_succ, List.range_zero, List.map_cons, List.map_nil, List.nil_append, List.cons_append,
        h0, h1, h2, h4, h5, h6, h7, h8]
    have hmod : ∀ {n : Nat}, n < 256 ^ 32 → (BitVec.ofNat 256 n).toNat = n := fun hn => by
      rw [BitVec.toNat_ofNat, Nat.mod_eq_of_lt (by omega)]
    have hitems : items { m_type := ty, m_nonce := BitVec.ofNat 256 nonce, m_value := BitVec.ofNat 256 value, m_receiveAddress := a
                          m_gasPrice := BitVec.ofNat 256 gasPrice, m_gas := BitVec.ofNat 256 gas, m_data := data
                          m_vrs := ⟨H256.ofU256 (BitVec.ofNat 256 sr), H256.ofU256 (BitVec.ofNat 256 ss), UInt8.ofNat v - 27⟩
                          m_hashWith := H256.ofU256 0, m_sender := 0 } (cs.getD 3 []) v = cs := by
      rw [hcs']
      simp only [items, H256.toU256_ofU256, hmod hnonce, hmod hgasPrice, hmod hgas, hmod hvalue, hmod hr, hmod hs]
      rfl
    refine ⟨cs.getD 3 [], v, ?_, ?_, h3, hv', rfl, rfl, rfl⟩
    · rw [hitems]
      exact hcs.bytes
    · rw [hitems]
      exact hcs.small
  · rintro ⟨dest, v, h⟩
    have hcs := listOf_of_bytes hv h.items h.small h.bytes
    have hint : ∀ (i : Nat) (x : U256), (t.items dest v).getD i [] = numberItem x.toNat → r.intField i 32 = .ok x.toNat :=
      fun i x hi => (hcs.intField_ok_iff (by decide)).mpr ⟨hi, x.isLt⟩
    have hvf : r.intField 6 1 = .ok v := (hcs.intField_ok_iff (by decide)).mpr ⟨rfl, h.v_lt⟩
    have hcount : r.itemCount = .ok 9 := hcs.itemCount
    have hdata : readData r = .ok t.m_data := (readData_ok_iff hcs).mpr ⟨rfl, h.small_data⟩
    have hreceiver : readReceiver r = .ok (t.m_type, t.m_receiveAddress) := (readReceiver_ok_iff hcs).mpr h.dest
    rw [readFields, hint 0 t.m_nonce rfl, ok_bind, hint 1 t.m_gasPrice rfl, ok_bind, hint 2 t.m_gas rfl, ok_bind, hreceiver, ok_bind]
    dsimp only
    rw [hint 4 t.m_value rfl, ok_bind, hdata, ok_bind, hvf, ok_bind, hint 7 t.m_vrs.r.toU256 rfl, ok_bind,
      hint 8 t.m_vrs.s.toU256 rfl, ok_bind, inField_eq_ok.mpr (liftRlp_eq_ok.mpr hcount), ok_bind, if_neg (by decide)]
    simp only [BitVec.ofNat_toNat, BitVec.setWidth_eq, H256.ofU256_toU256, ← h.v_eq, ← h.hash, ← h.sender]
    rfl

theorem checkSignature_ok_iff {C : Crypto} {r : RLP} {t₀ t : TransactionBase} {check : CheckTransaction} :
    checkSignature C r t₀ check = .ok t ↔ Checked C check t₀ t := by
  rw [checkSignature, Checked]
  by_cases hbad : check ≠ .None ∧ t₀.m_vrs.isValid = false
  · rw [if_pos hbad]
    constructor
    · intro h
      cases h
    · rintro ⟨hvalid, -⟩
      rw [hvalid hbad.1] at hbad
      exact absurd hbad.2 (by simp)
  · have hvalid : check ≠ .None → t₀.m_vrs.isValid = true := fun hc => by simpa [hc] using hbad
    rw [if_neg hbad, and_iff_right hvalid]
    by_cases hall : check = .Everything
    · rw [if_pos hall, if_pos hall]
      constructor
      · intro h
        obtain ⟨⟨a, t'⟩, hs, h⟩ := bind_eq_ok.mp h
        rw [inField_eq_ok] at hs
        obtain rfl := sender_eq_ok hs
        cases h
        exact ⟨a, hs⟩
      · rintro ⟨a, hs⟩
        rw [inField_eq_ok.mpr hs, ok_bind]
        obtain rfl := sender_eq_ok hs
        rfl
    · rw [if_neg hall, if_neg hall, pure_eq_ok, Except.ok.injEq]
      exact eq_comm

/-- A transaction is read from what has its items, if its signature passes. -/
theorem ofRLP_ok_iff {C : Crypto} {b : Bytes} {check : CheckTransaction} {t : TransactionBase} :
    ofRLP C b check = .ok t ↔ ∃ t₀ dest v, ReadsAs b t₀ dest v ∧ Checked C check t₀ t := by
  have hbytes := BytesConstRef.toBytes_ofBytes b
  have hvalid := BytesConstRef.valid_ofBytes b
  constructor
  · intro h
    obtain ⟨r, hr, h⟩ := bind_eq_ok.mp h
    obtain ⟨rfl, hf⟩ : r = ⟨.ofBytes b⟩ ∧ Framed b b.length := by
      cases hr' : ofRef (.ofBytes b) VeryStrict with
      | error e =>
        rw [hr'] at hr
        cases hr
      | ok r' =>
        rw [hr'] at hr
        cases hr
        exact ofRef_ofBytes_ok_iff.mp hr'
    by_cases hl : (⟨.ofBytes b⟩ : RLP).isList = true
    · rw [if_pos hl] at h
      obtain ⟨t₀, ht₀, h⟩ := bind_eq_ok.mp h
      rw [checkSignature_ok_iff] at h
      rw [readFields_ok_iff (r := ⟨.ofBytes b⟩) hvalid (hbytes.symm ▸ hf) hl] at ht₀
      obtain ⟨dest, v, hreads⟩ := ht₀
      exact ⟨t₀, dest, v, hbytes ▸ hreads, h⟩
    · rw [if_neg hl] at h
      cases h
  · rintro ⟨t₀, dest, v, hreads, hc⟩
    obtain ⟨hr, hlist⟩ := listOf_wire hreads.items hreads.small
    rw [← hreads.bytes] at hr hlist
    have hf := (ofRef_ofBytes_ok_iff.mp hr).2
    rw [ofRLP, hr]
    show (if _ then _ else _) = _
    rw [if_pos hlist.isList, (readFields_ok_iff (r := ⟨.ofBytes b⟩) hvalid (hbytes.symm ▸ hf) hlist.isList).mpr ⟨dest, v, hbytes.symm ▸ hreads⟩, ok_bind]
    exact checkSignature_ok_iff.mpr hc

/-! ## Reading and writing -/

theorem v_le_of_isValid {vrs : SignatureStruct} (h : vrs.isValid = true) : vrs.v.toNat ≤ 1 := by
  simp only [SignatureStruct.isValid, Bool.not_eq_true', Bool.or_eq_false_iff, decide_eq_false_iff_not] at h
  exact UInt8.not_lt.mp h.1.1.1.1

/-- A valid signature is read from one of two numbers. -/
theorem v_of_isValid {vrs : SignatureStruct} (h : vrs.isValid = true) {v : Nat} (hlt : v < 256) (hv : vrs.v = UInt8.ofNat v - 27) :
    v = vrs.v.toNat + 27 := by
  have hle := v_le_of_isValid h
  have hn : vrs.v.toNat = (256 - 27 + v % 256) % 256 := by
    rw [hv, UInt8.toNat_sub, UInt8.toNat_ofNat']
    rfl
  omega

theorem length_items (t : TransactionBase) (v : Nat) :
    (t.items [0x80] v).flatten.length = (t.items [0xc0] v).flatten.length := by
  simp only [items, List.flatten_cons, List.length_append, List.length_singleton]

/-- Two lists of items that differ in the receiver only are different on the wire. -/
theorem wire_items_ne (t : TransactionBase) (v : Nat) : wire (t.items [0x80] v) ≠ wire (t.items [0xc0] v) := by
  intro h
  rw [wire, wire, length_items] at h
  simp [items] at h

/-- What was read is written again, unless the receiver was the empty list. -/
theorem ReadsAs.rlp_eq_iff {b : Bytes} {t : TransactionBase} {dest : Bytes} {v : Nat} (h : ReadsAs b t dest v)
    (hvalid : t.m_vrs.isValid = true) : t.rlp .WithSignature = .ok b ↔ dest ≠ [0xc0] := by
  have hv := v_of_isValid hvalid h.v_lt h.v_eq
  have hdata := h.small_data
  have hsmall := h.small
  unfold RLP.Small at hdata hsmall
  obtain ⟨hty, hdest⟩ : t.m_type ≠ .NullTransaction ∧
      (Item.encodeData t.destination = dest ∧ dest ≠ [0xc0] ∨ Item.encodeData t.destination = [0x80] ∧ dest = [0xc0]) := by
    have hr := h.dest
    unfold destination
    generalize t.m_type = ty at hr
    generalize t.m_receiveAddress = a at hr
    cases hr with
    | emptyString => exact ⟨by simp, .inl ⟨rfl, by decide⟩⟩
    | emptyList => exact ⟨by simp, .inr ⟨rfl, rfl⟩⟩
    | address => exact ⟨by simp, .inl ⟨rfl, encodeAddress_ne _ (by simp)⟩⟩
  have hwritten : t.written = t.items (Item.encodeData t.destination) v := by rw [written, hv]
  rcases hdest with ⟨hdest, hne⟩ | ⟨hdest, rfl⟩
  · rw [hdest] at hwritten
    rw [rlp_eq hty (by omega) (by rw [hwritten]; omega), hwritten, ← h.bytes]
    exact iff_of_true rfl hne
  · rw [hdest] at hwritten
    rw [rlp_eq hty (by omega) (by rw [hwritten, length_items]; omega), hwritten, h.bytes]
    exact iff_of_false (fun heq => wire_items_ne t v (Except.ok.inj heq)) (fun hne => hne rfl)

theorem sha3_eq_of_rlp {C : Crypto} {t : TransactionBase} (h0 : t.m_hashWith = H256.ofU256 0) {b : Bytes}
    (h : t.rlp .WithSignature = .ok b) : t.sha3 C .WithSignature = .ok (C.sha3 b, { t with m_hashWith := C.sha3 b }) := by
  rw [sha3, if_neg (by simp [h0]), h, ok_bind]
  rfl

/-- The receiver of what was read is a list only if it is the empty list. -/
theorem ReadsAs.receiverItem_iff {b : Bytes} {t : TransactionBase} {dest : Bytes} {v : Nat} (h : ReadsAs b t dest v) :
    (∀ x, receiverItem b = .ok x → x.isList = false) ↔ dest ≠ [0xc0] := by
  obtain ⟨hr, hlist⟩ := listOf_wire h.items h.small
  rw [← h.bytes] at hr hlist
  obtain ⟨x, hx, hv, hb, hf⟩ := hlist.index 3
  have hitem : receiverItem b = .ok x := by rw [receiverItem, hr, ok_bind, hx]
  have hb' : x.m_data.toBytes = dest := hb
  have hisList := h.dest.isList_iff hv hb'
  constructor
  · intro hall hdest
    have := hall x hitem
    rw [hisList.mpr hdest] at this
    cases this
  · intro hne y hy
    rw [hitem] at hy
    cases hy
    rw [Bool.eq_false_iff, Ne, hisList]
    exact hne

/-- What was read has no cached hash, and is written as it was read, unless its receiver is a list. -/
theorem rlp_ofRLP {C : Crypto} {b : Bytes} {check : CheckTransaction} {t : TransactionBase} (hc : check ≠ .None)
    (h : ofRLP C b check = .ok t) : t.m_hashWith = H256.ofU256 0 ∧
      (t.rlp .WithSignature = .ok b ↔ ∀ x, receiverItem b = .ok x → x.isList = false) := by
  obtain ⟨t₀, dest, v, hreads, hvalid, hsender⟩ := ofRLP_ok_iff.mp h
  obtain ⟨a, rfl⟩ : ∃ a, t = { t₀ with m_sender := a } := by
    by_cases hall : check = .Everything
    · rw [if_pos hall] at hsender
      obtain ⟨a, hs⟩ := hsender
      exact ⟨a, sender_eq_ok hs⟩
    · rw [if_neg hall] at hsender
      exact ⟨t₀.m_sender, hsender⟩
  rw [hreads.receiverItem_iff, ← hreads.rlp_eq_iff (hvalid hc)]
  -- the cached sender is not written
  exact ⟨hreads.hash, Iff.rfl⟩

/-- The queue finds a transaction that it reads under the hash of the bytes. -/
theorem library_read_sha3 {C : Crypto} {balance : Balance VerifiedTransaction} {start : Nat → Nat} {b : Bytes} {s : SignedTransaction}
    (h : (library C balance start).read b = some s) (hl : ∀ x, receiverItem b = .ok x → x.isList = false) :
    s.sha3 = (library C balance start).sha3 b := by
  obtain ⟨t, ht, hs⟩ := Option.bind_eq_some_iff.mp h
  cases hread : ofRLP C b .Everything with
  | error e =>
    rw [hread] at ht
    cases ht
  | ok u =>
    rw [hread] at ht
    cases ht
    obtain ⟨h0, hb⟩ := rlp_ofRLP (by decide) hread
    rw [toSigned, sha3_eq_of_rlp h0 (hb.mpr hl)] at hs
    cases hs
    rfl

/-- A transaction without what is cached, and without a receiver if it makes a contract. -/
def bare (t : TransactionBase) : TransactionBase :=
  { t with m_receiveAddress := if t.m_type = .MessageCall then t.m_receiveAddress else 0, m_hashWith := H256.ofU256 0, m_sender := 0 }

theorem streamRLP_bare (t : TransactionBase) (s : RLPStream) (sig : IncludeSignature) : t.bare.streamRLP s sig = t.streamRLP s sig := by
  unfold streamRLP bare
  by_cases hm : t.m_type = .MessageCall
  · simp only [hm, if_true]
  · simp only [hm, if_false]

theorem sha3_without {C : Crypto} {t : TransactionBase} {b : Bytes} (h : t.rlp .WithoutSignature = .ok b) :
    t.sha3 C .WithoutSignature = .ok (C.sha3 b, t) := by
  rw [sha3, if_neg (by simp), h, ok_bind]
  rfl

/-- `sender` finds who signed the transaction. -/
theorem sender_of_signer {C : Crypto} {t : TransactionBase} {a : Address} (h : t.signer C = some a) :
    t.bare.sender C = .ok (a, { t.bare with m_sender := a }) := by
  cases hb : t.rlp .WithoutSignature with
  | error e =>
    rw [signer, sha3, if_neg (by simp), hb] at h
    cases h
  | ok b =>
    have hbare : t.bare.rlp .WithoutSignature = .ok b := by rw [rlp, streamRLP_bare, ← rlp, hb]
    rw [signer, sha3_without hb] at h
    rw [sender, if_neg (by simp [bare]), sha3_without hbare]
    cases hr : C.recover t.m_vrs (C.sha3 b) with
    | none =>
      simp [Except.toOption, hr] at h
    | some p =>
      obtain rfl : (C.sha3 p).right160 = a := by simpa [Except.toOption, hr] using h
      have hr' : C.recover t.bare.m_vrs (C.sha3 b) = some p := hr
      simp [liftRlp, Except.mapError, ok_bind, hr', pure_eq_ok]

/-- The transaction that is read from its own encoding. -/
theorem readsAs_written {t : TransactionBase} (ht : t.m_type ≠ .NullTransaction) (hvalid : t.m_vrs.isValid = true)
    (hd : t.m_data.length < 2 ^ 63) : ReadsAs (wire t.written) t.bare (Item.encodeData t.destination) (t.m_vrs.v.toNat + 27) := by
  have hv := v_le_of_isValid hvalid
  have hdest : t.destination.length ≤ 20 := by
    unfold destination
    split <;> simp
  refine ⟨rfl, ?_, ?_, by omega, ?_, rfl, rfl⟩
  · have hint : ∀ x : U256, (numberItem x.toNat).length ≤ 41 := fun x => length_numberItem x.isLt
    have h0 := hint t.m_nonce
    have h1 := hint t.m_gasPrice
    have h2 := hint t.m_gas
    have h3 := (length_encodeData t.destination).2 (by omega)
    have h4 := hint t.m_value
    have h5 := (length_encodeData t.m_data).2 (by omega)
    have h6 : (numberItem (t.m_vrs.v.toNat + 27)).length ≤ 41 := length_numberItem (by omega)
    have h7 := hint t.m_vrs.r.toU256
    have h8 := hint t.m_vrs.s.toU256
    simp only [RLP.Small, items, bare, List.flatten_cons, List.length_append, List.flatten_nil, List.length_nil]
    omega
  · unfold destination bare
    cases hty : t.m_type with
    | NullTransaction => exact absurd hty ht
    | ContractCreation => exact .emptyString
    | MessageCall => exact .address t.m_receiveAddress
  · apply UInt8.toNat_inj.mp
    rw [UInt8.toNat_sub, UInt8.toNat_ofNat']
    show t.m_vrs.v.toNat = (2 ^ 8 - 27 + (t.m_vrs.v.toNat + 27) % 2 ^ 8) % 2 ^ 8
    omega

end TransactionBase

end Webthree
