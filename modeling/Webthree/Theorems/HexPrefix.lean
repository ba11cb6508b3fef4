import Webthree.Lemmas.Fields
import Webthree.Lemmas.TrieCommon
import Webthree.Trie.HexPrefix

/-!
# Keys are read as they were written

Every overload of `hexPrefixEncode` writes the same bytes for the same nibbles, wherever they stand in a buffer, and `keyOf` and `isLeaf`
read back from a node what was written.
-/

namespace Webthree

namespace HexPrefix

/-- A nibble, as a byte. -/
def byteOf (n : Nibble) : UInt8 := UInt8.ofNat n.val

/-- Offsets that are valid for so many nibbles: they stand for the places from `i` to `j`. A negative end counts from behind the last
nibble. -/
structure Offsets (size : Nat) (b e : Int) (i j : Nat) : Prop where
  first : b = i
  last : e = j ∨ e < 0 ∧ size + 1 + e = j
  ordered : i ≤ j
  within : j ≤ size

theorem Offsets.toNat {size : Nat} {b e : Int} {i j : Nat} (h : Offsets size b e i j) :
    b.toNat = i ∧ (if e < 0 then (size : Int) + 1 + e else e).toNat = j := by
  obtain ⟨hfirst, hlast, -, -⟩ := h
  refine ⟨by omega, ?_⟩
  split
  · omega
  · omega

/-! ## Nibbles of a buffer -/

theorem byteOf_low (b : UInt8) : b &&& 15 = byteOf (lowNibble b) := by
  refine UInt8.toNat_inj.mp ?_
  have hmod : b.toNat &&& 15 = b.toNat % 16 := Nat.and_two_pow_sub_one_eq_mod _ 4
  rw [UInt8.toNat_and, byteOf, UInt8.toNat_ofNat']
  simp only [lowNibble, Fin.val_ofNat]
  rw [show (15 : UInt8).toNat = 15 from rfl, hmod]
  omega

theorem byteOf_high (b : UInt8) : b >>> 4 = byteOf (highNibble b) := by
  refine UInt8.toNat_inj.mp ?_
  have hlt := b.toNat_lt
  rw [UInt8.toNat_shiftRight, byteOf, UInt8.toNat_ofNat']
  simp only [highNibble, Fin.val_ofNat]
  rw [show (4 : UInt8).toNat % 8 = 4 from rfl, Nat.shiftRight_eq_div_pow]
  omega

theorem asNibbles_getElem? (data : Bytes) (i : Nat) :
    (asNibbles data)[i]? = data[i / 2]?.map fun b => if i % 2 = 1 then lowNibble b else highNibble b := by
  induction data generalizing i with
  | nil => rfl
  | cons b data ih =>
    match i with
    | 0 => rfl
    | 1 => rfl
    | i + 2 =>
      have hdiv : (i + 2) / 2 = i / 2 + 1 := by omega
      have hmod : (i + 2) % 2 = i % 2 := by omega
      rw [asNibbles, List.getElem?_cons_succ, List.getElem?_cons_succ, ih, hdiv, hmod, List.getElem?_cons_succ]

theorem nibble_eq {data : Bytes} {i : Nat} {n : Nibble} (h : (asNibbles data)[i]? = some n) : nibble data i = .ok (byteOf n) := by
  rw [asNibbles_getElem?] at h
  obtain ⟨b, hb, hn⟩ := Option.map_eq_some_iff.mp h
  have hread : nibble data i = .ok (if i % 2 = 1 then b &&& 15 else b >>> 4) := by
    rw [nibble, byteAt, hb]
    rfl
  rw [hread, ← hn, byteOf_low, byteOf_high, apply_ite byteOf]

/-! ## Writing -/

theorem pushNibble_eq (st : Bytes × Nat) (n : Nibble) :
    ((if st.2 &&& 1 ≠ 0 then st.1.dropLast ++ [st.1.getLastD 0 ||| byteOf n] else st.1 ++ [byteOf n <<< 4]), st.2 + 1) =
      pushNibble st n := by
  have hshift : ∀ n : Nibble, byteOf n <<< 4 = UInt8.ofNat (n.val * 16) := by decide
  rw [pushNibble, hshift, Nat.and_one_is_mod]
  by_cases hodd : st.2 % 2 = 1
  · rw [if_pos hodd, if_pos (by omega)]
    rfl
  · rw [if_neg hodd, if_neg (by omega)]

/-- The loop goes over the nibbles between its ends. -/
theorem nibbleLoop_eq {data : Bytes} {last : Nat} (hlast : last ≤ 2 * data.length) (i : Nat) (st : Bytes × Nat) :
    nibbleLoop data last i st = .ok ((((asNibbles data).take last).drop i).foldl pushNibble st) := by
  induction i, st using nibbleLoop.induct last with
  | case1 i st hlt ih =>
    have hi : i < (asNibbles data).length := by
      rw [length_asNibbles]
      omega
    have hn : (asNibbles data)[i]? = some (asNibbles data)[i] := List.getElem?_eq_getElem hi
    have htake : ((asNibbles data).take last).drop i = (asNibbles data)[i] :: ((asNibbles data).take last).drop (i + 1) := by
      rw [List.drop_eq_getElem_cons (by rw [List.length_take]; omega), List.getElem_take]
    have hnext := ih (byteOf (asNibbles data)[i])
    simp only [dite_eq_ite] at hnext
    rw [pushNibble_eq] at hnext
    rw [nibbleLoop, if_pos hlt, nibble_eq hn, ok_bind]
    dsimp only
    rw [pushNibble_eq, htake, List.foldl_cons, hnext]
  | case2 i st hge =>
    rw [nibbleLoop, if_neg hge, List.drop_eq_nil_of_le (by rw [List.length_take]; omega)]
    rfl

/-- The loop over a nibble vector goes over an even number of them. -/
theorem packLoop_eq {ns : List Nibble} {last : Nat} (hlast : last ≤ ns.length) {i : Nat} (hi : i ≤ last) (heven : (last - i) % 2 = 0)
    (ret : Bytes) : packLoop (ns.map byteOf) last i ret = .ok (ret ++ packAll ((ns.take last).drop i)) := by
  induction i, ret using packLoop.induct last with
  | case1 i ret hlt ih =>
    have hpack : ∀ a b : Nibble, byteOf a * 16 + byteOf b = packNibbles a b := by decide
    have hfst : i < (ns.take last).length := by
      rw [List.length_take]
      omega
    have hsnd : i + 1 < (ns.take last).length := by
      rw [List.length_take]
      omega
    have hread : ∀ j (hj : j < (ns.take last).length), byteAt (ns.map byteOf) j = .ok (byteOf (ns.take last)[j]) := by
      intro j hj
      have hlt : j < ns.length := lt_of_lt_of_le hj (by rw [List.length_take]; omega)
      rw [byteAt, List.getElem?_map, List.getElem?_eq_getElem hlt, List.getElem_take]
      rfl
    rw [packLoop, if_pos hlt, hread i hfst, ok_bind, hread (i + 1) hsnd, ok_bind, ih _ _ (by omega) (by omega), hpack,
      List.drop_eq_getElem_cons hfst, List.drop_eq_getElem_cons hsnd, packAll, List.append_assoc, List.singleton_append]
  | case2 i ret hge =>
    rw [packLoop, if_neg hge, List.drop_eq_nil_of_le (by rw [List.length_take]; omega), packAll, List.append_nil]
    · rfl
    · exact fun _ _ _ h => by cases h

/-- A nibble vector. -/
theorem hexPrefixEncode_eq {ns : List Nibble} {b e : Int} {i j : Nat} (h : Offsets ns.length b e i j) (leaf : Bool) :
    hexPrefixEncode (ns.map byteOf) leaf b e = .ok (hexPrefix ((ns.take j).drop i) leaf) := by
  obtain ⟨hfirst, hlast⟩ := h.toNat
  have hlength : ((ns.take j).drop i).length = j - i := by
    rw [List.length_drop, List.length_take, Nat.min_eq_left h.within]
  rw [hexPrefixEncode, List.length_map, hfirst, hlast]
  by_cases hodd : (j - i) % 2 = 0
  · rw [if_neg (not_not.mpr hodd), packLoop_eq h.within h.ordered hodd]
    rcases hexPrefix_cases ((ns.take j).drop i) leaf with ⟨-, hk⟩ | ⟨n, s, hns, hs, -⟩
    · rw [hk]
      simp [hodd]
    · have hcount := congrArg List.length hns
      rw [hlength, List.length_cons] at hcount
      omega
  · rcases hexPrefix_cases ((ns.take j).drop i) leaf with ⟨heven, -⟩ | ⟨n, s, hns, hs, hk⟩
    · omega
    · have hi : i < (ns.take j).length := by
        rw [List.length_take, Nat.min_eq_left h.within]
        omega
      rw [List.drop_eq_getElem_cons hi] at hns
      obtain ⟨hn, hs'⟩ := List.cons.inj hns
      have hread : byteAt (ns.map byteOf) i = .ok (byteOf n) := by
        have hlt : i < ns.length := lt_of_lt_of_le hi (by rw [List.length_take]; omega)
        rw [byteAt, List.getElem?_map, List.getElem?_eq_getElem hlt, ← hn, List.getElem_take]
        rfl
      rw [if_pos hodd, hread, ok_bind, packLoop_eq h.within (by omega) (by omega), hs', hk]
      simp [hodd, byteOf]

/-- A packed buffer. -/
theorem hexPrefixEncodeRef_eq {data : Bytes} {offset : Nat} (hoffset : offset ≤ 2 * data.length) {b e : Int} {i j : Nat}
    (h : Offsets (2 * data.length - offset) b e i j) (leaf : Bool) :
    hexPrefixEncodeRef data leaf b e offset = .ok (hexPrefix (((NibbleSlice.ofBytes data offset).take j).drop i) leaf) := by
  have hcount : ((data.length * 2 : Nat) : Int) - offset = (2 * data.length - offset : Nat) := by omega
  have hfirst : (b + offset).toNat = i + offset := by
    have := h.first
    omega
  have hlast : ((if e < 0 then ((data.length : Int) * 2 - offset) + 1 + e else e) + offset).toNat = j + offset := by
    obtain ⟨-, hlast, -, hwithin⟩ := h
    split
    · omega
    · omega
  have hslice : ((asNibbles data).take (j + offset)).drop (i + offset) = ((NibbleSlice.ofBytes data offset).take j).drop i := by
    rw [NibbleSlice.ofBytes, List.take_drop, List.drop_drop, Nat.add_comm offset j, Nat.add_comm offset i]
  have hwithin := h.within
  have hlength : (((NibbleSlice.ofBytes data offset).take j).drop i).length = j + offset - (i + offset) := by
    rw [← hslice, List.length_drop, List.length_take, length_asNibbles]
    omega
  have hparity : ((j + offset - (i + offset)) &&& 1 ≠ 0) = ((j + offset - (i + offset)) % 2 = 1) := by
    rw [Nat.and_one_is_mod]
    exact propext (by omega)
  rw [hexPrefixEncodeRef, hfirst, hlast, ← foldl_pushNibble_flags, hlength]
  simp only [hparity]
  rw [nibbleLoop_eq (by omega), ok_bind, hslice]
  rfl

/-- Two packed buffers, one behind the other. -/
theorem hexPrefixEncodeRefs_eq {d1 d2 : Bytes} {o1 o2 : Nat} (h1 : o1 ≤ 2 * d1.length) (h2 : o2 ≤ 2 * d2.length) (leaf : Bool) :
    hexPrefixEncodeRefs d1 o1 d2 o2 leaf = .ok (hexPrefix (NibbleSlice.ofBytes d1 o1 ++ NibbleSlice.ofBytes d2 o2) leaf) := by
  have hslice : ∀ (d : Bytes) (o : Nat), ((asNibbles d).take (d.length * 2)).drop o = NibbleSlice.ofBytes d o := by
    intro d o
    rw [NibbleSlice.ofBytes, List.take_of_length_le (by rw [length_asNibbles]; omega)]
  have hlength : (NibbleSlice.ofBytes d1 o1 ++ NibbleSlice.ofBytes d2 o2).length = d1.length * 2 - o1 + d2.length * 2 - o2 := by
    rw [List.length_append, NibbleSlice.ofBytes, NibbleSlice.ofBytes, List.length_drop, List.length_drop, length_asNibbles,
      length_asNibbles]
    omega
  have hparity : ((d1.length * 2 - o1 + d2.length * 2 - o2) &&& 1 ≠ 0) = ((d1.length * 2 - o1 + d2.length * 2 - o2) % 2 = 1) := by
    rw [Nat.and_one_is_mod]
    exact propext (by omega)
  rw [hexPrefixEncodeRefs, ← foldl_pushNibble_flags, hlength]
  simp only [hparity]
  rw [nibbleLoop_eq (by omega), ok_bind, nibbleLoop_eq (by omega), ok_bind, hslice, hslice, ← List.foldl_append]
  rfl

/-! ## Reading -/

/-- The nibbles that a slice shows. -/
structure Slice.Shows (s : Slice) (k : List Nibble) : Prop where
  size : s.size = k.length
  get : ∀ i n, k[i]? = some n → s.get i = .ok (byteOf n)

theorem Slice.shows_ofBytes (data : Bytes) (offset : Nat) : Slice.Shows ⟨data, offset⟩ (NibbleSlice.ofBytes data offset) := by
  constructor
  · rw [NibbleSlice.ofBytes, List.length_drop, length_asNibbles, Slice.size]
    exact congrArg (· - offset) (Nat.mul_comm data.length 2)
  · intro i n hn
    rw [NibbleSlice.ofBytes, List.getElem?_drop] at hn
    exact nibble_eq hn

theorem byteAt_zero (x : UInt8) (t : Bytes) : byteAt (x :: t) 0 = .ok x := rfl

theorem hexPrefix_cons (k : List Nibble) (leaf : Bool) : ∃ x t, hexPrefix k leaf = x :: t := by
  rcases hexPrefix_cases k leaf with ⟨-, h⟩ | ⟨n, s, -, -, h⟩
  · exact ⟨_, _, h⟩
  · exact ⟨_, _, h⟩

/-- `keyOf` shows the nibbles of the key. -/
theorem keyOfBytes_shows (k : List Nibble) (leaf : Bool) : ∃ s, keyOfBytes (hexPrefix k leaf) = .ok s ∧ s.Shows k := by
  obtain ⟨x, t, h⟩ := hexPrefix_cons k leaf
  have hkey := keyOfBytes_hexPrefix k leaf
  rw [h, Webthree.keyOfBytes] at hkey
  rw [h, keyOfBytes, if_neg (by simp), byteAt_zero, ok_bind]
  by_cases hodd : x &&& 0x10 ≠ 0
  · rw [if_pos hodd] at hkey
    refine ⟨⟨x :: t, 1⟩, ?_, ?_⟩
    · rw [if_pos hodd]
      rfl
    · rw [← hkey]
      exact Slice.shows_ofBytes _ _
  · rw [if_neg hodd] at hkey
    refine ⟨⟨x :: t, 2⟩, ?_, ?_⟩
    · rw [if_neg hodd]
      rfl
    · rw [← hkey]
      exact Slice.shows_ofBytes _ _

/-- A node with a key and something else. -/
def node (hpe : Bytes) (value : Item) : Bytes := (Item.list [.data hpe, value]).encode

theorem node_reads {hpe : Bytes} {value : Item} (hsmall : (node hpe value).length < 2 ^ 64 - 256) :
    ∃ r, RLP.ofRef (.ofBytes (node hpe value)) RLP.VeryStrict = .ok r ∧ RLP.Small hpe ∧
      RLP.ListOf r [Item.encodeData hpe, value.encode] := by
  have hframed := RLP.framed_encode (.list [.data hpe, value]) [] hsmall
  rw [List.append_nil] at hframed
  have hpayload := (RLP.payload_small hsmall).2 _ rfl
  have hflatten : Item.encodeAll [.data hpe, value] = [Item.encodeData hpe, value.encode].flatten := by
    simp only [Item.encodeAll_cons, Item.encodeAll_nil, Item.encode_data, List.flatten_cons, List.flatten_nil]
  rw [hflatten] at hpayload
  have hlength : (Item.encodeData hpe).length + value.encode.length = [Item.encodeData hpe, value.encode].flatten.length := by
    simp only [List.flatten_cons, List.flatten_nil, List.length_append, List.length_nil]
    omega
  have hvalue := Item.encode_length_pos value
  have hkey : RLP.Small hpe := by
    have := (RLP.length_encodeData hpe).1
    rw [RLP.Small]
    omega
  refine ⟨_, RLP.ofRef_ofBytes_ok_iff.mpr ⟨rfl, hframed⟩, hkey, ?_⟩
  refine RLP.listOf_of_bytes (BytesConstRef.valid_ofBytes _) ?_ hpayload ?_
  · intro c hc
    rcases List.mem_cons.mp hc with rfl | hc
    · exact RLP.item_encodeData hkey
    · rw [List.mem_singleton.mp hc]
      have hitem := RLP.framed_encode value [] (by omega)
      rw [List.append_nil] at hitem
      exact ⟨List.ne_nil_of_length_pos hvalue, hitem⟩
  · have hbytes : (BytesConstRef.ofBytes (node hpe value)).toBytes = node hpe value := BytesConstRef.toBytes_ofBytes _
    rw [node, Item.encode_list, hflatten, c_rlpListStart_eq] at hbytes
    exact hbytes

/-- The key of a node, in the notation it was written in. -/
theorem keyPayload_eq {r : RLP} {hpe value : Bytes} (hkey : RLP.Small hpe) (h : RLP.ListOf r [Item.encodeData hpe, value]) :
    keyPayload r = .ok hpe := by
  obtain ⟨x, hx, hv, hb, -⟩ := h.index 0
  obtain ⟨-, -, -, -, -, p, hp, hpb, -, -⟩ := RLP.string_queries hv hkey hb
  have hindex : liftRlp (r.index 0) = .ok x := by
    rw [hx]
    rfl
  have hpayload : liftRlp x.payload = .ok p := by
    rw [hp]
    rfl
  rw [keyPayload, hindex, ok_bind, hpayload, ok_bind, hpb]
  rfl

/-- `isLeaf` is the flag of the key. -/
theorem isLeaf_eq {r : RLP} {k : List Nibble} {leaf : Bool} {value : Bytes} (hkey : RLP.Small (hexPrefix k leaf))
    (h : RLP.ListOf r [Item.encodeData (hexPrefix k leaf), value]) : isLeaf r = .ok leaf := by
  obtain ⟨x, t, hcons⟩ := hexPrefix_cons k leaf
  have hflag := hexPrefix_leaf k leaf
  have hcount : liftRlp r.itemCount = .ok 2 := by
    rw [h.itemCount]
    rfl
  rw [isLeaf, hcount, ok_bind, if_pos ⟨h.isList, rfl⟩, keyPayload_eq hkey h, ok_bind, hcons, byteAt_zero, ok_bind]
  rw [hcons, List.headD_cons] at hflag
  refine congrArg Except.ok ?_
  cases leaf with
  | false => exact decide_eq_false fun hx => nomatch hflag.mp hx
  | true => exact decide_eq_true (hflag.mpr rfl)

/-! ## The coding -/

/-- The bytes of a key and a flag. Every overload writes them wherever it is shown these nibbles, `keyOf` and `isLeaf` read the key and the
flag from a node, and no other pair has them. -/
theorem hexPrefix_coding (k : List Nibble) (leaf : Bool) : ∃ hpe,
    (∀ (ns : List Nibble) b e i j, Offsets ns.length b e i j → (ns.take j).drop i = k → hexPrefixEncode (ns.map byteOf) leaf b e = .ok hpe) ∧
    (∀ (data : Bytes) offset b e i j, offset ≤ 2 * data.length → Offsets (2 * data.length - offset) b e i j →
      ((NibbleSlice.ofBytes data offset).take j).drop i = k → hexPrefixEncodeRef data leaf b e offset = .ok hpe) ∧
    (∀ (d1 : Bytes) o1 (d2 : Bytes) o2, o1 ≤ 2 * d1.length → o2 ≤ 2 * d2.length → NibbleSlice.ofBytes d1 o1 ++ NibbleSlice.ofBytes d2 o2 = k →
      hexPrefixEncodeRefs d1 o1 d2 o2 leaf = .ok hpe) ∧
    (∃ s, keyOfBytes hpe = .ok s ∧ s.Shows k) ∧
    (∀ value, (node hpe value).length < 2 ^ 64 - 256 → ∃ r s, RLP.ofRef (.ofBytes (node hpe value)) RLP.VeryStrict = .ok r ∧
      isLeaf r = .ok leaf ∧ keyOf r = .ok s ∧ s.Shows k) ∧
    ∀ (k' : List Nibble) leaf', hexPrefixEncode (k'.map byteOf) leaf' 0 (-1) = .ok hpe → k' = k ∧ leaf' = leaf := by
  refine ⟨hexPrefix k leaf, ?_, ?_, ?_, keyOfBytes_shows k leaf, ?_, ?_⟩
  · rintro ns b e i j h rfl
    exact hexPrefixEncode_eq h leaf
  · rintro data offset b e i j hoffset h rfl
    exact hexPrefixEncodeRef_eq hoffset h leaf
  · rintro d1 o1 d2 o2 h1 h2 rfl
    exact hexPrefixEncodeRefs_eq h1 h2 leaf
  · intro value hsmall
    obtain ⟨r, hr, hkey, hlist⟩ := node_reads hsmall
    obtain ⟨s, hs, hshows⟩ := keyOfBytes_shows k leaf
    refine ⟨r, s, hr, isLeaf_eq hkey hlist, ?_, hshows⟩
    rw [keyOf, keyPayload_eq hkey hlist, ok_bind, hs]
  · intro k' leaf' h
    have hall : Offsets k'.length 0 (-1) 0 k'.length := ⟨rfl, .inr ⟨by omega, by omega⟩, Nat.zero_le _, Nat.le_refl _⟩
    rw [hexPrefixEncode_eq hall, List.take_length, List.drop_zero] at h
    have hsame := Except.ok.inj h
    have hk := keyOfBytes_hexPrefix k' leaf'
    have hleaf := hexPrefix_leaf k' leaf'
    rw [hsame, keyOfBytes_hexPrefix] at hk
    rw [hsame, hexPrefix_leaf] at hleaf
    exact ⟨hk.symm, Bool.eq_iff_iff.mpr hleaf.symm⟩

theorem hexPrefix_coding_odd : ∃ hpe, hexPrefixEncode [0, 1, 2, 3] true 1 (-1) = .ok hpe ∧
    hexPrefixEncodeRef [0x01, 0x23] true 0 (-1) 1 = .ok hpe ∧ hexPrefixEncodeRefs [0x01] 1 [0x23] 0 true = .ok hpe ∧
    ∃ r s, RLP.ofRef (.ofBytes (node hpe (.data []))) RLP.VeryStrict = .ok r ∧ isLeaf r = .ok true ∧ keyOf r = .ok s ∧
      s.Shows [1, 2, 3] := by
  obtain ⟨hpe, hvector, hpacked, hboth, -, hnode, -⟩ := hexPrefix_coding [1, 2, 3] true
  have h := hvector [0, 1, 2, 3] 1 (-1) 1 4 ⟨rfl, .inr ⟨by decide, rfl⟩, by decide, by decide⟩ rfl
  have hbytes : hpe = [0x31, 0x23] := Except.ok.inj (h.symm.trans (by decide +kernel))
  refine ⟨hpe, h, ?_, hboth [0x01] 1 [0x23] 0 (by decide) (by decide) rfl, hnode (.data []) ?_⟩
  · exact hpacked [0x01, 0x23] 1 0 (-1) 0 3 (by decide) ⟨rfl, .inr ⟨by decide, rfl⟩, by decide, by decide⟩ rfl
  · rw [hbytes, node]
    simp [Item.encodeData, Item.header, c_rlpDataImmLenStart_eq]

end HexPrefix

end Webthree
