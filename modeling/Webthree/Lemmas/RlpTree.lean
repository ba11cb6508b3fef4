import Webthree.Lemmas.RlpReader
import Webthree.Rlp.Stream

/-!
# Reading and writing a tree

The iterator stands at the first item of what is left of the payload (`iterAt`), so that one induction over the items reads a
list forwards (what was encoded is read back) and one over the fuel reads it backwards (what was read is what was encoded).
-/

namespace Webthree

namespace RLP

/-! ## An encoded item as the first item of a reference -/

/-- A byte string is encoded as itself, when it is one byte below `0x80`, or behind its header. -/
theorem encodeData_cases (b : Bytes) :
    (∃ x, b = [x] ∧ x.toNat < 0x80 ∧ Item.encodeData b = [x]) ∨
      (Item.encodeData b = Item.header 0x80 b.length ++ b ∧ ∀ x, b = [x] → 0x80 ≤ x.toNat) := by
  unfold Item.encodeData
  split
  · rename_i x
    rw [c_rlpDataImmLenStart_eq]
    split
    · rename_i hx
      exact Or.inl ⟨x, rfl, hx, rfl⟩
    · rename_i hx
      exact Or.inr ⟨rfl, fun y hy => by cases hy; omega⟩
  · rename_i hb
    rw [c_rlpDataImmLenStart_eq]
    exact Or.inr ⟨rfl, fun x hx => absurd hx (hb x)⟩

theorem headed_data {b : Bytes} (h : b.length < 2 ^ 64 - 1 - 0x100) (hs : ∀ x, b = [x] → 0x80 ≤ x.toNat) (rest : Bytes) :
    Headed (Item.header 0x80 b.length ++ b ++ rest) 0x80 b.length (b ++ rest) := by
  refine ⟨by simp, .inl rfl, h, ?_, by simp⟩
  intro _ h1 x s hx
  obtain ⟨y, rfl⟩ := List.length_eq_one_iff.mp h1
  rw [List.singleton_append, List.cons.injEq] at hx
  exact hx.1 ▸ hs y rfl

theorem headed_list (l : List Item) (h : (Item.encodeAll l).length < 2 ^ 64 - 1 - 0x100) (rest : Bytes) :
    Headed ((Item.list l).encode ++ rest) 0xc0 (Item.encodeAll l).length (Item.encodeAll l ++ rest) :=
  ⟨by rw [Item.encode_list, c_rlpListStart_eq]; simp, .inr rfl, h, by omega, by simp⟩

/-- What is small enough for the reader is so inside as well. -/
theorem payload_small {x : Item} (h : x.encode.length < 2 ^ 64 - 256) :
    (∀ b, x = .data b → b.length < 2 ^ 64 - 1 - 0x100) ∧
      (∀ l, x = .list l → (Item.encodeAll l).length < 2 ^ 64 - 1 - 0x100) := by
  constructor
  · rintro b rfl
    rw [Item.encode_data] at h
    rcases encodeData_cases b with ⟨y, rfl, -, -⟩ | ⟨he, -⟩
    · simp
    · have := Item.header_length_pos 0x80 b.length
      rw [he, List.length_append] at h
      omega
  · rintro l rfl
    have := Item.header_length_pos c_rlpListStart (Item.encodeAll l).length
    rw [Item.encode_list, List.length_append] at h
    omega

/-- An encoded item is the first item of what starts with it. -/
theorem framed_encode (x : Item) (rest : Bytes) (h : x.encode.length < 2 ^ 64 - 256) :
    Framed (x.encode ++ rest) x.encode.length := by
  obtain ⟨hd, hl⟩ := payload_small h
  cases x with
  | data b =>
    rw [Item.encode_data]
    rcases encodeData_cases b with ⟨y, rfl, hy, he⟩ | ⟨he, hs⟩
    · rw [he]
      exact .single y rest rfl hy
    · rw [he, List.length_append]
      exact .headed 0x80 _ _ (headed_data (hd b rfl) hs rest)
  | list l =>
    have hh := Framed.headed _ _ _ (headed_list l (hl l rfl) rest)
    rwa [← List.length_append, ← c_rlpListStart_eq, ← Item.encode_list] at hh

/-- The first item of a reference has one size. -/
theorem Framed.unique {d : Bytes} {n m : Nat} (hn : Framed d n) (hm : Framed d m) : n = m := by
  have hv := BytesConstRef.valid_ofBytes d
  rw [← BytesConstRef.toBytes_ofBytes d] at hn hm
  have h1 := (actualSize_ok_iff (r := ⟨.ofBytes d⟩) hv n).mpr hn
  have h2 := (actualSize_ok_iff (r := ⟨.ofBytes d⟩) hv m).mpr hm
  exact Except.ok.inj (h1.1.symm.trans h2.1)

theorem Framed.le_length {d : Bytes} {n : Nat} (hn : Framed d n) : n ≤ d.length := by
  cases hn with
  | null hd => simp
  | single x t hd _ => simp [hd]
  | headed start len t hh =>
    have := hh.behind
    rw [hh.bytes, List.length_append]
    omega

theorem Framed.pos {d : Bytes} {n : Nat} (hn : Framed d n) (hd : d ≠ []) : 0 < n := by
  cases hn with
  | null h => exact absurd h hd
  | single => exact Nat.one_pos
  | headed start len => have := Item.header_length_pos start len; omega

/-- The size of the first item does not depend on what is behind it. -/
theorem Framed.take {d : Bytes} {n : Nat} (hn : Framed d n) : Framed (d.take n) n := by
  cases hn with
  | null hd => exact .null (by simp)
  | single x t hd hx => exact .single x [] (by simp [hd]) hx
  | headed start len t hh =>
    have hb := hh.behind
    refine .headed start len (t.take len) ⟨?_, hh.start_cases, hh.small, ?_, by rw [List.length_take]; omega⟩
    · conv_lhs => rw [hh.bytes]
      rw [List.take_append, List.take_of_length_le (by omega), Nat.add_sub_cancel_left]
    · intro hs h1 x s hx
      subst h1
      cases t with
      | nil => simp at hx
      | cons y u =>
        rw [List.take_succ_cons, List.cons.injEq] at hx
        exact hx.1 ▸ hh.single hs rfl y u rfl

/-! ## The payload -/

theorem isData_iff {r : RLP} (hv : r.m_data.Valid) {x : UInt8} {t : Bytes} (hd : r.m_data.toBytes = x :: t) :
    r.isData = true ↔ x.toNat < 0xc0 := by
  rw [RLP.isData, not_isNull hv hd, get_zero hd, c_rlpListStart_eq]
  simp

theorem isList_iff {r : RLP} (hv : r.m_data.Valid) {x : UInt8} {t : Bytes} (hd : r.m_data.toBytes = x :: t) :
    r.isList = true ↔ 0xc0 ≤ x.toNat := by
  rw [RLP.isList, not_isNull hv hd, get_zero hd, c_rlpListStart_eq]
  simp

/-- The payload behind a header: a part of the reference, which sees the payload. -/
theorem Headed.payload {r : RLP} (hv : r.m_data.Valid) {start len : Nat} {t : Bytes}
    (h : Headed r.m_data.toBytes start len t) :
    r.payload = .ok ⟨r.m_data.mem, r.m_data.m_data + (Item.header start len).length, len⟩ ∧
      (⟨r.m_data.mem, r.m_data.m_data + (Item.header start len).length, len⟩ : BytesConstRef).Valid ∧
      (⟨r.m_data.mem, r.m_data.m_data + (Item.header start len).length, len⟩ : BytesConstRef).toBytes = t.take len := by
  obtain ⟨hl, ho⟩ := h.length_eq hv
  have hb := h.behind
  have hc := hv.length_toBytes
  rw [h.bytes, List.length_append] at hc
  obtain ⟨h1, h2⟩ := hv.sub (b := (Item.header start len).length) (n := len) (by omega)
  refine ⟨?_, h1, ?_⟩
  · rw [RLP.payload, hl, ok_bind, ho, if_neg (by rw [BytesConstRef.size]; omega), BytesConstRef.cropped_eq (by omega)]
    rfl
  · rw [h2, h.bytes, List.drop_left]

/-- `toBytes` of a string is its payload. -/
theorem toBytes_headed {r : RLP} (hv : r.m_data.Valid) {len : Nat} {t : Bytes}
    (h : Headed r.m_data.toBytes 0x80 len t) : r.toBytes = .ok (t.take len) := by
  obtain ⟨x, u, hd, -, hx⟩ := h.cons
  obtain ⟨hp, -, ht⟩ := h.payload hv
  rw [RLP.toBytes, (isData_iff hv hd).mpr (hx.mp rfl), hp, (h.length_eq hv).1]
  simp only [if_true, ok_bind, pure_eq_ok, BytesConstRef.retarget]
  rw [ht]

theorem length_single {r : RLP} (hv : r.m_data.Valid) {x : UInt8} {t : Bytes} (hd : r.m_data.toBytes = x :: t)
    (hx : x.toNat < 0x80) : r.length = .ok 1 ∧ r.payloadOffset = 0 := by
  have hnn := not_isNull hv hd
  have hg : r.requireGood = .ok () := by
    rw [RLP.requireGood, hnn, get_zero hd, c_rlpDataImmLenStart_eq]
    simp only [Bool.false_eq_true, if_false, ne_eq, show x.toNat ≠ 0x81 by omega, not_false_eq_true, if_true, pure_eq_ok]
  rw [length_def r hnn, payloadOffset_def r hnn, hg, ok_bind, get_zero hd, if_pos hx, if_pos hx]
  exact ⟨rfl, rfl⟩

theorem toBytes_single {r : RLP} (hv : r.m_data.Valid) {x : UInt8} {t : Bytes} (hd : r.m_data.toBytes = x :: t)
    (hx : x.toNat < 0x80) : r.toBytes = .ok [x] := by
  obtain ⟨hl, ho⟩ := length_single hv hd hx
  have hc := hv.length_toBytes
  rw [hd, List.length_cons] at hc
  have hsub := (hv.sub (b := 0) (n := 1) (by omega)).2
  rw [RLP.toBytes, (isData_iff hv hd).mpr (by omega), RLP.payload, hl]
  simp only [if_true, ok_bind, ho]
  rw [if_neg (by rw [BytesConstRef.size]; omega), BytesConstRef.cropped_eq (by omega)]
  simp only [pure_eq_ok, ok_bind, BytesConstRef.retarget]
  rw [hsub, hd]
  rfl

/-! ## The iterator -/

/-- An iterator at the first item of what is left of a payload. -/
def iterAt (rest : BytesConstRef) : Except RLPError Iterator := do
  let n ← sizeAsEncoded rest
  pure ⟨rest.size - n, ⟨rest.mem, rest.m_data, n⟩⟩

theorem cropped_framed {rest : BytesConstRef} (hv : rest.Valid) {n : Nat} (h : Framed rest.toBytes n) :
    rest.cropped 0 n = ⟨rest.mem, rest.m_data, n⟩ := by
  have := h.le_length
  rw [hv.length_toBytes] at this
  rw [BytesConstRef.cropped_eq (by omega)]
  rfl

/-- `begin()` of a list stands at the first item of the payload. -/
theorem begin_eq {r : RLP} (hl : r.isList = true) {pl : BytesConstRef} (hp : r.payload = .ok pl) (hv : pl.Valid) :
    r.begin = iterAt pl := by
  rw [RLP.begin, if_pos hl, hp, ok_bind, iterAt]
  cases hs : sizeAsEncoded pl with
  | error e => rfl
  | ok n =>
    have hf := (sizeAsEncoded_ok_iff hv n).mp hs
    simp only [ok_bind, cropped_framed hv hf, BytesConstRef.size]

/-- `operator++` stands at the first item of what is left behind the current one. -/
theorem next_eq (it : Iterator)
    (hv : (⟨it.m_currentItem.mem, it.m_currentItem.m_data + it.m_currentItem.m_count, it.m_remaining⟩ : BytesConstRef).Valid) :
    it.next = iterAt ⟨it.m_currentItem.mem, it.m_currentItem.m_data + it.m_currentItem.m_count, it.m_remaining⟩ := by
  rw [Iterator.next, iterAt]
  simp only [BytesConstRef.next, BytesConstRef.retarget]
  split
  · rename_i hne
    cases hs : sizeAsEncoded ⟨it.m_currentItem.mem, it.m_currentItem.m_data + it.m_currentItem.m_count, it.m_remaining⟩ with
    | error e => rfl
    | ok n =>
      have hf := (sizeAsEncoded_ok_iff hv n).mp hs
      have hle := hf.le_length
      rw [hv.length_toBytes] at hle
      simp only at hle
      simp only [ok_bind, cropped_framed hv hf, BytesConstRef.size, Nat.min_eq_right hle]
  · rename_i hz
    rw [not_not] at hz
    have hnil : (⟨it.m_currentItem.mem, it.m_currentItem.m_data + it.m_currentItem.m_count, it.m_remaining⟩ :
        BytesConstRef).toBytes = [] := by simp [BytesConstRef.toBytes, hz]
    rw [(sizeAsEncoded_ok_iff hv 0).mpr (.null hnil), ok_bind, hz]
    rfl

/-- The place behind a payload, where iteration stops. -/
def endOf (rest : BytesConstRef) : Iterator := ⟨0, ⟨rest.mem, rest.m_data + rest.m_count, 0⟩⟩

/-- Where the iteration over what is left of a payload stops, or goes on with the first item and what is behind it. -/
theorem iterAt_cases {rest : BytesConstRef} (hv : rest.Valid) {it : Iterator} (h : iterAt rest = .ok it) :
    (rest.toBytes = [] ∧ it.same (endOf rest) = true) ∨
      ∃ n, 0 < n ∧ n ≤ rest.m_count ∧ Framed rest.toBytes n ∧ it.same (endOf rest) = false ∧
        it.m_currentItem = ⟨rest.mem, rest.m_data, n⟩ ∧
        (⟨rest.mem, rest.m_data, n⟩ : BytesConstRef).Valid ∧
        (⟨rest.mem, rest.m_data, n⟩ : BytesConstRef).toBytes = rest.toBytes.take n ∧
        (⟨rest.mem, rest.m_data + n, rest.m_count - n⟩ : BytesConstRef).Valid ∧
        (⟨rest.mem, rest.m_data + n, rest.m_count - n⟩ : BytesConstRef).toBytes = rest.toBytes.drop n ∧
        it.next = iterAt ⟨rest.mem, rest.m_data + n, rest.m_count - n⟩ ∧
        endOf ⟨rest.mem, rest.m_data + n, rest.m_count - n⟩ = endOf rest := by
  rw [iterAt, bind_eq_ok] at h
  obtain ⟨n, hs, hit⟩ := h
  obtain rfl := Except.ok.inj hit
  have hf := (sizeAsEncoded_ok_iff hv n).mp hs
  have hle := hf.le_length
  rw [hv.length_toBytes] at hle
  by_cases hnil : rest.toBytes = []
  · have hc : rest.m_count = 0 := by rw [← hv.length_toBytes, hnil]; rfl
    have hn : n = 0 := by omega
    exact Or.inl ⟨hnil, by simp [Iterator.same, endOf, hc, hn]⟩
  · have hpos := hf.pos hnil
    have h1 := hv.sub (b := 0) (n := n) (by omega)
    have h2 := hv.sub (b := n) (n := rest.m_count - n) (by omega)
    refine Or.inr ⟨n, hpos, hle, hf, ?_, rfl, h1.1, h1.2, h2.1, ?_, ?_, ?_⟩
    · rw [Iterator.same]
      exact decide_eq_false (fun h0 => by simp only [endOf] at h0; omega)
    · rw [h2.2, List.take_of_length_le]
      rw [List.length_drop, hv.length_toBytes]
    · exact next_eq _ h2.1
    · simp only [endOf]
      congr 2
      omega

/-- The place behind the payload of a list that fills its reference is the end of the reference. -/
theorem end_eq_endOf {r : RLP} (hv : r.m_data.Valid) {len : Nat}
    (hn : r.m_data.toBytes.length = (Item.header 0xc0 len).length + len) :
    r.end = endOf ⟨r.m_data.mem, r.m_data.m_data + (Item.header 0xc0 len).length, len⟩ := by
  have hc := hv.length_toBytes
  simp only [RLP.end, BytesConstRef.croppedFrom, BytesConstRef.size, endOf, Nat.le_refl, if_true, Nat.sub_self,
    Nat.add_assoc, ← hc, hn]

/-! ## What was encoded is read back -/

/-- Reading a reference to the encoding of an item. -/
def Reads (x : Item) : Prop :=
  ∀ (r : RLP) (fuel : Nat), r.m_data.Valid → r.m_data.toBytes = x.encode → 2 * r.m_data.m_count ≤ fuel →
    readTree fuel r = .ok x

theorem reads_data (b : Bytes) (h : (Item.data b).encode.length < 2 ^ 64 - 256) : Reads (.data b) := by
  intro r fuel hv hd hfuel
  have hsm := (payload_small h).1 b rfl
  have hpos := Item.encode_length_pos (.data b)
  rw [← hd, hv.length_toBytes] at hpos
  obtain ⟨n, rfl⟩ : ∃ n, fuel = n + 1 := ⟨fuel - 1, by omega⟩
  rw [Item.encode_data] at hd
  rw [readTree]
  rcases encodeData_cases b with ⟨x, rfl, hx, he⟩ | ⟨he, hs⟩
  · rw [he] at hd
    rw [(isData_iff hv hd).mpr (by omega), toBytes_single hv hd hx]
    rfl
  · have hh := headed_data hsm hs []
    rw [List.append_nil, ← he, ← hd, List.append_nil] at hh
    obtain ⟨x, u, hxu, -, hx⟩ := hh.cons
    rw [(isData_iff hv hxu).mpr (hx.mp rfl), toBytes_headed hv hh, List.take_of_length_le (Nat.le_refl _)]
    rfl

/-- Iterating over what is left of a payload reads the items encoded there. -/
theorem readItems_encodeAll (l : List Item) (hl : ∀ x ∈ l, Reads x ∧ x.encode.length < 2 ^ 64 - 256) :
    ∀ (rest : BytesConstRef) (fuel : Nat), rest.Valid → rest.toBytes = Item.encodeAll l →
      2 * rest.m_count + 1 ≤ fuel → ∃ it, iterAt rest = .ok it ∧ readItems fuel it (endOf rest) = .ok l := by
  induction l with
  | nil =>
    intro rest fuel hv hd hfuel
    obtain ⟨n, rfl⟩ : ∃ n, fuel = n + 1 := ⟨fuel - 1, by omega⟩
    rw [Item.encodeAll_nil] at hd
    have hs := (sizeAsEncoded_ok_iff hv 0).mpr (.null hd)
    have hit : iterAt rest = .ok ⟨rest.size - 0, ⟨rest.mem, rest.m_data, 0⟩⟩ := by rw [iterAt, hs]; rfl
    refine ⟨_, hit, ?_⟩
    rcases iterAt_cases hv hit with ⟨-, hsame⟩ | ⟨k, hk, -, hf, -⟩
    · rw [readItems, hsame]
      rfl
    · have := hf.le_length
      rw [hd, List.length_nil] at this
      omega
  | cons x xs ih =>
    intro rest fuel hv hd hfuel
    obtain ⟨n, rfl⟩ : ∃ n, fuel = n + 1 := ⟨fuel - 1, by omega⟩
    obtain ⟨hx, hsm⟩ := hl x List.mem_cons_self
    rw [Item.encodeAll_cons] at hd
    have hfr : Framed rest.toBytes x.encode.length := by rw [hd]; exact framed_encode x _ hsm
    have hs := (sizeAsEncoded_ok_iff hv _).mpr hfr
    have hit : iterAt rest = .ok ⟨rest.size - x.encode.length, ⟨rest.mem, rest.m_data, x.encode.length⟩⟩ := by
      rw [iterAt, hs]; rfl
    refine ⟨_, hit, ?_⟩
    have hpos := Item.encode_length_pos x
    rcases iterAt_cases hv hit with ⟨hnil, -⟩ | ⟨k, hk, hkle, hf, hsame, hcur, hcv, hcb, hnv, hnb, hnext, hend⟩
    · have := hfr.le_length
      rw [hnil, List.length_nil] at this
      omega
    · obtain rfl := hf.unique hfr
      rw [hd, List.take_left] at hcb
      rw [hd, List.drop_left] at hnb
      have hderef : Iterator.deref ⟨rest.size - x.encode.length, ⟨rest.mem, rest.m_data, x.encode.length⟩⟩ =
          .ok ⟨⟨rest.mem, rest.m_data, x.encode.length⟩⟩ := by
        rw [Iterator.deref, ofRef_veryStrict_ok_iff hcv]
        refine ⟨rfl, ?_⟩
        have := framed_encode x [] hsm
        rw [hcb]
        simpa [BytesConstRef.size] using this
      have hread := hx ⟨⟨rest.mem, rest.m_data, x.encode.length⟩⟩ n hcv hcb (by simp only; omega)
      obtain ⟨it', hit', hrest⟩ := ih (fun y hy => hl y (List.mem_cons_of_mem x hy)) _ n hnv hnb (by simp only; omega)
      rw [readItems, hsame, hderef, ok_bind, hread, ok_bind, hnext, hit', ok_bind, ← hend, hrest]
      rfl

/-- Every item small enough for the reader is read back from its encoding. -/
theorem reads (x : Item) : x.encode.length < 2 ^ 64 - 256 → Reads x := by
  induction x using Item.induction with
  | hdata b => exact reads_data b
  | hlist l ih =>
    intro h r fuel hv hd hfuel
    have hsm := (payload_small h).2 l rfl
    have hh := headed_list l hsm []
    rw [List.append_nil, List.append_nil, ← hd] at hh
    obtain ⟨x, u, hxu, -, hx⟩ := hh.cons
    have hnd : ¬x.toNat < 0xc0 := fun hlt => absurd (hx.mpr hlt) (by omega)
    have hdata : r.isData = false := by
      rw [Bool.eq_false_iff, Ne, isData_iff hv hxu]
      exact hnd
    have hlist : r.isList = true := (isList_iff hv hxu).mpr (by omega)
    obtain ⟨hp, hpv, hpb⟩ := hh.payload hv
    rw [List.take_of_length_le (Nat.le_refl _)] at hpb
    have hlen := hv.length_toBytes
    rw [hd, Item.encode_list, List.length_append, c_rlpListStart_eq] at hlen
    have hhp := Item.header_length_pos 0xc0 (Item.encodeAll l).length
    obtain ⟨n, rfl⟩ : ∃ n, fuel = n + 1 := ⟨fuel - 1, by omega⟩
    have hmem : ∀ y ∈ l, Reads y ∧ y.encode.length < 2 ^ 64 - 256 := by
      intro y hy
      have := Item.encode_length_le_encodeAll hy
      exact ⟨ih y hy (by omega), by omega⟩
    obtain ⟨it, hit, hrest⟩ := readItems_encodeAll l hmem _ n hpv hpb (by simp only; omega)
    rw [readTree, hdata, hlist, begin_eq hlist hp hpv, hit, end_eq_endOf hv (hv.length_toBytes.trans hlen.symm)]
    simp only [Bool.false_eq_true, if_false, if_true, ok_bind]
    rw [hrest]
    rfl

/-! ## What was read is what was encoded -/

/-- A whole reference that is read as one item is the encoding of the item, at every depth the fuel reaches. -/
theorem encode_of_read (fuel : Nat) :
    (∀ (r : RLP) (x : Item), r.m_data.Valid → Framed r.m_data.toBytes r.m_data.size → readTree fuel r = .ok x →
        r.m_data.toBytes = x.encode) ∧
      (∀ (rest : BytesConstRef) (it : Iterator) (l : List Item), rest.Valid → iterAt rest = .ok it →
        readItems fuel it (endOf rest) = .ok l → rest.toBytes = Item.encodeAll l) := by
  induction fuel with
  | zero =>
    refine ⟨fun r x _ _ h => ?_, fun rest it l _ _ h => ?_⟩
    · rw [readTree] at h; cases h
    · rw [readItems] at h; cases h
  | succ n ih =>
    refine ⟨fun r x hv hf h => ?_, fun rest it l hv hit h => ?_⟩
    · rw [readTree] at h
      rw [size_eq hv] at hf
      generalize hn : r.m_data.toBytes.length = m at hf
      cases hf with
      | null hd =>
        have hnull : r.isNull = true := (isNull_iff r hv).mpr hd
        simp [RLP.isData, RLP.isList, hnull, throw_eq_error] at h
      | single y t hd hy =>
        rw [(isData_iff hv hd).mpr (by omega), toBytes_single hv hd hy] at h
        obtain rfl := Except.ok.inj h
        have ht : t = [] := by
          rw [hd, List.length_cons] at hn
          exact List.length_eq_zero_iff.mp (by omega)
        rw [hd, ht, Item.encode_data, Item.encodeData, c_rlpDataImmLenStart_eq, if_pos hy]
      | headed start len t hh =>
        obtain ⟨y, u, hd, -, hy⟩ := hh.cons
        have ht : t.length = len := by
          rw [hh.bytes, List.length_append] at hn
          omega
        obtain ⟨hp, hpv, hpb⟩ := hh.payload hv
        rw [List.take_of_length_le (by omega)] at hpb
        rcases hh.start_cases with rfl | rfl
        · rw [(isData_iff hv hd).mpr (hy.mp rfl), toBytes_headed hv hh, List.take_of_length_le (by omega)] at h
          obtain rfl := Except.ok.inj h
          rw [Item.encode_data]
          rcases encodeData_cases t with ⟨z, rfl, hz, -⟩ | ⟨he, -⟩
          · have := hh.single rfl ht.symm z [] rfl
            omega
          · rw [he, ht]
            exact hh.bytes
        · have hnd : ¬y.toNat < 0xc0 := fun hlt => absurd (hy.mpr hlt) (by omega)
          have hdata : r.isData = false := by
            rw [Bool.eq_false_iff, Ne, isData_iff hv hd]
            exact hnd
          have hlist : r.isList = true := (isList_iff hv hd).mpr (by omega)
          rw [hdata, hlist, begin_eq hlist hp hpv] at h
          simp only [Bool.false_eq_true, if_false, if_true, bind_eq_ok] at h
          obtain ⟨it, hit, l, hl, hx⟩ := h
          obtain rfl := Except.ok.inj hx
          rw [end_eq_endOf hv hn] at hl
          have hb := ih.2 _ it l hpv hit hl
          rw [hpb] at hb
          subst hb
          rw [Item.encode_list, c_rlpListStart_eq, ht]
          exact hh.bytes
    · rw [readItems] at h
      rcases iterAt_cases hv hit with ⟨hnil, hsame⟩ | ⟨k, hk, hkle, hf, hsame, hcur, hcv, hcb, hnv, hnb, hnext, hend⟩
      · rw [hsame] at h
        obtain rfl := Except.ok.inj h
        rw [hnil, Item.encodeAll_nil]
      · rw [hsame] at h
        simp only [Bool.false_eq_true, if_false, bind_eq_ok] at h
        obtain ⟨r, hr, x, hx, it', hit', xs, hxs, hl⟩ := h
        obtain rfl := Except.ok.inj hl
        rw [Iterator.deref, hcur, ofRef_veryStrict_ok_iff hcv] at hr
        obtain ⟨rfl, hfr⟩ := hr
        have hxe := ih.1 _ x hcv hfr hx
        rw [hnext] at hit'
        rw [← hend] at hxs
        have hxse := ih.2 _ it' xs hnv hit' hxs
        rw [hcb] at hxe
        rw [hnb] at hxse
        rw [Item.encodeAll_cons, ← hxe, ← hxse, List.take_append_drop]

/-! ## The fuel is enough -/

/-- More fuel than two for each byte reads nothing else. -/
theorem readTree_fuel (fuel : Nat) :
    (∀ r : RLP, r.m_data.Valid → Framed r.m_data.toBytes r.m_data.size → 2 * r.m_data.m_count + 1 ≤ fuel →
        readTree (fuel + 1) r = readTree fuel r) ∧
      (∀ (rest : BytesConstRef) (it : Iterator), rest.Valid → iterAt rest = .ok it → 2 * rest.m_count + 2 ≤ fuel →
        readItems (fuel + 1) it (endOf rest) = readItems fuel it (endOf rest)) := by
  induction fuel with
  | zero => exact ⟨fun r _ _ h => by omega, fun rest it _ _ h => by omega⟩
  | succ n ih =>
    refine ⟨fun r hv hf hle => ?_, fun rest it hv hit hle => ?_⟩
    · rw [readTree, readTree]
      rw [size_eq hv] at hf
      generalize hn : r.m_data.toBytes.length = m at hf
      cases hf with
      | null hd =>
        have hnull : r.isNull = true := (isNull_iff r hv).mpr hd
        simp [RLP.isData, RLP.isList, hnull]
      | single y t hd hy => rw [(isData_iff hv hd).mpr (by omega), if_pos rfl, if_pos rfl]
      | headed start len t hh =>
        obtain ⟨y, u, hd, -, hy⟩ := hh.cons
        rcases hh.start_cases with rfl | rfl
        · rw [(isData_iff hv hd).mpr (hy.mp rfl), if_pos rfl, if_pos rfl]
        · obtain ⟨hp, hpv, -⟩ := hh.payload hv
          by_cases hlist : r.isList = true
          · have hc := hv.length_toBytes
            have hpos := Item.header_length_pos 0xc0 len
            rw [begin_eq hlist hp hpv, end_eq_endOf hv hn]
            cases hit : iterAt ⟨r.m_data.mem, r.m_data.m_data + (Item.header 0xc0 len).length, len⟩ with
            | error e => rfl
            | ok it => rw [ok_bind, ok_bind, ih.2 _ it hpv hit (by simp only; omega)]
          · rw [if_neg hlist, if_neg hlist]
    · rw [readItems, readItems]
      rcases iterAt_cases hv hit with ⟨hnil, hsame⟩ | ⟨k, hk, hkle, hf, hsame, hcur, hcv, hcb, hnv, hnb, hnext, hend⟩
      · rw [hsame, if_pos rfl, if_pos rfl]
      · rw [hsame, if_neg Bool.false_ne_true, if_neg Bool.false_ne_true, hnext]
        cases hr : it.deref with
        | error e => rfl
        | ok r =>
          rw [Iterator.deref, hcur, ofRef_veryStrict_ok_iff hcv] at hr
          obtain ⟨rfl, hfr⟩ := hr
          rw [ok_bind, ok_bind, ih.1 _ hcv hfr (by simp only; omega)]
          cases hit' : iterAt ⟨rest.mem, rest.m_data + k, rest.m_count - k⟩ with
          | error e => rfl
          | ok it' => simp only [ok_bind, ← hend, ih.2 _ it' hnv hit' (by simp only; omega)]

end RLP

/-!
## Writing a tree

Writing an item on a stream is putting its encoding at the end of the buffer and noting one more item; a list leaves the stack
of open lists as it found it, because its header is inserted when its last item is noted.
-/

namespace RLPStream

/-! ## Headers -/

theorem bytesRequired_le_eight {n : Nat} (h : n < 2 ^ 64) : bytesRequired n ≤ 8 :=
  (bytesRequired_le_iff n 8).mpr (by norm_num at h ⊢; exact h)

/-- The header of a completed list is the header of the encoding. -/
theorem listHeader_eq {n : Nat} (h : n < 2 ^ 64) : listHeader n = .ok (Item.header c_rlpListStart n) := by
  have hb := bytesRequired_le_eight h
  unfold listHeader Item.header
  rw [c_rlpListImmLenCount_eq, c_rlpListIndLenZero_eq, c_rlpListStart_eq]
  by_cases hn : n < 56
  · rw [if_pos hn, if_pos hn]
    rfl
  · rw [if_neg hn, if_neg hn, if_pos (by omega)]
    rfl

/-- The size pushed in front of a byte string of another size than one byte, or in front of the payload of a list. -/
theorem pushCount_eq {n : Nat} (h : n < 2 ^ 64) (hn : ¬ n < 56) (s : RLPStream) (start : Nat) (hs : start ≤ 0xc0) :
    s.pushCount n (start + 55) = .ok { s with m_out := s.m_out ++ Item.header start n } := by
  have hb := bytesRequired_le_eight h
  unfold pushCount Item.header
  rw [if_neg (by omega), if_neg hn, Nat.add_comm (bytesRequired n), List.append_assoc]
  rfl

/-! ## One item -/

theorem appendSized_eq {b : Bytes} (h : b.length < 2 ^ 64) (s : RLPStream) :
    append.appendSized s b = .ok { s with m_out := s.m_out ++ (Item.header c_rlpDataImmLenStart b.length ++ b) } := by
  unfold append.appendSized
  rw [c_rlpDataImmLenCount_eq, c_rlpDataIndLenZero_eq, c_rlpDataImmLenStart_eq]
  by_cases hn : b.length < 56
  · rw [if_pos hn, pure_eq_ok, ok_bind, Item.header, if_pos hn, Nat.add_comm b.length]
    simp [appendRaw, noteAppended, pure_eq_ok]
  · rw [if_neg hn, pushCount_eq h hn s 0x80 (by omega), ok_bind]
    simp [appendRaw, noteAppended, pure_eq_ok]

/-- A byte string is put at the end and noted. -/
theorem append_eq {b : Bytes} (h : b.length < 2 ^ 64) (s : RLPStream) :
    s.append b = noteAppendedLoop (s.m_out ++ Item.encodeData b) s.m_listStack 1 := by
  unfold append
  split
  · rename_i x
    by_cases hx : x.toNat < c_rlpDataImmLenStart
    · rw [if_pos hx, Item.encodeData, if_pos hx]
      rfl
    · rw [if_neg hx, appendSized_eq h, Item.encodeData, if_neg hx]
      rfl
  · rename_i hb
    rw [appendSized_eq h, Item.encodeData]
    · rfl
    · exact hb

/-- The empty list is put at the end and noted. -/
theorem appendListRaw_nil (s : RLPStream) :
    s.appendListRaw [] = noteAppendedLoop (s.m_out ++ (Item.list []).encode) s.m_listStack 1 := by
  rw [Item.encode_list, Item.encodeAll_nil, appendListRaw, c_rlpListImmLenCount_eq]
  simp [Item.header, pure_eq_ok, ok_bind, appendRaw, noteAppended]

/-! ## The items of a list -/

/-- Writing an item puts its encoding at the end and notes one more item. -/
def Writes (x : Item) : Prop :=
  ∀ s : RLPStream, writeTree s x = noteAppendedLoop (s.m_out ++ x.encode) s.m_listStack 1

/-- The items of a list that is open at the place `p` complete it: its header goes in front of all it holds, and the list is
one more item of what is around it. -/
theorem writeItems_eq (x : Item) (xs : List Item) (hw : ∀ y ∈ x :: xs, Writes y) (out : Bytes) (p : Nat)
    (rest : List (Nat × Nat)) (hlen : (out ++ Item.encodeAll (x :: xs)).length - p < 2 ^ 64) :
    writeItems ⟨out, ((x :: xs).length, p) :: rest⟩ (x :: xs) =
      noteAppendedLoop (insertAt (out ++ Item.encodeAll (x :: xs)) p
        (Item.header c_rlpListStart ((out ++ Item.encodeAll (x :: xs)).length - p))) rest 1 := by
  induction xs generalizing x out with
  | nil =>
    have hx := hw x List.mem_cons_self
    rw [Item.encodeAll_cons, Item.encodeAll_nil, List.append_nil] at hlen ⊢
    rw [writeItems, hx, noteAppendedLoop]
    simp only [List.length_cons, List.length_nil, Nat.zero_add, Nat.lt_irrefl, if_false, Nat.sub_self, ne_eq,
      not_true_eq_false, listHeader_eq hlen, ok_bind]
    cases noteAppendedLoop (insertAt (out ++ x.encode) p
      (Item.header c_rlpListStart ((out ++ x.encode).length - p))) rest 1 with
    | error e => rfl
    | ok s => rw [ok_bind, writeItems]; rfl
  | cons y ys ih =>
    have hx := hw x List.mem_cons_self
    rw [Item.encodeAll_cons, ← List.append_assoc] at hlen ⊢
    rw [← ih y (fun z hz => hw z (List.mem_cons_of_mem x hz)) (out ++ x.encode) hlen]
    rw [writeItems, hx, noteAppendedLoop, if_neg (by simp only [List.length_cons]; omega),
      if_pos (by simp only [List.length_cons]; omega)]
    rfl

theorem writes_list (l : List Item) (hw : ∀ y ∈ l, Writes y) (h : (Item.encodeAll l).length < 2 ^ 64) : Writes (.list l) := by
  intro s
  rw [writeTree]
  cases l with
  | nil =>
    rw [appendList, if_neg (by simp), appendListRaw_nil]
    cases noteAppendedLoop (s.m_out ++ (Item.list []).encode) s.m_listStack 1 with
    | error e => rfl
    | ok t => rw [ok_bind, writeItems]; rfl
  | cons x xs =>
    have hsub : (s.m_out ++ Item.encodeAll (x :: xs)).length - s.m_out.length = (Item.encodeAll (x :: xs)).length := by
      rw [List.length_append]; omega
    rw [appendList, if_pos (by simp), pure_eq_ok, ok_bind, writeItems_eq x xs hw _ _ _ (by rw [hsub]; exact h), hsub]
    rw [insertAt, List.take_left, List.drop_left, List.append_assoc, ← Item.encode_list]

/-- Every tree whose encoding has a length of eight bytes is written as its encoding. -/
theorem writes (x : Item) (h : x.encode.length < 2 ^ 64) : Writes x := by
  induction x using Item.induction with
  | hdata b =>
    intro s
    have hb : b.length < 2 ^ 64 := by
      rw [Item.encode_data] at h
      have := Item.length_le_encodeData b
      omega
    rw [writeTree, append_eq hb, Item.encode_data]
  | hlist l ih =>
    have hl : (Item.encodeAll l).length < 2 ^ 64 := by
      rw [Item.encode_list, List.length_append] at h
      omega
    exact writes_list l (fun y hy => ih y hy (lt_of_le_of_lt (Item.encode_length_le_encodeAll hy) hl)) hl

/-- A fresh stream writes a tree as its encoding. -/
theorem writeBytes_eq (x : Item) (h : x.encode.length < 2 ^ 64) : writeBytes x = .ok x.encode := by
  rw [writeBytes, writes x h]
  rfl

end RLPStream

end Webthree
