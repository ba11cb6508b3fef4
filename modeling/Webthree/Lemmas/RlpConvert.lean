import Webthree.Lemmas.RlpTree
import Webthree.Rlp.Convert

/-!
# Items and conversions, on what they read

A reference that is one item is nothing, a string or a list. The conversions accept exactly the canonical strings, so that what
they return determines the bytes that were read; a list is cut into its items, which `operator[]` finds.
-/

namespace Webthree

namespace RLP

/-! ## One item -/

/-- A string small enough for the reader. -/
def Small (b : Bytes) : Prop := b.length < 2 ^ 64 - 1 - 0x100

theorem Framed.cases {d : Bytes} (h : Framed d d.length) :
    d = [] ∨ (∃ b, Small b ∧ d = Item.encodeData b) ∨ ∃ p, Small p ∧ d = Item.header 0xc0 p.length ++ p := by
  generalize hn : d.length = n at h
  cases h with
  | null hd => exact .inl hd
  | single x t hd hx =>
    obtain rfl : t = [] := by
      rw [hd, List.length_cons] at hn
      exact List.length_eq_zero_iff.mp (by omega)
    refine .inr (.inl ⟨[x], by simp [Small], ?_⟩)
    rw [hd, Item.encodeData, if_pos (by rw [c_rlpDataImmLenStart_eq]; exact hx)]
  | headed start len t hh =>
    obtain rfl : t.length = len := by
      rw [hh.bytes, List.length_append] at hn
      omega
    rcases hh.start_cases with rfl | rfl
    · refine .inr (.inl ⟨t, hh.small, ?_⟩)
      rcases encodeData_cases t with ⟨x, rfl, hx, -⟩ | ⟨he, -⟩
      · exact absurd (hh.single rfl rfl x [] rfl) (by omega)
      · rw [he, ← hh.bytes]
    · exact .inr (.inr ⟨t, hh.small, hh.bytes⟩)

/-- A string behind what is behind it. -/
theorem encodeData_headed {b : Bytes} (hb : Small b) (hs : ∀ x, b = [x] → 0x80 ≤ x.toNat) :
    Headed (Item.encodeData b) 0x80 b.length b := by
  rcases encodeData_cases b with ⟨x, rfl, hx, -⟩ | ⟨he, -⟩
  · exact absurd (hs x rfl) (by omega)
  · have := headed_data hb hs []
    rwa [List.append_nil, List.append_nil, ← he] at this

theorem list_headed {p : Bytes} (hp : Small p) : Headed (Item.header 0xc0 p.length ++ p) 0xc0 p.length p :=
  ⟨rfl, .inr rfl, hp, by omega, Nat.le_refl _⟩

/-- A string is one item. -/
theorem framed_encodeData {b : Bytes} (hb : Small b) : Framed (Item.encodeData b) (Item.encodeData b).length := by
  rcases encodeData_cases b with ⟨x, rfl, hx, he⟩ | ⟨he, hs⟩
  · rw [he]
    exact .single x [] rfl hx
  · have := Framed.headed _ _ _ (encodeData_headed hb hs)
    rwa [← List.length_append, ← he] at this

theorem framed_list {p : Bytes} (hp : Small p) :
    Framed (Item.header 0xc0 p.length ++ p) (Item.header 0xc0 p.length ++ p).length := by
  have := Framed.headed _ _ _ (list_headed hp)
  rwa [← List.length_append] at this

/-- The first item stays the first item when more comes behind it. -/
theorem Framed.append {d : Bytes} {n : Nat} (hn : Framed d n) (hd : d ≠ []) (rest : Bytes) : Framed (d ++ rest) n := by
  cases hn with
  | null h => exact absurd h hd
  | single x t h hx => exact .single x (t ++ rest) (by rw [h]; rfl) hx
  | headed start len t hh =>
    have hb := hh.behind
    refine .headed start len (t ++ rest) ⟨by rw [← List.append_assoc, ← hh.bytes], hh.start_cases, hh.small, ?_,
      by rw [List.length_append]; omega⟩
    intro hs h1 x s hx
    subst h1
    cases t with
    | nil => simp at hb
    | cons y u =>
      rw [List.cons_append, List.cons.injEq] at hx
      exact hx.1 ▸ hh.single hs rfl y u rfl

/-! ## Strings -/

variable {r : RLP}

/-- What is not a string is the empty byte string to `toBytes`. -/
theorem toBytes_of_not_data (hdata : r.isData = false) : r.toBytes = .ok [] := by
  rw [RLP.toBytes, hdata]
  rfl

variable (hv : r.m_data.Valid)

include hv

/-- What the queries answer about a string. -/
theorem string_queries {b : Bytes} (hb : Small b) (hd : r.m_data.toBytes = Item.encodeData b) :
    r.isNull = false ∧ r.isData = true ∧ r.isList = false ∧ r.requireGood = .ok () ∧ r.isInt = .ok (b.head? ≠ some 0) ∧
      ∃ p, r.payload = .ok p ∧ p.toBytes = b ∧ p.size = b.length ∧ r.length = .ok b.length := by
  rcases encodeData_cases b with ⟨x, rfl, hx, he⟩ | ⟨he, hs⟩
  · rw [he] at hd
    have hnull := not_isNull hv hd
    have hlength := length_single hv hd hx
    have hdata := (isData_iff hv hd).mpr (by omega)
    have hlist : r.isList = false := by
      rw [Bool.eq_false_iff, Ne, isList_iff hv hd]
      omega
    have hgood : r.requireGood = .ok () := by
      rw [RLP.requireGood, hnull, get_zero hd, c_rlpDataImmLenStart_eq]
      rw [if_neg (by simp), if_pos (by omega)]
      rfl
    have hcount := hv.length_toBytes
    rw [hd, List.length_singleton] at hcount
    obtain ⟨hsub, hbytes⟩ := hv.sub (b := 0) (n := 1) (by omega)
    refine ⟨hnull, hdata, hlist, hgood, ?_, ⟨r.m_data.mem, r.m_data.m_data + 0, 1⟩, ?_, ?_, rfl, hlength.1⟩
    · rw [RLP.isInt, hnull, hgood, ok_bind, get_zero hd, c_rlpDataImmLenStart_eq, if_neg (by simp), if_pos hx, pure_eq_ok]
      have hzero : x = 0 ↔ x.toNat = 0 := by rw [← UInt8.toNat_inj]; rfl
      simp [hzero]
    · rw [RLP.payload, hlength.1, ok_bind, hlength.2, if_neg (by rw [BytesConstRef.size]; omega),
        BytesConstRef.cropped_eq (by omega)]
      rfl
    · rw [hbytes, hd]
      rfl
  · have hh : Headed r.m_data.toBytes 0x80 b.length b := by rw [hd]; exact encodeData_headed hb hs
    obtain ⟨x, u, hxu, hx, hx'⟩ := hh.cons
    have hnull := not_isNull hv hxu
    have hlist : r.isList = false := by
      rw [Bool.eq_false_iff, Ne, isList_iff hv hxu]
      have := hx'.mp rfl
      omega
    obtain ⟨hp, -, hpb⟩ := hh.payload hv
    have hgood := hh.requireGood hv
    refine ⟨hnull, (isData_iff hv hxu).mpr (hx'.mp rfl), hlist, hgood, ?_, _, hp,
      by rw [hpb, List.take_length], rfl, (hh.length_eq hv).1⟩
    have hcount := size_eq hv
    rw [RLP.isInt, hnull, hgood, ok_bind, c_rlpDataImmLenStart_eq, c_rlpDataIndLenZero_eq, c_rlpListStart_eq,
      if_neg (by simp)]
    rcases hh.first with ⟨hlt, hd', hn⟩ | ⟨hge, h1, h8, hd', hn⟩
    · rw [get_zero hd', hn, if_neg (by omega)]
      cases b with
      | nil => simp [pure_eq_ok]
      | cons y t =>
        have hsize : ¬ r.m_data.size ≤ 1 := by rw [hcount, hd']; simp
        rw [if_neg (by simp), if_pos (by simp only [List.length_cons] at hlt ⊢; omega), if_neg hsize, get_one hd', pure_eq_ok]
        simp
    · have hsize : ¬ r.m_data.size ≤ 1 + (0x80 + 55 + bytesRequired b.length) - 0xb7 := by
        rw [hcount, hd', List.length_cons, List.length_append, length_toBigEndian]
        omega
      have hget : r.m_data.get (1 + (0x80 + 55 + bytesRequired b.length) - 0xb7) = b.getD 0 0 := by
        have hplace : 1 + (0x80 + 55 + bytesRequired b.length) - 0xb7 = (toBigEndian b.length).length + 1 := by
          rw [length_toBigEndian]
          omega
        rw [BytesConstRef.get, hd', hplace, List.getD_cons_succ, List.getD_eq_getElem?_getD,
          List.getElem?_append_right (Nat.le_refl _), Nat.sub_self, List.getD_eq_getElem?_getD]
      rw [get_zero hd', hn, if_neg (by omega), if_neg (by omega), if_neg (by omega), if_pos (by omega), if_neg hsize, hget,
        pure_eq_ok]
      cases b with
      | nil => simp at hge
      | cons y t => simp

/-- What the queries answer about a list. -/
theorem list_queries {p : Bytes} (hp : Small p) (hd : r.m_data.toBytes = Item.header 0xc0 p.length ++ p) :
    r.isNull = false ∧ r.isData = false ∧ r.isList = true ∧ r.requireGood = .ok () ∧
      ∃ pl, r.payload = .ok pl ∧ pl.Valid ∧ pl.toBytes = p ∧ pl.size = p.length := by
  have hh : Headed r.m_data.toBytes 0xc0 p.length p := by rw [hd]; exact list_headed hp
  obtain ⟨x, u, hxu, hx, hx'⟩ := hh.cons
  have hge : 0xc0 ≤ x.toNat := by
    by_contra hlt
    exact absurd (hx'.mpr (by omega)) (by decide)
  have hdata : r.isData = false := by
    rw [Bool.eq_false_iff, Ne, isData_iff hv hxu]
    omega
  obtain ⟨hpl, hvalid, hpb⟩ := hh.payload hv
  exact ⟨not_isNull hv hxu, hdata, (isList_iff hv hxu).mpr hge, hh.requireGood hv, _, hpl, hvalid,
    by rw [hpb, List.take_length], rfl⟩

/-- What the queries answer about nothing. -/
theorem null_queries (hd : r.m_data.toBytes = []) :
    r.isNull = true ∧ r.isData = false ∧ r.isList = false ∧ r.requireGood = .error .BadRLP := by
  have hnull := (isNull_iff r hv).mpr hd
  refine ⟨hnull, by rw [RLP.isData, hnull]; rfl, by rw [RLP.isList, hnull]; rfl, ?_⟩
  rw [RLP.requireGood, hnull]
  rfl

/-! ## Conversions -/

/-- `toBytes` of a string is the string. -/
theorem toBytes_string {b : Bytes} (hb : Small b) (hd : r.m_data.toBytes = Item.encodeData b) : r.toBytes = .ok b := by
  obtain ⟨-, hdata, -, -, -, p, hp, hpb, hps, hl⟩ := string_queries hv hb hd
  rw [RLP.toBytes, if_pos hdata, hp, ok_bind, hl, ok_bind, BytesConstRef.retarget, ← hps]
  exact congrArg Except.ok hpb

/-- The strings that are integers have no leading zero, and fit if they are not longer than the type. -/
theorem toInt_string {b : Bytes} (hb : Small b) (hd : r.m_data.toBytes = Item.encodeData b) (k : Nat) :
    r.toInt k Strict = if b.head? ≠ some 0 ∧ b.length ≤ k then .ok (fromBigEndian b) else .error .BadCast := by
  obtain ⟨hnull, -, hlist, hgood, hint, p, hp, hpb, hps, -⟩ := string_queries hv hb hd
  rw [RLP.toInt, hgood, ok_bind, hint, ok_bind, hlist, hnull, hp]
  by_cases h0 : b.head? = some 0
  · simp [h0, Strict, ThrowOnFail, FailIfTooBig, AllowNonCanon, castFailed, throw_eq_error]
  · by_cases hk : b.length ≤ k
    · have hlt : fromBigEndian b < 256 ^ k := by
        rw [← bytesRequired_le_iff, ← length_toBigEndian, toBigEndian_fromBigEndian b fun x t hbx hx => h0 (by rw [hbx, hx]; rfl)]
        exact hk
      simp [h0, hk, ok_bind, hps, hpb, Nat.mod_eq_of_lt hlt, pure_eq_ok]
    · simp [h0, hk, ok_bind, hps, Strict, ThrowOnFail, FailIfTooBig, castFailed, throw_eq_error, Nat.lt_of_not_le hk]

theorem toHash_string {b : Bytes} (hb : Small b) (hd : r.m_data.toBytes = Item.encodeData b) (n : Nat) :
    r.toHash n VeryStrict = if b.length = n then .ok b else .error .BadCast := by
  obtain ⟨-, hdata, -, hgood, -, p, hp, hpb, hps, -⟩ := string_queries hv hb hd
  rw [RLP.toHash, hgood, ok_bind, hp, ok_bind, hdata, hps, hpb]
  rcases Nat.lt_trichotomy b.length n with hlt | heq | hgt
  · simp [hlt, Nat.ne_of_lt hlt, VeryStrict, ThrowOnFail, FailIfTooBig, FailIfTooSmall, castFailed, throw_eq_error]
  · subst heq
    simp [pure_eq_ok]
  · simp [hgt, Nat.ne_of_gt hgt, VeryStrict, ThrowOnFail, FailIfTooBig, FailIfTooSmall, castFailed, throw_eq_error]

variable (hf : Framed r.m_data.toBytes r.m_data.toBytes.length)

include hf

/-- An item that is a string is the encoding of one. -/
theorem string_of_isData (hdata : r.isData = true) : ∃ b, Small b ∧ r.m_data.toBytes = Item.encodeData b := by
  rcases hf.cases with hd | ⟨b, hb, hd⟩ | ⟨p, hp, hd⟩
  · rw [(null_queries hv hd).2.1] at hdata
    cases hdata
  · exact ⟨b, hb, hd⟩
  · rw [(list_queries hv hp hd).2.1] at hdata
    cases hdata

theorem list_of_isList (hlist : r.isList = true) : ∃ p, Small p ∧ r.m_data.toBytes = Item.header 0xc0 p.length ++ p := by
  rcases hf.cases with hd | ⟨b, hb, hd⟩ | ⟨p, hp, hd⟩
  · rw [(null_queries hv hd).2.2.1] at hlist
    cases hlist
  · rw [(string_queries hv hb hd).2.2.1] at hlist
    cases hlist
  · exact ⟨p, hp, hd⟩

/-- An integer is read from the one encoding that the stream writes for it. -/
theorem toInt_ok_iff {k : Nat} (hk : k < 2 ^ 32) (n : Nat) :
    r.toInt k Strict = .ok n ↔ r.m_data.toBytes = Item.encodeData (toBigEndian n) ∧ n < 256 ^ k := by
  have hsmall : n < 256 ^ k → Small (toBigEndian n) := fun hn => by
    have := (bytesRequired_le_iff n k).mpr hn
    rw [Small, length_toBigEndian]
    omega
  constructor
  · intro h
    rcases hf.cases with hd | ⟨b, hb, hd⟩ | ⟨p, hp, hd⟩
    · rw [RLP.toInt, (null_queries hv hd).2.2.2] at h
      cases h
    · rw [toInt_string hv hb hd] at h
      split at h
      case isTrue hb' =>
        cases h
        have hcanon := toBigEndian_fromBigEndian b fun x t hbx hx => hb'.1 (by rw [hbx, hx]; rfl)
        rw [hcanon]
        refine ⟨hd, ?_⟩
        rw [← bytesRequired_le_iff, ← length_toBigEndian, hcanon]
        exact hb'.2
      case isFalse => cases h
    · obtain ⟨hnull, hdata, hlist, hgood, -⟩ := list_queries hv hp hd
      rw [RLP.toInt, hgood, ok_bind] at h
      cases hint : r.isInt with
      | error e => rw [hint] at h; cases h
      | ok i =>
        rw [hint, ok_bind, hlist, Bool.or_true, Bool.true_or, if_pos rfl, castFailed] at h
        cases h
  · rintro ⟨hd, hn⟩
    rw [toInt_string hv (hsmall hn) hd, if_pos, fromBigEndian_toBigEndian]
    refine ⟨fun h0 => ?_, by rw [length_toBigEndian]; exact (bytesRequired_le_iff n k).mpr hn⟩
    obtain ⟨t, ht⟩ := List.head?_eq_some_iff.mp h0
    exact head_toBigEndian_ne_zero n 0 t ht rfl

/-- A hash is read from the string of its bytes. -/
theorem toHash_ok_iff {n : Nat} (hn : n < 2 ^ 32) (h : Bytes) :
    r.toHash n VeryStrict = .ok h ↔ r.m_data.toBytes = Item.encodeData h ∧ h.length = n := by
  constructor
  · intro ht
    rcases hf.cases with hd | ⟨b, hb, hd⟩ | ⟨p, hp, hd⟩
    · rw [RLP.toHash, (null_queries hv hd).2.2.2] at ht
      cases ht
    · rw [toHash_string hv hb hd] at ht
      split at ht
      case isTrue hb' =>
        cases ht
        exact ⟨hd, hb'⟩
      case isFalse => cases ht
    · obtain ⟨-, hdata, -, hgood, pl, hpl, -⟩ := list_queries hv hp hd
      rw [RLP.toHash, hgood, ok_bind, hpl, ok_bind, hdata, if_pos (by simp), castFailed] at ht
      cases ht
  · rintro ⟨hd, hl⟩
    rw [toHash_string hv (by rw [Small]; omega) hd, if_pos hl]

end RLP

namespace BytesConstRef

/-- What is left of a reference behind its first bytes. -/
theorem Valid.croppedFrom {d : BytesConstRef} (hv : d.Valid) {n : Nat} (hn : n ≤ d.m_count) :
    (d.croppedFrom n).Valid ∧ (d.croppedFrom n).toBytes = d.toBytes.drop n ∧ (d.croppedFrom n).m_count = d.m_count - n := by
  obtain ⟨hvalid, hbytes⟩ := hv.sub (b := n) (n := d.m_count - n) (by omega)
  have hc : d.croppedFrom n = ⟨d.mem, d.m_data + n, d.m_count - n⟩ := by rw [BytesConstRef.croppedFrom, if_pos hn]
  refine ⟨hc ▸ hvalid, ?_, by rw [hc]⟩
  rw [hc, hbytes]
  exact List.take_of_length_le (by rw [List.length_drop, hv.length_toBytes])

end BytesConstRef

namespace RLP

/-- The constructor of `operator[]` accepts what is one item. -/
theorem ofRef_of_framed {d : BytesConstRef} (hv : d.Valid) (hf : Framed d.toBytes d.m_count) :
    ofRef d (ThrowOnFail ||| FailIfTooSmall) = .ok ⟨d⟩ := by
  obtain ⟨hsize, -⟩ := (actualSize_ok_iff (r := ⟨d⟩) hv _).mpr hf
  have hbig : (ThrowOnFail ||| FailIfTooSmall) &&& FailIfTooBig = 0 := by decide
  have hsmall : (ThrowOnFail ||| FailIfTooSmall) &&& FailIfTooSmall ≠ 0 := by decide
  rw [ofRef]
  simp only [hbig, hsmall, ne_eq, not_true_eq_false, not_false_eq_true, if_true, if_false, pure_eq_ok, ok_bind, hsize, failOr]
  rw [if_neg (by simp [BytesConstRef.size])]

/-! ## The items of a list -/

/-- The items that bytes are made of, one after the other. -/
structure Chunks (d : Bytes) (cs : List Bytes) : Prop where
  flatten_eq : d = cs.flatten
  framed : ∀ c ∈ cs, c ≠ [] ∧ Framed c c.length

theorem Chunks.cons {d c : Bytes} {cs : List Bytes} (h : Chunks d (c :: cs)) : Framed d c.length ∧ Chunks (d.drop c.length) cs := by
  obtain ⟨hne, hf⟩ := h.framed c List.mem_cons_self
  have hd : d = c ++ cs.flatten := h.flatten_eq
  exact ⟨hd ▸ hf.append hne _, by rw [hd, List.drop_left], fun c' hc' => h.framed c' (List.mem_cons_of_mem _ hc')⟩

/-- Bytes that are counted to so many items are made of so many. -/
theorem chunks_of_itemsLoop {turns n : Nat} {d : BytesConstRef} (hv : d.Valid) (h : itemsLoop turns d = .ok n) :
    ∃ cs, cs.length = n ∧ Chunks d.toBytes cs := by
  induction turns generalizing n d with
  | zero => cases h
  | succ turns ih =>
    rw [itemsLoop] at h
    by_cases hsize : d.size = 0
    · rw [if_pos hsize] at h
      cases h
      have hnil : d.toBytes = [] := List.length_eq_zero_iff.mp (by rw [hv.length_toBytes]; exact hsize)
      exact ⟨[], rfl, hnil, by simp⟩
    · rw [if_neg hsize, bind_eq_ok] at h
      obtain ⟨k, hk, h⟩ := h
      obtain ⟨m, hm, h⟩ := bind_eq_ok.mp h
      cases h
      have hf := (sizeAsEncoded_ok_iff hv k).mp hk
      have hle := hf.le_length
      rw [hv.length_toBytes] at hle
      obtain ⟨hv', hbytes, -⟩ := hv.croppedFrom hle
      obtain ⟨cs, hcs, hc⟩ := ih hv' hm
      have htake : (d.toBytes.take k).length = k := by rw [List.length_take, hv.length_toBytes, Nat.min_eq_left hle]
      have hne : d.toBytes ≠ [] := fun h => hsize (by rw [BytesConstRef.size, ← hv.length_toBytes, h]; rfl)
      refine ⟨d.toBytes.take k :: cs, by rw [List.length_cons, hcs], ?_, ?_⟩
      · rw [List.flatten_cons, ← hc.flatten_eq, hbytes, List.take_append_drop]
      · rintro c hc'
        rcases List.mem_cons.mp hc' with rfl | hc'
        · refine ⟨fun h => ?_, by rw [htake]; exact hf.take⟩
          have hpos := hf.pos hne
          rw [h] at htake
          simp only [List.length_nil] at htake
          omega
        · exact hc.framed c hc'

/-- Bytes that are made of items are counted. -/
theorem itemsLoop_of_chunks {turns : Nat} {d : BytesConstRef} (hv : d.Valid) {cs : List Bytes} (h : Chunks d.toBytes cs)
    (hturns : d.m_count < turns) : itemsLoop turns d = .ok cs.length := by
  induction cs generalizing turns d with
  | nil =>
    obtain ⟨n, rfl⟩ : ∃ n, turns = n + 1 := ⟨turns - 1, by omega⟩
    rw [itemsLoop, if_pos (by rw [BytesConstRef.size, ← hv.length_toBytes, h.flatten_eq]; rfl)]
    rfl
  | cons c cs ih =>
    obtain ⟨n, rfl⟩ : ∃ n, turns = n + 1 := ⟨turns - 1, by omega⟩
    obtain ⟨hf, hcs⟩ := h.cons
    have hle := hf.le_length
    rw [hv.length_toBytes] at hle
    obtain ⟨hv', hbytes, hcount⟩ := hv.croppedFrom hle
    have hpos : 0 < c.length := List.length_pos_iff.mpr (h.framed c List.mem_cons_self).1
    rw [itemsLoop, if_neg (by rw [BytesConstRef.size]; omega), (sizeAsEncoded_ok_iff hv _).mpr hf, ok_bind,
      ih hv' (hbytes ▸ hcs) (by omega)]
    rfl

theorem indexLoop_succ (pl : BytesConstRef) (n : Nat) (item : BytesConstRef) (done : Nat) : indexLoop pl (n + 1) item done =
    if item.size = 0 then .ok item
    else sizeAsEncoded (pl.croppedFrom done) >>= fun k =>
      indexLoop pl n ((pl.croppedFrom done).cropped 0 k) (done + ((pl.croppedFrom done).cropped 0 k).size) := rfl

/-- The loop of `operator[]`, when what is behind the last item is made of items. -/
theorem indexLoop_eq {pl : BytesConstRef} (hv : pl.Valid) {cs : List Bytes} {n : Nat} {item : BytesConstRef} {done : Nat}
    (hitem : item.Valid) (hdone : done ≤ pl.m_count) (hcs : Chunks (pl.toBytes.drop done) cs)
    (hempty : item.toBytes = [] → cs = []) :
    ∃ x, indexLoop pl n item done = .ok x ∧ x.Valid ∧ x.toBytes = (item.toBytes :: cs).getD n [] := by
  induction n generalizing item done cs with
  | zero => exact ⟨item, rfl, hitem, rfl⟩
  | succ n ih =>
    rw [indexLoop_succ]
    by_cases hsize : item.size = 0
    · have hnil : item.toBytes = [] := List.length_eq_zero_iff.mp (by rw [hitem.length_toBytes]; exact hsize)
      rw [if_pos hsize]
      exact ⟨item, rfl, hitem, by rw [hnil, hempty hnil]; simp⟩
    · rw [if_neg hsize]
      obtain ⟨hv', hbytes, hcount⟩ := hv.croppedFrom hdone
      cases cs with
      | nil =>
        have hnil : (pl.croppedFrom done).toBytes = [] := by rw [hbytes, hcs.flatten_eq]; rfl
        have hf : Framed (pl.croppedFrom done).toBytes 0 := .null hnil
        rw [(sizeAsEncoded_ok_iff hv' 0).mpr hf, ok_bind]
        have hnext := cropped_framed hv' hf
        have hx : ((pl.croppedFrom done).cropped 0 0).toBytes = [] := by rw [hnext]; simp [BytesConstRef.toBytes]
        have hxv : ((pl.croppedFrom done).cropped 0 0).Valid := by
          rw [hnext]
          simp only [BytesConstRef.Valid] at hv' ⊢
          omega
        have hsize0 : ((pl.croppedFrom done).cropped 0 0).size = 0 := by rw [hnext]; rfl
        have hcs' : Chunks (pl.toBytes.drop (done + 0)) [] := hcs
        obtain ⟨x, hx', hxv', hxb⟩ := ih hxv (by omega) hcs' fun _ => rfl
        refine ⟨x, by rw [hsize0]; exact hx', hxv', ?_⟩
        rw [hxb, hx]
        cases n <;> simp
      | cons c cs =>
        obtain ⟨hf, hrest⟩ := hcs.cons
        rw [← hbytes] at hf
        have hle := hf.le_length
        rw [hv'.length_toBytes, hcount] at hle
        rw [(sizeAsEncoded_ok_iff hv' _).mpr hf, ok_bind]
        have hnext := cropped_framed hv' hf
        obtain ⟨hxv, hxb⟩ := hv'.sub (b := 0) (n := c.length) (by omega)
        rw [Nat.add_zero, ← hnext] at hxv hxb
        have hc : ((pl.croppedFrom done).cropped 0 c.length).toBytes = c := by
          rw [hxb, List.drop_zero, hbytes, hcs.flatten_eq, List.flatten_cons, List.take_left]
        have hsizec : ((pl.croppedFrom done).cropped 0 c.length).size = c.length := by rw [hnext]; rfl
        have hrest' : Chunks (pl.toBytes.drop (done + c.length)) cs := by rw [← List.drop_drop]; exact hrest
        obtain ⟨x, hx', hxv', hxb'⟩ := ih hxv (by omega) hrest' fun h =>
          absurd (hc.symm.trans h) (hcs.framed c List.mem_cons_self).1
        exact ⟨x, by rw [hsizec]; exact hx', hxv', by rw [hxb', hc]; rfl⟩

/-- `operator[]` on an item whose payload is made of items: the item of that number, or nothing. -/
theorem index_eq {r : RLP} {pl : BytesConstRef} (hp : r.payload = .ok pl) (hv : pl.Valid) {cs : List Bytes}
    (h : Chunks pl.toBytes cs) (i : Nat) :
    ∃ x, r.index i = .ok x ∧ x.m_data.Valid ∧ x.m_data.toBytes = cs.getD i [] ∧
      Framed x.m_data.toBytes x.m_data.toBytes.length := by
  -- the first item is found in the same way as those behind it
  have hfirst : ∃ k x, sizeAsEncoded pl = .ok k ∧ indexLoop pl i (pl.cropped 0 k) k = .ok x ∧ x.Valid ∧ x.toBytes = cs.getD i [] := by
    cases cs with
    | nil =>
      have hf : Framed pl.toBytes 0 := .null h.flatten_eq
      have hnext := cropped_framed hv hf
      obtain ⟨hxv, hxb⟩ := hv.sub (b := 0) (n := 0) (Nat.zero_le _)
      rw [Nat.add_zero, ← hnext] at hxv hxb
      have hx : (pl.cropped 0 0).toBytes = [] := hxb
      obtain ⟨x, hx', hxv', hxb'⟩ := indexLoop_eq (n := i) hv hxv (Nat.zero_le _) h fun _ => rfl
      refine ⟨0, x, (sizeAsEncoded_ok_iff hv 0).mpr hf, hx', hxv', ?_⟩
      rw [hxb', hx]
      cases i <;> simp
    | cons c cs =>
      obtain ⟨hf, hrest⟩ := h.cons
      have hle := hf.le_length
      rw [hv.length_toBytes] at hle
      have hnext := cropped_framed hv hf
      obtain ⟨hxv, hxb⟩ := hv.sub (b := 0) (n := c.length) (by omega)
      rw [Nat.add_zero, ← hnext] at hxv hxb
      have hc : (pl.cropped 0 c.length).toBytes = c := by
        rw [hxb, List.drop_zero, h.flatten_eq, List.flatten_cons, List.take_left]
      obtain ⟨x, hx', hxv', hxb'⟩ := indexLoop_eq (n := i) hv hxv hle hrest fun hnil =>
        absurd (hc.symm.trans hnil) (h.framed c List.mem_cons_self).1
      exact ⟨c.length, x, (sizeAsEncoded_ok_iff hv _).mpr hf, hx', hxv', by rw [hxb', hc]⟩
  obtain ⟨k, x, hk, hx, hxv, hxb⟩ := hfirst
  have hf : Framed x.toBytes x.toBytes.length := by
    rw [hxb]
    by_cases hi : i < cs.length
    · rw [List.getD_eq_getElem?_getD, List.getElem?_eq_getElem hi]
      exact (h.framed _ (List.getElem_mem hi)).2
    · rw [List.getD_eq_getElem?_getD, List.getElem?_eq_none (Nat.le_of_not_lt hi)]
      exact .null rfl
  refine ⟨⟨x⟩, ?_, hxv, hxb, hf⟩
  rw [RLP.index, hp, ok_bind, hk, ok_bind, hx, ok_bind]
  exact ofRef_of_framed hxv (by rw [← hxv.length_toBytes]; exact hf)

/-- An item that is a list of the items `cs`. -/
structure ListOf (r : RLP) (cs : List Bytes) : Prop where
  isList : r.isList = true
  bytes : r.m_data.toBytes = Item.header 0xc0 cs.flatten.length ++ cs.flatten
  small : Small cs.flatten
  payload : ∃ pl, r.payload = .ok pl ∧ pl.Valid ∧ Chunks pl.toBytes cs

/-- A list whose items can be counted is a list of so many. -/
theorem listOf_of_itemCount {r : RLP} (hv : r.m_data.Valid) (hf : Framed r.m_data.toBytes r.m_data.toBytes.length)
    (hlist : r.isList = true) {n : Nat} (h : r.itemCount = .ok n) : ∃ cs, cs.length = n ∧ ListOf r cs := by
  obtain ⟨p, hp, hd⟩ := list_of_isList hv hf hlist
  obtain ⟨-, -, -, -, pl, hpl, hplv, hplb, -⟩ := list_queries hv hp hd
  rw [RLP.itemCount, if_pos hlist, hpl, ok_bind] at h
  obtain ⟨cs, hcs, hc⟩ := chunks_of_itemsLoop hplv h
  obtain rfl : p = cs.flatten := hplb.symm.trans hc.flatten_eq
  exact ⟨cs, hcs, hlist, hd, hp, pl, hpl, hplv, hc⟩

/-- The bytes that a list of items takes. -/
theorem listOf_of_bytes {r : RLP} (hv : r.m_data.Valid) {cs : List Bytes} (hcs : ∀ c ∈ cs, c ≠ [] ∧ Framed c c.length)
    (hsmall : Small cs.flatten) (hd : r.m_data.toBytes = Item.header 0xc0 cs.flatten.length ++ cs.flatten) : ListOf r cs := by
  obtain ⟨-, -, hlist, -, pl, hpl, hplv, hplb, -⟩ := list_queries hv hsmall hd
  exact ⟨hlist, hd, hsmall, pl, hpl, hplv, hplb, hcs⟩

theorem ListOf.index {r : RLP} {cs : List Bytes} (h : ListOf r cs) (i : Nat) :
    ∃ x, r.index i = .ok x ∧ x.m_data.Valid ∧ x.m_data.toBytes = cs.getD i [] ∧
      Framed x.m_data.toBytes x.m_data.toBytes.length := by
  obtain ⟨pl, hp, hv, hc⟩ := h.payload
  exact index_eq hp hv hc i

theorem ListOf.itemCount {r : RLP} {cs : List Bytes} (h : ListOf r cs) : r.itemCount = .ok cs.length := by
  obtain ⟨pl, hp, hv, hc⟩ := h.payload
  rw [RLP.itemCount, if_pos h.isList, hp, ok_bind]
  exact itemsLoop_of_chunks hv hc (Nat.lt_succ_self _)

theorem ListOf.chunk {r : RLP} {cs : List Bytes} (h : ListOf r cs) : ∀ c ∈ cs, c ≠ [] ∧ Framed c c.length := by
  obtain ⟨pl, -, -, hc⟩ := h.payload
  exact hc.framed

/-- The strict constructor on a whole buffer. -/
theorem ofRef_ofBytes_ok_iff {b : Bytes} {r : RLP} :
    ofRef (.ofBytes b) VeryStrict = .ok r ↔ r = ⟨.ofBytes b⟩ ∧ Framed b b.length := by
  rw [ofRef_veryStrict_ok_iff (BytesConstRef.valid_ofBytes b), BytesConstRef.toBytes_ofBytes]
  rfl

end RLP

namespace RLPStream

/-! ## Items one after the other -/

/-- An operation puts the bytes `c` at the end and notes one more item. -/
def Puts (f : RLPStream → Except RLPError RLPStream) (c : Bytes) : Prop :=
  ∀ s : RLPStream, f s = noteAppendedLoop (s.m_out ++ c) s.m_listStack 1

theorem puts_append {b : Bytes} (h : b.length < 2 ^ 64) : Puts (append · b) (Item.encodeData b) := append_eq h

theorem puts_raw (c : Bytes) : Puts (appendRaw · c 1) c := fun _ => rfl

/-- A number is put as the string of its bytes. -/
theorem puts_appendInt {i : Nat} (h : i < 256 ^ 32) : Puts (appendInt · i) (Item.encodeData (toBigEndian i)) := by
  intro s
  show s.appendInt i = _
  rw [appendInt]
  by_cases h0 : i = 0
  · subst h0
    rw [if_pos rfl, toBigEndian_zero]
    rfl
  · rw [if_neg h0]
    have hpos := bytesRequired_pos h0
    by_cases h1 : i < c_rlpDataImmLenStart
    · have hbyte : toBigEndian i = [UInt8.ofNat i] := by
        rw [c_rlpDataImmLenStart_eq] at h1
        rw [toBigEndian_pos h0, Nat.div_eq_of_lt (by omega), toBigEndian_zero]
        rfl
      have hlt : (UInt8.ofNat i).toNat < c_rlpDataImmLenStart := by
        rw [UInt8.toNat_ofNat', Nat.mod_eq_of_lt (by rw [c_rlpDataImmLenStart_eq] at h1; omega)]
        exact h1
      rw [if_pos h1, hbyte, Item.encodeData, if_pos hlt]
      rfl
    · have hbr : bytesRequired i ≤ 32 := (bytesRequired_le_iff i 32).mpr h
      rw [if_neg h1, c_rlpDataImmLenCount_eq, if_pos (by omega)]
      rcases RLP.encodeData_cases (toBigEndian i) with ⟨x, hx, hlt, -⟩ | ⟨he, -⟩
      · -- a single byte is below `0x80` only for a number below `0x80`
        have hi := fromBigEndian_toBigEndian i
        rw [hx] at hi
        have hone : fromBigEndian [x] = x.toNat := by
          have hnil : fromBigEndian [] = 0 := rfl
          rw [← List.nil_append [x], fromBigEndian_concat, hnil, Nat.mul_zero, Nat.zero_add]
        rw [c_rlpDataImmLenStart_eq] at h1
        omega
      · rw [he, length_toBigEndian, Item.header, if_pos (by omega), c_rlpDataImmLenStart_eq, Nat.add_comm (bytesRequired i)]
        simp [pure_eq_ok, ok_bind, noteAppended]

/-- A completed list gets a header exactly if its size is a `size_t`. -/
theorem listHeader_ok_iff {n : Nat} {h : Bytes} : listHeader n = .ok h ↔ n < 2 ^ 64 ∧ h = Item.header c_rlpListStart n := by
  by_cases hn : n < 2 ^ 64
  · rw [listHeader_eq hn, Except.ok.injEq, and_iff_right hn]
    exact eq_comm
  · have hbr : ¬ bytesRequired n ≤ 8 := fun hbr => hn ((bytesRequired_le_iff n 8).mp hbr)
    rw [listHeader, c_rlpListImmLenCount_eq, c_rlpListIndLenZero_eq, if_neg (by omega), if_neg (by omega)]
    exact iff_of_false (fun h => by cases h) (fun h => hn h.1)

/-- The items of a list that is open at the place `p` complete it: its header goes in front of all it holds, and the list is
one more item of what is around it. -/
theorem put_eq {f : RLPStream → Except RLPError RLPStream} {fs : List (RLPStream → Except RLPError RLPStream)} {c : Bytes}
    {cs : List Bytes} (h : List.Forall₂ Puts (f :: fs) (c :: cs)) (out : Bytes) (p : Nat) (rest : List (Nat × Nat)) :
    put ⟨out, ((f :: fs).length, p) :: rest⟩ (f :: fs) = listHeader ((out ++ (c :: cs).flatten).length - p) >>= fun hd =>
      noteAppendedLoop (insertAt (out ++ (c :: cs).flatten) p hd) rest 1 := by
  induction fs generalizing f c cs out with
  | nil =>
    obtain ⟨hf, hnil⟩ := List.forall₂_cons.mp h
    obtain rfl := List.forall₂_nil_left_iff.mp hnil
    rw [List.flatten_cons, List.flatten_nil, List.append_nil]
    rw [put, List.foldlM_cons, hf, noteAppendedLoop]
    simp only [List.length_cons, List.length_nil, Nat.zero_add, Nat.lt_irrefl, if_false, Nat.sub_self, ne_eq,
      not_true_eq_false, List.foldlM_nil, bind_pure]
  | cons g fs ih =>
    obtain ⟨hf, hrest⟩ := List.forall₂_cons.mp h
    obtain ⟨c', cs', hg, hfs, rfl⟩ := List.forall₂_cons_left_iff.mp hrest
    rw [List.flatten_cons, ← List.append_assoc]
    rw [← ih (List.forall₂_cons.mpr ⟨hg, hfs⟩) (out ++ c)]
    rw [put, List.foldlM_cons, hf, noteAppendedLoop, if_neg (by simp only [List.length_cons]; omega),
      if_pos (by simp only [List.length_cons]; omega)]
    rfl

/-- A list of items, on a fresh stream: what is written is the list, if its size is a `size_t`. -/
theorem put_list_ok_iff {fs : List (RLPStream → Except RLPError RLPStream)} {cs : List Bytes} (h : List.Forall₂ Puts fs cs)
    (hne : fs ≠ []) {s : RLPStream} : (appendList {} fs.length >>= fun s => put s fs) = .ok s ↔
      cs.flatten.length < 2 ^ 64 ∧ s = ⟨Item.header 0xc0 cs.flatten.length ++ cs.flatten, []⟩ := by
  cases h with
  | nil => exact absurd rfl hne
  | @cons f c fs cs hf hfs =>
    rw [appendList, if_pos (by simp), pure_eq_ok, ok_bind]
    have hput := put_eq (List.Forall₂.cons hf hfs) [] 0 []
    rw [List.nil_append, Nat.sub_zero] at hput
    have hend : ∀ hd : Bytes, noteAppendedLoop (insertAt (c :: cs).flatten 0 hd) [] 1 = .ok ⟨hd ++ (c :: cs).flatten, []⟩ :=
      fun hd => by rw [insertAt, List.take_zero, List.drop_zero, List.nil_append]; rfl
    show put ⟨[], ((f :: fs).length, 0) :: []⟩ (f :: fs) = .ok s ↔ _
    rw [hput, bind_eq_ok]
    constructor
    · rintro ⟨hd, hhd, hs⟩
      obtain ⟨hlen, rfl⟩ := listHeader_ok_iff.mp hhd
      rw [hend, Except.ok.injEq] at hs
      exact ⟨hlen, hs.symm⟩
    · rintro ⟨hlen, rfl⟩
      exact ⟨_, listHeader_ok_iff.mpr ⟨hlen, rfl⟩, hend _⟩

theorem put_list_eq {fs : List (RLPStream → Except RLPError RLPStream)} {cs : List Bytes} (h : List.Forall₂ Puts fs cs)
    (hne : fs ≠ []) (hlen : cs.flatten.length < 2 ^ 64) :
    (appendList {} fs.length >>= fun s => put s fs) = .ok ⟨Item.header 0xc0 cs.flatten.length ++ cs.flatten, []⟩ :=
  (put_list_ok_iff h hne).mpr ⟨hlen, rfl⟩

end RLPStream

end Webthree
