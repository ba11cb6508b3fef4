import Webthree.Rlp.Reader
import Webthree.Lib.EState

/-!
# What the reader sees

The header that `length`, `payloadOffset` and `actualSize` read is the header of `Item.header`, in both directions: what starts
with a header is read with its length, and what is read without an exception starts with the header of that length. The strict
constructor then pins the whole reference.
-/

namespace Webthree

namespace BytesConstRef

/-- A reference that stays inside its buffer. -/
def Valid (r : BytesConstRef) : Prop := r.m_data + r.m_count ≤ r.mem.length

theorem valid_ofBytes (b : Bytes) : (ofBytes b).Valid := by
  simp [Valid, ofBytes]

theorem toBytes_ofBytes (b : Bytes) : (ofBytes b).toBytes = b := by
  simp [toBytes, ofBytes]

/-- A reference inside its buffer sees as many bytes as it counts. -/
theorem Valid.length_toBytes {r : BytesConstRef} (h : r.Valid) : r.toBytes.length = r.m_count := by
  unfold Valid at h
  rw [toBytes, List.length_take, List.length_drop]
  omega

theorem cropped_eq {r : BytesConstRef} {b n : Nat} (h : b + n ≤ r.m_count) :
    r.cropped b n = ⟨r.mem, r.m_data + b, n⟩ := by
  rw [cropped, if_pos]
  omega

/-- A part of a reference inside its buffer is one, and sees the part. -/
theorem Valid.sub {r : BytesConstRef} (h : r.Valid) {b n : Nat} (hbn : b + n ≤ r.m_count) :
    (⟨r.mem, r.m_data + b, n⟩ : BytesConstRef).Valid ∧
      (⟨r.mem, r.m_data + b, n⟩ : BytesConstRef).toBytes = (r.toBytes.drop b).take n := by
  unfold Valid at h ⊢
  refine ⟨by simp only; omega, ?_⟩
  simp only [toBytes]
  rw [List.drop_take, List.take_take, List.drop_drop, Nat.min_eq_left (by omega)]

end BytesConstRef

namespace RLP

theorem isNull_iff (r : RLP) (h : r.m_data.Valid) : r.isNull = true ↔ r.m_data.toBytes = [] := by
  rw [isNull, decide_eq_true_iff, BytesConstRef.size, ← h.length_toBytes, List.length_eq_zero_iff]

theorem get_zero {r : RLP} {x : UInt8} {t : Bytes} (h : r.m_data.toBytes = x :: t) : r.m_data.get 0 = x := by
  simp [BytesConstRef.get, h]

theorem get_one {r : RLP} {x y : UInt8} {t : Bytes} (h : r.m_data.toBytes = x :: y :: t) : r.m_data.get 1 = y := by
  simp [BytesConstRef.get, h]

theorem size_eq {r : RLP} (h : r.m_data.Valid) : r.m_data.size = r.m_data.toBytes.length :=
  h.length_toBytes.symm

/-- What stands in front of a payload that is not a single byte below `0x80`: the header of its length, from one of the two
starts. A one-byte string stands behind a header only when the byte is at least `0x80`. -/
structure Headed (d : Bytes) (start len : Nat) (t : Bytes) : Prop where
  bytes : d = Item.header start len ++ t
  start_cases : start = 0x80 ∨ start = 0xc0
  small : len < 2 ^ 64 - 1 - 0x100
  single : start = 0x80 → len = 1 → ∀ x s, t = x :: s → 0x80 ≤ x.toNat
  behind : len ≤ t.length

/-- The first byte of a short header, or the first byte of a long one and the length behind it. -/
theorem Headed.first {d : Bytes} {start len : Nat} {t : Bytes} (h : Headed d start len t) :
    (len < 56 ∧ d = UInt8.ofNat (start + len) :: t ∧ (UInt8.ofNat (start + len)).toNat = start + len) ∨
      (56 ≤ len ∧ 1 ≤ bytesRequired len ∧ bytesRequired len ≤ 8 ∧
        d = UInt8.ofNat (start + 55 + bytesRequired len) :: (toBigEndian len ++ t) ∧
        (UInt8.ofNat (start + 55 + bytesRequired len)).toNat = start + 55 + bytesRequired len) := by
  obtain ⟨hd, hs, hl, -⟩ := h
  by_cases hlt : len < 56
  · refine Or.inl ⟨hlt, by simpa [Item.header, hlt] using hd, UInt8.toNat_ofNat_of_lt ?_⟩
    change start + len < 256
    omega
  · have h8 : bytesRequired len ≤ 8 := (bytesRequired_le_iff len 8).mpr (by omega)
    have h1 : 1 ≤ bytesRequired len := by rw [bytesRequired_pos (by omega)]; omega
    refine Or.inr ⟨by omega, h1, h8, by simpa [Item.header, hlt] using hd, UInt8.toNat_ofNat_of_lt ?_⟩
    change start + 55 + bytesRequired len < 256
    omega

theorem not_isNull {r : RLP} (hv : r.m_data.Valid) {x : UInt8} {t : Bytes} (h : r.m_data.toBytes = x :: t) :
    r.isNull = false := by
  rw [Bool.eq_false_iff, Ne, isNull_iff r hv, h]
  simp

/-- A header is accepted by `requireGood`. -/
theorem Headed.requireGood {r : RLP} (hv : r.m_data.Valid) {start len : Nat} {t : Bytes}
    (h : Headed r.m_data.toBytes start len t) : r.requireGood = .ok () := by
  rcases h.first with ⟨hlt, hd, hn⟩ | ⟨hge, h1, h8, hd, hn⟩
  · by_cases hone : start + len = 0x81
    · have hs : start = 0x80 ∧ len = 1 := by have := h.start_cases; omega
      obtain ⟨x, s, rfl⟩ : ∃ x s, t = x :: s := by
        have := h.behind
        cases t with
        | nil => simp at this; omega
        | cons x s => exact ⟨x, s, rfl⟩
      have hx := h.single hs.1 hs.2 x s rfl
      have hsz : ¬r.m_data.size < 2 := by rw [size_eq hv, hd]; simp
      rw [RLP.requireGood, not_isNull hv hd, get_zero hd, get_one hd, hn, c_rlpDataImmLenStart_eq]
      simp only [Bool.false_eq_true, if_false, hone, ne_eq, not_true_eq_false, hsz, Nat.not_lt.mpr hx, pure_eq_ok]
    · rw [RLP.requireGood, not_isNull hv hd, get_zero hd, hn, c_rlpDataImmLenStart_eq]
      simp only [Bool.false_eq_true, if_false, ne_eq, hone, not_false_eq_true, if_true, pure_eq_ok]
  · have hone : start + 55 + bytesRequired len ≠ 0x81 := by have := h.start_cases; omega
    rw [RLP.requireGood, not_isNull hv hd, get_zero hd, hn, c_rlpDataImmLenStart_eq]
    simp only [Bool.false_eq_true, if_false, ne_eq, hone, not_false_eq_true, if_true, pure_eq_ok]

/-- The length behind a long header is read back. -/
theorem Headed.indirectLength {r : RLP} (hv : r.m_data.Valid) {x : UInt8} {len : Nat} {t : Bytes}
    (hd : r.m_data.toBytes = x :: (toBigEndian len ++ t)) (hge : 56 ≤ len) (h8 : bytesRequired len ≤ 8)
    (hl : len < 2 ^ 64 - 1 - 0x100) : r.indirectLength (bytesRequired len) 56 = .ok len := by
  obtain ⟨y, s, hy⟩ : ∃ y s, toBigEndian len = y :: s := by
    cases h : toBigEndian len with
    | nil =>
      have := length_toBigEndian len
      rw [h, List.length_nil, bytesRequired_pos (by omega)] at this
      omega
    | cons y s => exact ⟨y, s, rfl⟩
  have hy0 : y ≠ 0 := head_toBigEndian_ne_zero len y s hy
  have hg : r.m_data.get 1 = y := get_one (t := s ++ t) (by rw [hd, hy]; rfl)
  have hsz : ¬r.m_data.size ≤ bytesRequired len := by
    rw [size_eq hv, hd, List.length_cons, List.length_append, length_toBigEndian]
    omega
  have hread : fromBigEndian ((r.m_data.toBytes.drop 1).take (bytesRequired len)) = len := by
    rw [hd, List.drop_succ_cons, List.drop_zero, ← length_toBigEndian, List.take_left, fromBigEndian_toBigEndian]
  simp only [RLP.indirectLength, hsz, hg, hy0, hread, if_false, and_false, Nat.not_lt.mpr hge, Nat.not_le.mpr hl,
    Nat.not_lt.mpr h8, gt_iff_lt, pure_eq_ok]

/-- The constants of the format, as numbers. -/
theorem length_def (r : RLP) (h : r.isNull = false) : r.length = (do
    r.requireGood
    if (r.m_data.get 0).toNat < 0x80 then pure 1
    else if (r.m_data.get 0).toNat ≤ 0xb7 then pure ((r.m_data.get 0).toNat - 0x80)
    else if (r.m_data.get 0).toNat < 0xc0 then r.indirectLength ((r.m_data.get 0).toNat - 0xb7) 56
    else if (r.m_data.get 0).toNat ≤ 0xf7 then pure ((r.m_data.get 0).toNat - 0xc0)
    else r.indirectLength ((r.m_data.get 0).toNat - 0xf7) 56) := by
  rw [RLP.length, h]
  rfl

/-- Where the payload starts, by the first byte. -/
theorem payloadOffset_def (r : RLP) (h : r.isNull = false) : r.payloadOffset =
    if (r.m_data.get 0).toNat < 0x80 then 0
    else if (r.m_data.get 0).toNat ≤ 0xb7 then 1
    else if (r.m_data.get 0).toNat < 0xc0 then 1 + ((r.m_data.get 0).toNat - 0xb7)
    else if (r.m_data.get 0).toNat ≤ 0xf7 then 1
    else 1 + ((r.m_data.get 0).toNat - 0xf7) := by
  simp only [RLP.payloadOffset, RLP.isSingleByte, RLP.lengthSize, RLP.isData, RLP.isList, h, Bool.not_false,
    Bool.true_and, decide_eq_true_eq, ge_iff_le, gt_iff_lt, c_rlpDataImmLenStart_eq, c_rlpListStart_eq,
    c_rlpDataIndLenZero_eq, c_rlpListIndLenZero_eq]
  split_ifs <;> omega

/-- A header is read with its length, and the payload is found behind it. -/
theorem Headed.length_eq {r : RLP} (hv : r.m_data.Valid) {start len : Nat} {t : Bytes}
    (h : Headed r.m_data.toBytes start len t) :
    r.length = .ok len ∧ r.payloadOffset = (Item.header start len).length := by
  have hg := h.requireGood hv
  have hs := h.start_cases
  rcases h.first with ⟨hlt, hd, hn⟩ | ⟨hge, h1, h8, hd, hn⟩
  · have hnn := not_isNull hv hd
    have hh : (Item.header start len).length = 1 := by rw [Item.header, if_pos hlt]; rfl
    rw [hh]
    rcases hs with rfl | rfl
    · refine ⟨?_, ?_⟩
      · rw [length_def r hnn, hg, ok_bind, get_zero hd, hn, if_neg (by omega), if_pos (by omega), Nat.add_sub_cancel_left]
        rfl
      · rw [payloadOffset_def r hnn, get_zero hd, hn, if_neg (by omega), if_pos (by omega)]
    · refine ⟨?_, ?_⟩
      · rw [length_def r hnn, hg, ok_bind, get_zero hd, hn, if_neg (by omega), if_neg (by omega), if_neg (by omega),
          if_pos (by omega), Nat.add_sub_cancel_left]
        rfl
      · rw [payloadOffset_def r hnn, get_zero hd, hn, if_neg (by omega), if_neg (by omega), if_neg (by omega),
          if_pos (by omega)]
  · have hnn := not_isNull hv hd
    have hi := Headed.indirectLength hv hd hge h8 h.small
    have hh : (Item.header start len).length = 1 + bytesRequired len := by
      rw [Item.header, if_neg (by omega), List.length_cons, length_toBigEndian, Nat.add_comm]
    rw [hh]
    rcases hs with rfl | rfl
    · have he : 0x80 + 55 + bytesRequired len - 0xb7 = bytesRequired len := by omega
      refine ⟨?_, ?_⟩
      · rw [length_def r hnn, hg, ok_bind, get_zero hd, hn, if_neg (by omega), if_neg (by omega), if_pos (by omega), he, hi]
      · rw [payloadOffset_def r hnn, get_zero hd, hn, if_neg (by omega), if_neg (by omega), if_pos (by omega), he]
    · have he : 0xc0 + 55 + bytesRequired len - 0xf7 = bytesRequired len := by omega
      refine ⟨?_, ?_⟩
      · rw [length_def r hnn, hg, ok_bind, get_zero hd, hn, if_neg (by omega), if_neg (by omega), if_neg (by omega),
          if_neg (by omega), he, hi]
      · rw [payloadOffset_def r hnn, get_zero hd, hn, if_neg (by omega), if_neg (by omega), if_neg (by omega),
          if_neg (by omega), he]

/-! ## What is read without an exception -/

theorem requireGood_ok {r : RLP} (hv : r.m_data.Valid) {x : UInt8} {t : Bytes} (hd : r.m_data.toBytes = x :: t)
    (h : r.requireGood = .ok ()) (hx : x.toNat = 0x81) : ∀ y s, t = y :: s → 0x80 ≤ y.toNat := by
  rintro y s rfl
  rw [RLP.requireGood, not_isNull hv hd, get_zero hd, get_one hd, hx, c_rlpDataImmLenStart_eq] at h
  by_contra hy
  simp [Nat.lt_of_not_le hy, throw_eq_error] at h

/-- A length that was read from behind the first byte: it has no leading zero, so it is written there in exactly the bytes it
requires. -/
theorem indirectLength_ok {r : RLP} (hv : r.m_data.Valid) {x : UInt8} {t : Bytes} (hd : r.m_data.toBytes = x :: t)
    {ls len : Nat} (h1 : 1 ≤ ls) (h : r.indirectLength ls 56 = .ok len) :
    56 ≤ len ∧ len < 2 ^ 64 - 1 - 0x100 ∧ bytesRequired len = ls ∧ ∃ s, t = toBigEndian len ++ s := by
  simp only [RLP.indirectLength] at h
  split_ifs at h with c1 c2 c3 c4 c5 c6
  obtain rfl : fromBigEndian ((r.m_data.toBytes.drop 1).take ls) = len := Except.ok.inj h
  rw [size_eq hv, hd, List.length_cons] at c1
  rw [hd, List.drop_succ_cons, List.drop_zero] at c5 c6 ⊢
  have hlen : (t.take ls).length = ls := by rw [List.length_take]; omega
  have hbe : toBigEndian (fromBigEndian (t.take ls)) = t.take ls := by
    apply toBigEndian_fromBigEndian
    intro y s hy
    obtain ⟨z, u, rfl⟩ : ∃ z u, t = z :: u := by
      cases t with
      | nil => simp at hy
      | cons z u => exact ⟨z, u, rfl⟩
    obtain ⟨k, rfl⟩ : ∃ k, ls = k + 1 := ⟨ls - 1, by omega⟩
    rw [List.take_succ_cons, List.cons.injEq] at hy
    rw [get_one hd] at c4
    exact hy.1 ▸ c4
  refine ⟨by omega, by omega, ?_, t.drop ls, ?_⟩
  · rw [← length_toBigEndian, hbe, hlen]
  · rw [hbe, List.take_append_drop]

/-- What is read with a length, and is not a single byte, starts with the header of that length. -/
theorem headed_of_length {r : RLP} (hv : r.m_data.Valid) {x : UInt8} {t : Bytes} (hd : r.m_data.toBytes = x :: t)
    (hx : 0x80 ≤ x.toNat) {len : Nat} (hl : r.length = .ok len) (hsz : r.payloadOffset + len ≤ r.m_data.size) :
    ∃ start u, Headed r.m_data.toBytes start len u ∧ (start = 0x80 ↔ x.toNat < 0xc0) := by
  have hnn := not_isNull hv hd
  have hx' : x.toNat < 256 := x.toNat_lt
  rw [length_def r hnn, bind_eq_ok] at hl
  obtain ⟨⟨⟩, hg, hl⟩ := hl
  rw [payloadOffset_def r hnn, size_eq hv] at hsz
  have himm : ∀ start : Nat, start ≤ x.toNat → x.toNat - start < 56 →
      r.m_data.toBytes = Item.header start (x.toNat - start) ++ t := by
    intro start h1 h2
    rw [Item.header, if_pos h2, Nat.add_sub_cancel' h1, hd]
    simp
  have hind : ∀ start ls : Nat, start + 55 + ls = x.toNat → ∀ s, t = toBigEndian len ++ s → bytesRequired len = ls →
      56 ≤ len → r.m_data.toBytes = Item.header start len ++ s := by
    intro start ls h1 s hs hb hge
    rw [Item.header, if_neg (by omega), hb, h1, hd, hs]
    simp
  rw [get_zero hd] at hl hsz
  rw [hd, List.length_cons] at hsz
  split_ifs at hl hsz with c1 c2 c3 c4
  · omega
  · obtain rfl := Except.ok.inj hl
    refine ⟨0x80, t, ⟨himm _ (by omega) (by omega), .inl rfl, by omega, fun _ h1 => ?_, by omega⟩, by omega⟩
    exact requireGood_ok hv hd hg (by omega)
  · obtain ⟨hge, hsm, hb, s, hs⟩ := indirectLength_ok hv hd (by omega) hl
    have hbl := length_toBigEndian len
    have htl := congrArg List.length hs
    rw [List.length_append] at htl
    exact ⟨0x80, s, ⟨hind _ _ (by omega) s hs hb hge, .inl rfl, hsm, fun _ h1 => by omega, by omega⟩, by omega⟩
  · obtain rfl := Except.ok.inj hl
    exact ⟨0xc0, t, ⟨himm _ (by omega) (by omega), .inr rfl, by omega, fun h => by omega, by omega⟩, by omega⟩
  · obtain ⟨hge, hsm, hb, s, hs⟩ := indirectLength_ok hv hd (by omega) hl
    have hbl := length_toBigEndian len
    have htl := congrArg List.length hs
    rw [List.length_append] at htl
    exact ⟨0xc0, s, ⟨hind _ _ (by omega) s hs hb hge, .inr rfl, hsm, fun h => by omega, by omega⟩, by omega⟩

/-! ## The size of the first item -/

/-- The first item of `d` takes `n` bytes of it. -/
inductive Framed (d : Bytes) : Nat → Prop where
  | null : d = [] → Framed d 0
  | single (x : UInt8) (t : Bytes) : d = x :: t → x.toNat < 0x80 → Framed d 1
  | headed (start len : Nat) (t : Bytes) : Headed d start len t → Framed d ((Item.header start len).length + len)

theorem Headed.cons {d : Bytes} {start len : Nat} {t : Bytes} (h : Headed d start len t) :
    ∃ x u, d = x :: u ∧ 0x80 ≤ x.toNat ∧ (start = 0x80 ↔ x.toNat < 0xc0) := by
  have hs := h.start_cases
  rcases h.first with ⟨hlt, hd, hn⟩ | ⟨hge, h1, h8, hd, hn⟩
  · exact ⟨_, _, hd, by omega, by omega⟩
  · exact ⟨_, _, hd, by omega, by omega⟩

theorem actualSize_def (r : RLP) (h : r.isNull = false) : r.actualSize =
    if (r.m_data.get 0).toNat < 0x80 then .ok 1 else r.length.map (r.payloadOffset + ·) := by
  have hc : (r.isData || r.isList) = true := by
    simp only [RLP.isData, RLP.isList, h, Bool.not_false, Bool.true_and, ge_iff_le, Bool.or_eq_true, decide_eq_true_eq]
    omega
  rw [RLP.actualSize, h, hc, RLP.isSingleByte, h, c_rlpDataImmLenStart_eq]
  simp only [Bool.false_eq_true, if_false, Bool.not_false, Bool.true_and, decide_eq_true_eq, if_true, pure_eq_ok]
  cases r.length <;> rfl

/-- `actualSize`, when the reference holds that much, is the size of the first item. -/
theorem actualSize_ok_iff {r : RLP} (hv : r.m_data.Valid) (n : Nat) :
    (r.actualSize = .ok n ∧ n ≤ r.m_data.size) ↔ Framed r.m_data.toBytes n := by
  constructor
  · rintro ⟨h, hle⟩
    cases hd : r.m_data.toBytes with
    | nil =>
      have hnull : r.isNull = true := (isNull_iff r hv).mpr hd
      rw [RLP.actualSize, hnull] at h
      obtain rfl := Except.ok.inj h
      exact .null rfl
    | cons x t =>
      have hnn := not_isNull hv hd
      rw [actualSize_def r hnn, get_zero hd] at h
      split_ifs at h with hx
      · obtain rfl := Except.ok.inj h
        exact .single x t rfl hx
      · cases hl : r.length with
        | error e => rw [hl] at h; cases h
        | ok len =>
          rw [hl] at h
          obtain rfl := Except.ok.inj h
          obtain ⟨start, u, hh, -⟩ := headed_of_length hv hd (by omega) hl hle
          rw [(hh.length_eq hv).2, ← hd]
          exact .headed start len u hh
  · intro h
    cases h with
    | null hd =>
      refine ⟨?_, Nat.zero_le _⟩
      rw [RLP.actualSize, (isNull_iff r hv).mpr hd]
      rfl
    | single x t hd hx =>
      rw [actualSize_def r (not_isNull hv hd), get_zero hd, if_pos hx, size_eq hv, hd]
      exact ⟨rfl, by simp⟩
    | headed start len t hh =>
      obtain ⟨x, u, hd, hx, -⟩ := hh.cons
      obtain ⟨hl, ho⟩ := hh.length_eq hv
      rw [actualSize_def r (not_isNull hv hd), get_zero hd, if_neg (by omega), hl, ho, size_eq hv, hh.bytes]
      have := hh.behind
      exact ⟨rfl, by rw [List.length_append]; omega⟩

theorem sizeAsEncoded_ok_iff {d : BytesConstRef} (hv : d.Valid) (n : Nat) :
    sizeAsEncoded d = .ok n ↔ Framed d.toBytes n := by
  rw [← actualSize_ok_iff (r := ⟨d⟩) hv]
  have hf : (ThrowOnFail ||| FailIfTooSmall) &&& FailIfTooBig = 0 := by decide
  have hs : (ThrowOnFail ||| FailIfTooSmall) &&& FailIfTooSmall ≠ 0 := by decide
  have ht : (ThrowOnFail ||| FailIfTooSmall) &&& ThrowOnFail ≠ 0 := by decide
  rw [sizeAsEncoded, ofRef]
  simp only [hf, hs, ht, ne_eq, not_true_eq_false, not_false_eq_true, if_true, if_false, pure_eq_ok, ok_bind, failOr]
  cases ha : (⟨d⟩ : RLP).actualSize with
  | error e => simp [error_bind]
  | ok m =>
    by_cases hm : m > d.size
    · simp only [ok_bind, hm, decide_true, if_true, throw_eq_error, error_bind, reduceCtorEq, false_iff, not_and]
      intro h
      obtain rfl := Except.ok.inj h
      omega
    · simp only [ok_bind, hm, decide_false, Bool.false_eq_true, if_false, ha, iff_self_and]
      intro h
      obtain rfl := Except.ok.inj h
      omega

/-- The strict constructor accepts exactly the references that are one item. -/
theorem ofRef_veryStrict_ok_iff {d : BytesConstRef} (hv : d.Valid) (r : RLP) :
    ofRef d VeryStrict = .ok r ↔ r = ⟨d⟩ ∧ Framed d.toBytes d.size := by
  rw [← actualSize_ok_iff (r := ⟨d⟩) hv]
  have hf : VeryStrict &&& FailIfTooBig ≠ 0 := by decide
  have hs : VeryStrict &&& FailIfTooSmall ≠ 0 := by decide
  have ht : VeryStrict &&& ThrowOnFail ≠ 0 := by decide
  rw [ofRef]
  simp only [hf, hs, ht, ne_eq, not_false_eq_true, if_true, failOr]
  cases ha : (⟨d⟩ : RLP).actualSize with
  | error e => simp [error_bind]
  | ok m =>
    rcases Nat.lt_trichotomy m d.size with hm | hm | hm
    · simp [ok_bind, hm, throw_eq_error, error_bind, Nat.ne_of_lt hm]
    · simp [ok_bind, hm, ha, pure_eq_ok, eq_comm]
    · simp [ok_bind, hm, ha, pure_eq_ok, throw_eq_error, Nat.not_lt.mpr (Nat.le_of_lt hm), Nat.ne_of_gt hm]

end RLP

end Webthree
