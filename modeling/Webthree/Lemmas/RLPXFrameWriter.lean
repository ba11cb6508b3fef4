import Webthree.Lemmas.Fields
import Webthree.Lemmas.RlpTree
import Webthree.Net.RLPXFrameWriter

/-!
# Packing packets into frames

What a frame takes, what a turn of the inner loop does with the first packet of a queue, and what the loop makes of the whole queue.
-/

namespace Webthree

/-! ## Packets -/

namespace RLPXPacket

/-- The bytes of a packet. -/
def bytes (p : RLPXPacket) : Nat := p.m_type.length + p.m_data.length

theorem actualSize_laissezFaire {b : Bytes} {n : Nat} (h : actualSize b RLP.VeryStrict = .ok n) :
    actualSize b RLP.LaissezFaire = .ok n := by
  unfold actualSize at h ⊢
  obtain ⟨r, hr, hn⟩ := bind_eq_ok.mp h
  obtain ⟨rfl, -⟩ := (RLP.ofRef_veryStrict_ok_iff (BytesConstRef.valid_ofBytes b) r).mp hr
  exact hn

/-- The size of a packet that is valid is the number of its bytes. -/
theorem size_eq_bytes {p : RLPXPacket} (h : p.isValid = true) : p.size = p.bytes := by
  obtain ⟨-, htype, hdata⟩ := of_decide_eq_true h
  unfold size
  rw [htype, actualSize_laissezFaire hdata]
  rfl

end RLPXPacket

/-! ## Frames -/

namespace RLPXFrameCoder

/-- The bytes of a frame with a payload of `n` bytes. -/
def frameBytes (n : Nat) : Nat := c_overhead + n + padding n

/-- A frame is no longer than whole blocks that its payload and the rest fit in. -/
theorem frameBytes_le_iff {n len : Nat} (hlen : len % 16 = 0) : frameBytes n ≤ len ↔ n + c_overhead ≤ len := by
  unfold frameBytes padding c_overhead c_blockSize
  omega

theorem frameBytes_mod (n : Nat) : frameBytes n % 16 = 0 := by
  unfold frameBytes padding c_overhead c_blockSize
  omega

theorem lt_frameBytes (n : Nat) : n < frameBytes n := by
  unfold frameBytes c_overhead c_blockSize
  omega

/-- A number of at most `k` bytes takes one more as an item. -/
theorem length_numberItem_le {n k : Nat} (hk : k < 56) (hn : n < 256 ^ k) : (numberItem n).length ≤ k + 1 := by
  have hlen := (bytesRequired_le_iff n k).mpr hn
  rw [← length_toBigEndian] at hlen
  unfold numberItem
  rcases RLP.encodeData_cases (toBigEndian n) with ⟨x, hx, -, he⟩ | ⟨he, -⟩
  · rw [he, List.length_singleton]
    omega
  · rw [he, List.length_append, Item.header, if_pos (by omega), List.length_singleton]
    omega

/-- The numbers that a header holds. -/
def numbers (info : FrameInfo) : List Nat :=
  info.protocolType.toNat :: (info.seqId.map UInt16.toNat).toList ++ (info.totalSize.map UInt32.toNat).toList

/-- The items that a header holds. -/
def items (info : FrameInfo) : List Bytes := (numbers info).map numberItem

theorem encode_items (info : FrameInfo) : (Item.list (((numbers info).map toBigEndian).map .data)).encode = wire (items info) := by
  have hitems : ((numbers info).map toBigEndian).map Item.encodeData = items info := by
    rw [List.map_map]
    rfl
  rw [Item.encode_list, RLP.encodeAll_data, hitems, c_rlpListStart_eq]
  rfl

/-- Two numbers of two bytes, and one of four. -/
theorem length_items_le (info : FrameInfo) : (items info).flatten.length ≤ 11 := by
  obtain ⟨protocolType, seqId, totalSize⟩ := info
  have hshort : ∀ n : UInt16, (numberItem n.toNat).length ≤ 3 := fun n => length_numberItem_le (k := 2) (by omega) n.toNat_lt
  have hlong : ∀ n : UInt32, (numberItem n.toNat).length ≤ 5 := fun n => length_numberItem_le (k := 4) (by omega) n.toNat_lt
  have hprotocol := hshort protocolType
  have hseq : ((seqId.map UInt16.toNat).toList.map numberItem).flatten.length ≤ 3 := by
    cases seqId with
    | none => exact Nat.zero_le _
    | some n => simpa using hshort n
  have htotal : ((totalSize.map UInt32.toNat).toList.map numberItem).flatten.length ≤ 5 := by
    cases totalSize with
    | none => exact Nat.zero_le _
    | some n => simpa using hlong n
  have hsum : (items ⟨protocolType, seqId, totalSize⟩).flatten.length = (numberItem protocolType.toNat).length +
      ((seqId.map UInt16.toNat).toList.map numberItem).flatten.length +
      ((totalSize.map UInt32.toNat).toList.map numberItem).flatten.length := by
    rw [items, numbers, List.map_append, List.map_cons, List.flatten_append, List.flatten_cons, List.length_append, List.length_append]
  omega

theorem length_wire_items (info : FrameInfo) : (wire (items info)).length = (items info).flatten.length + 1 := by
  have hle := length_items_le info
  rw [wire, List.length_append, Item.header, if_pos (by omega), List.length_singleton, Nat.add_comm]

/-- The bytes of the length of a payload. -/
def lengthBytes (len : Nat) : Bytes := [UInt8.ofNat (len >>> 16), UInt8.ofNat (len >>> 8), UInt8.ofNat len]

/-- A header can always be written. -/
theorem header_eq (info : FrameInfo) (payload : Bytes) :
    header info payload = .ok (lengthBytes (payload.length % 2 ^ 32) ++ wire (items info)) := by
  have hitems : toBigEndian info.protocolType.toNat :: (info.seqId.map fun seqId => toBigEndian seqId.toNat).toList ++
      (info.totalSize.map fun totalSize => toBigEndian totalSize.toNat).toList = (numbers info).map toBigEndian := by
    obtain ⟨protocolType, seqId, totalSize⟩ := info
    cases seqId with
    | none => cases totalSize <;> rfl
    | some => cases totalSize <;> rfl
  have hraw : ∀ b : Bytes, ({} : RLPStream).appendRaw b 1 = .ok ⟨b, []⟩ := fun b => rfl
  have hsmall : (Item.list (((numbers info).map toBigEndian).map .data)).encode.length < 2 ^ 64 := by
    have hle := length_items_le info
    rw [encode_items, length_wire_items]
    omega
  unfold header
  dsimp only
  rw [hitems, hraw, ok_bind, RLPStream.writes _ hsmall, RLPStream.noteAppendedLoop, pure_eq_ok, ok_bind, encode_items]
  exact RLPStream.out_eq _

variable {γ : Type} (c : RLPXFrameCoder γ)

/-- What is written for a payload has the bytes of its frame. -/
theorem writeFrame_ok (s : γ) (info : FrameInfo) (payload : Bytes) :
    ∃ frame s', c.writeFrame s info payload = .ok (frame, s') ∧ frame.length = frameBytes payload.length := by
  have hh := header_eq info payload
  set h := lengthBytes (payload.length % 2 ^ 32) ++ wire (items info)
  have hhead : (((h ++ List.replicate 32 0).take 32).take 16).length = 16 := by simp
  unfold writeFrame
  rw [hh, ok_bind]
  by_cases hpad : padding payload.length = 0
  · simp only [hpad, if_true]
    refine ⟨_, _, rfl, ?_⟩
    simp only [List.length_append, c.processData_length, c.egressDigest_length, hhead, List.length_nil, frameBytes, hpad, c_overhead,
      c_blockSize]
    omega
  · simp only [hpad, if_false]
    refine ⟨_, _, rfl, ?_⟩
    simp only [List.length_append, c.processData_length, c.egressDigest_length, hhead, List.length_replicate, frameBytes, c_overhead,
      c_blockSize]
    omega

end RLPXFrameCoder

namespace RLPXFrameWriter

open RLPXFrameCoder

/-! ## Turns of the inner loop -/

section Turns

variable {p : RLPXPacket} {s : Packing}

/-- The portion that is written has the length it should have. -/
theorem length_portion (p : RLPXPacket) {remaining length : Nat} (hr : remaining ≤ p.m_data.length) (hl : length ≤ remaining) :
    ((p.m_data.drop (p.m_data.length - remaining)).take length).length = length := by
  rw [List.length_take, List.length_drop]
  omega

/-- The rest of a packet of several frames. -/
theorem writePortion_eq_rest (hm : s.progress.multiFrame = true) (h0 : 0 < s.progress.remaining)
    (hroom : s.progress.remaining ≤ s.frameAllot) (hd : s.progress.remaining < p.m_data.length) :
    writePortion p s = .stop true { s with
      progress := { s.progress with writing := false, remaining := 0 }
      frameAllot := s.frameAllot - s.progress.remaining
      offset := p.m_data.length - s.progress.remaining
      payload := s.payload ++ p.m_data.drop (p.m_data.length - s.progress.remaining)
      ret := s.ret + 1 } := by
  have hallot : s.frameAllot ≠ 0 := by omega
  have hrem : s.progress.remaining ≠ 0 := by omega
  have hoffset : 0 < p.m_data.length - s.progress.remaining := by omega
  have hlen : (p.m_data.drop (p.m_data.length - s.progress.remaining)).length = s.progress.remaining := by
    rw [List.length_drop]
    omega
  have hportion := List.take_of_length_le hlen.le
  unfold writePortion
  simp only [hm, true_or, not_true, if_false, hallot, hrem, ne_eq, not_false_eq_true, and_self, if_true, hroom, Nat.sub_self, hportion,
    hlen, hoffset, decide_true]

theorem writePortion_rest (hm : s.progress.multiFrame = true) (h0 : 0 < s.progress.remaining)
    (hroom : s.progress.remaining ≤ s.frameAllot) (hd : s.progress.remaining < p.m_data.length) :
    ∃ t, writePortion p s = .stop true t ∧ t.payload.length = s.payload.length + s.progress.remaining ∧
      t.frameAllot = s.frameAllot - s.progress.remaining ∧ t.progress.writing = false ∧ t.progress.multiFrame = true ∧
      t.progress.remaining = 0 ∧ 0 < t.offset := by
  refine ⟨_, writePortion_eq_rest hm h0 hroom hd, ?_, rfl, rfl, hm, rfl, Nat.sub_pos_of_lt hd⟩
  rw [List.length_append, List.length_drop, Nat.sub_sub_self hd.le]

/-- As much of a packet of several frames as there is room for. -/
theorem writePortion_eq_part (hm : s.progress.multiFrame = true) (h0 : 0 < s.frameAllot) (hroom : s.frameAllot < s.progress.remaining)
    (hd : s.progress.remaining ≤ p.m_data.length) :
    writePortion p s = .stop false { s with
      progress := { s.progress with remaining := s.progress.remaining - s.frameAllot }
      frameAllot := 0
      offset := p.m_data.length - s.progress.remaining
      payload := s.payload ++ (p.m_data.drop (p.m_data.length - s.progress.remaining)).take s.frameAllot } := by
  have hallot : s.frameAllot ≠ 0 := by omega
  have hlen := length_portion p hd hroom.le
  have hrem : s.progress.remaining ≠ 0 := by omega
  have hle : ¬ s.progress.remaining ≤ s.frameAllot := by omega
  have hleft : s.progress.remaining - s.frameAllot ≠ 0 := by omega
  unfold writePortion
  simp only [hm, true_or, not_true, if_false, hallot, hrem, ne_eq, not_false_eq_true, and_self, if_true, hle, hleft, false_and,
    or_true, decide_false, hlen, Nat.sub_self]

theorem writePortion_part (hm : s.progress.multiFrame = true) (h0 : 0 < s.frameAllot) (hroom : s.frameAllot < s.progress.remaining)
    (hd : s.progress.remaining ≤ p.m_data.length) :
    ∃ t, writePortion p s = .stop false t ∧ t.payload.length = s.payload.length + s.frameAllot ∧ t.frameAllot = 0 ∧
      t.progress.writing = s.progress.writing ∧ t.progress.multiFrame = true ∧
      t.progress.remaining = s.progress.remaining - s.frameAllot := by
  refine ⟨_, writePortion_eq_part hm h0 hroom hd, ?_, rfl, rfl, hm, rfl⟩
  rw [List.length_append, length_portion p hd hroom.le]

/-- All the data of a packet of one frame. -/
theorem writePortion_eq_whole (hm : s.progress.multiFrame = false) (hr : s.progress.remaining = p.m_data.length)
    (hroom : p.m_data.length ≤ s.frameAllot) :
    writePortion p s = .again { s with
      progress := { s.progress with writing := false, remaining := 0 }
      frameAllot := s.frameAllot - p.m_data.length
      offset := if p.m_data.length = 0 then s.offset else 0
      payload := s.payload ++ p.m_data
      ret := s.ret + 1 } := by
  unfold writePortion
  by_cases h0 : p.m_data.length = 0
  · have hnil := List.length_eq_zero_iff.mp h0
    simp only [hm, hr, hnil, List.length_nil, Bool.false_eq_true, not_false_eq_true, Nat.zero_le, not_true, if_false, ne_eq,
      and_false, or_true, and_self, true_or, if_true, List.append_nil, Nat.sub_zero]
  · have hallot : s.frameAllot ≠ 0 := by omega
    simp only [hm, hr, h0, hroom, hallot, Bool.false_eq_true, not_false_eq_true, not_true, if_false, ne_eq,
      and_self, if_true, Nat.sub_self, or_true, true_or, List.drop_zero, List.take_length]

theorem writePortion_whole (hm : s.progress.multiFrame = false) (hr : s.progress.remaining = p.m_data.length)
    (hroom : p.m_data.length ≤ s.frameAllot) :
    ∃ t, writePortion p s = .again t ∧ t.payload.length = s.payload.length + p.m_data.length ∧
      t.frameAllot = s.frameAllot - p.m_data.length ∧ t.progress.writing = false ∧ t.progress.multiFrame = false :=
  ⟨_, writePortion_eq_whole hm hr hroom, List.length_append, rfl, rfl, hm⟩

end Turns

/-! ## The inner loop -/

/-- A packet as it is queued: valid, and with a type that is no longer than that of a number can be. -/
structure Ordinary (p : RLPXPacket) : Prop where
  isValid : p.isValid = true
  type : p.m_type ≠ []
  short : p.m_type.length < 16

/-- A queue between two frames: what is being written is the rest of its first packet. -/
structure Queued (q : List RLPXPacket) (pr : Progress) : Prop where
  packets : ∀ p ∈ q, Ordinary p
  writing : pr.writing = true → pr.multiFrame = true ∧ 0 < pr.remaining ∧ ∃ p rest, q = p :: rest ∧ pr.remaining < p.m_data.length
  idle : pr.writing = false → pr.multiFrame = false

/-- What a frame takes from a queue when there is room enough: the rest of the packet that is being written, or all packets. -/
def demand (q : List RLPXPacket) (pr : Progress) : Nat := if pr.writing then pr.remaining else (q.map RLPXPacket.bytes).sum

/-- What the loop leaves of the queue `q`, from the variables `s` on. -/
structure Packed (q : List RLPXPacket) (s : Packing) (q' : List RLPXPacket) (t : Packing) : Prop where
  suffix : q' <:+ q
  room : t.payload.length + t.frameAllot = s.payload.length + s.frameAllot
  /-- The queue is between two frames again, but that a packet that is done is still known to have several. -/
  queued : Queued q' (if t.progress.remaining = 0 ∧ t.progress.multiFrame then { t.progress with multiFrame := false } else t.progress)
  /-- The first frame of a packet knows the packet. -/
  first : t.progress.multiFrame = true → t.offset = 0 → t.progress.writing = true
  /-- A frame ends a packet of several. -/
  last : t.progress.remaining = 0 → t.progress.multiFrame = true → t.payload ≠ []
  /-- With room enough, the loop takes all it can. -/
  all : demand q s.progress + c_blockSize ≤ s.frameAllot → t.payload.length = s.payload.length + demand q s.progress

theorem Queued.tail {p : RLPXPacket} {q : List RLPXPacket} {pr pr' : Progress} (h : Queued (p :: q) pr) (hw : pr'.writing = false)
    (hm : pr'.multiFrame = false) : Queued q pr' where
  packets x hx := h.packets x (List.mem_cons_of_mem _ hx)
  writing hw' := by rw [hw] at hw'; cases hw'
  idle _ := hm

/-- The loop from a packet on that is being written. -/
theorem pack_writing {q : List RLPXPacket} {s : Packing} (h : Queued q s.progress) (hw : s.progress.writing = true)
    (hroom : c_blockSize ≤ s.frameAllot) : ∃ q' t, pack q s = some (q', t) ∧ Packed q s q' t := by
  obtain ⟨hm, h0, p, rest, rfl, hd⟩ := h.writing hw
  have hge : ¬ s.frameAllot < c_blockSize := by omega
  have hpos : 0 < s.frameAllot := by unfold c_blockSize at hroom; omega
  have hdemand : demand (p :: rest) s.progress = s.progress.remaining := by rw [demand, if_pos hw]
  have hturn : packPacket p s = writePortion p s := by rw [packPacket, if_pos hw]
  by_cases hrest : s.progress.remaining ≤ s.frameAllot
  · obtain ⟨t, ht, hpay, hallot, hw', hm', hr', hoff⟩ := writePortion_rest hm h0 hrest hd
    refine ⟨rest, t, by rw [pack, if_neg hge, hturn, ht]; rfl, ⟨⟨[p], rfl⟩, by omega, ?_, by omega, fun _ _ hnil => ?_, fun _ => by omega⟩⟩
    · rw [if_pos ⟨hr', hm'⟩]
      exact h.tail hw' rfl
    · rw [hnil, List.length_nil] at hpay
      omega
  · obtain ⟨t, ht, hpay, hallot, hw', hm', hr'⟩ := writePortion_part hm hpos (by omega) hd.le
    refine ⟨p :: rest, t, by rw [pack, if_neg hge, hturn, ht]; rfl, ⟨List.suffix_rfl, by omega, ?_, fun _ _ => hw'.trans hw,
      by omega, ?_⟩⟩
    · rw [if_neg (by omega)]
      refine ⟨h.packets, fun _ => ⟨hm', by omega, p, rest, rfl, by omega⟩, fun hidle => ?_⟩
      rw [hw', hw] at hidle
      cases hidle
    · intro hall
      rw [hdemand] at hall
      omega

/-- The loop from the next packet on. -/
theorem pack_idle {q : List RLPXPacket} {s : Packing} (h : Queued q s.progress) (hw : s.progress.writing = false) :
    ∃ q' t, pack q s = some (q', t) ∧ Packed q s q' t := by
  induction q generalizing s with
  | nil =>
    have hm := h.idle hw
    refine ⟨[], s, by simp [pack, hw], ⟨List.suffix_rfl, rfl, ?_, by simp [hm], by simp [hm], fun _ => ?_⟩⟩
    · simpa [hm] using h
    · simp [demand, hw]
  | cons p rest ih =>
    have hm := h.idle hw
    have hdemand : demand (p :: rest) s.progress = p.bytes + (rest.map RLPXPacket.bytes).sum := by
      rw [demand, if_neg (by simp [hw]), List.map_cons, List.sum_cons]
    by_cases hge : s.frameAllot < c_blockSize
    · refine ⟨p :: rest, s, by rw [pack, if_pos hge], ⟨List.suffix_rfl, rfl, ?_, by simp [hm], by simp [hm],
        fun _ => by omega⟩⟩
      simpa [hm] using h
    obtain ⟨hvalid, htype, hshort⟩ := h.packets p List.mem_cons_self
    have hsize := RLPXPacket.size_eq_bytes hvalid
    have hbytes : p.bytes = p.m_type.length + p.m_data.length := rfl
    have hfits : ¬ s.frameAllot < p.m_type.length := by unfold c_blockSize at hge; omega
    by_cases hmulti : s.frameAllot < p.bytes
    · by_cases hpay : s.payload = []
      · -- the packet takes this frame and others
        let s' : Packing := { s with
          progress := { writing := true, remaining := p.m_data.length, multiFrame := true, sequence := s.m_sequenceId + 1 }
          m_sequenceId := s.m_sequenceId + 1
          frameAllot := s.frameAllot - p.m_type.length
          payload := s.payload ++ p.m_type }
        have hturn : packPacket p s = writePortion p s' := by
          simp [packPacket, hw, htype, hfits, hpay, hsize, hmulti, s']
        have hpos : 0 < s'.frameAllot := by
          show 0 < s.frameAllot - p.m_type.length
          unfold c_blockSize at hge
          omega
        have hrem : s'.frameAllot < s'.progress.remaining := by
          show s.frameAllot - p.m_type.length < p.m_data.length
          omega
        obtain ⟨t, ht, hpay', hallot', hw', hm', hr'⟩ := writePortion_part (p := p) (s := s') rfl hpos hrem (Nat.le_refl _)
        have hpay₀ : s'.payload.length = s.payload.length + p.m_type.length := List.length_append
        have hallot₀ : s'.frameAllot = s.frameAllot - p.m_type.length := rfl
        have hrem₀ : s'.progress.remaining = p.m_data.length := rfl
        refine ⟨p :: rest, t, by rw [pack, if_neg hge, hturn, ht]; rfl, ⟨List.suffix_rfl, by omega, ?_, fun _ _ => hw',
          by omega, fun _ => by omega⟩⟩
        rw [if_neg (by omega)]
        refine ⟨h.packets, fun _ => ⟨hm', by omega, p, rest, rfl, by omega⟩, fun hidle => ?_⟩
        rw [hw'] at hidle
        cases hidle
      · -- the packet waits for the next frame
        let t : Packing := { s with progress := { s.progress with writing := false, remaining := 0, multiFrame := false } }
        have hturn : packPacket p s = .stop false t := by
          simp [packPacket, hw, htype, hpay, hsize, hmulti, t]
        refine ⟨p :: rest, t, by rw [pack, if_neg hge, hturn]; rfl, ⟨List.suffix_rfl, rfl, ?_, nofun, nofun,
          fun _ => by omega⟩⟩
        rw [if_neg (by simp [t])]
        exact ⟨h.packets, nofun, fun _ => rfl⟩
    · let s' : Packing := { s with
        progress := { writing := true, remaining := p.m_data.length, multiFrame := false, sequence := s.progress.sequence }
        frameAllot := s.frameAllot - p.m_type.length
        payload := s.payload ++ p.m_type }
      have hturn : packPacket p s = writePortion p s' := by
        simp [packPacket, hw, htype, hfits, hsize, hmulti, s']
      have hroom : p.m_data.length ≤ s'.frameAllot := by
        show p.m_data.length ≤ s.frameAllot - p.m_type.length
        omega
      obtain ⟨t, ht, hpay', hallot', hw', hm'⟩ := writePortion_whole (p := p) (s := s') rfl rfl hroom
      have hpay₀ : s'.payload.length = s.payload.length + p.m_type.length := List.length_append
      have hallot₀ : s'.frameAllot = s.frameAllot - p.m_type.length := rfl
      obtain ⟨q', u, hu, hpacked⟩ := ih (h.tail hw' hm') hw'
      have hdemand' : demand rest t.progress = (rest.map RLPXPacket.bytes).sum := by rw [demand, if_neg (by simp [hw'])]
      have hroom' := hpacked.room
      refine ⟨q', u, by rw [pack, if_neg hge, hturn, ht]; exact hu, ⟨hpacked.suffix.trans (List.suffix_cons _ _), by omega, hpacked.queued,
        hpacked.first, hpacked.last, fun hall => ?_⟩⟩
      have hrest := hpacked.all (by omega)
      omega

/-- The loop never fails, whatever the room. -/
theorem pack_packed {q : List RLPXPacket} {s : Packing} (h : Queued q s.progress) :
    ∃ q' t, pack q s = some (q', t) ∧ Packed q s q' t := by
  cases hw : s.progress.writing with
  | false => exact pack_idle h hw
  | true =>
    by_cases hroom : c_blockSize ≤ s.frameAllot
    · exact pack_writing h hw hroom
    · obtain ⟨hm, h0, p, rest, rfl, hd⟩ := h.writing hw
      refine ⟨p :: rest, s, by rw [pack, if_pos (by omega)], ⟨List.suffix_rfl, rfl, ?_, fun _ _ => hw, by omega, fun _ => by omega⟩⟩
      rw [if_neg (by omega)]
      exact h

theorem demand_le {q : List RLPXPacket} {pr : Progress} (h : Queued q pr) : demand q pr ≤ (q.map RLPXPacket.bytes).sum := by
  unfold demand
  split
  · rename_i hw
    obtain ⟨-, -, p, rest, rfl, hd⟩ := h.writing hw
    have hp : p.m_data.length ≤ p.bytes := Nat.le_add_left _ _
    rw [List.map_cons, List.sum_cons]
    omega
  · exact Nat.le_refl _

/-! ## Turns of the outer loop -/

/-- A writer between two calls: both queues are between two frames, and the packets of each fit in the memory. -/
structure WellFormed (w : RLPXFrameWriter) : Prop where
  queued : ∀ high, Queued (w.queue high).q (w.queue high).progress
  memory : ∀ high, ((w.queue high).q.map RLPXPacket.bytes).sum < 2 ^ 63

@[simp] theorem queue_setQueue_self (w : RLPXFrameWriter) (high : Bool) (qs : WriterState) : (w.setQueue high qs).queue high = qs := by
  cases high <;> rfl

@[simp] theorem queue_setQueue_not (w : RLPXFrameWriter) (high : Bool) (qs : WriterState) :
    (w.setQueue high qs).queue (!high) = w.queue (!high) := by
  cases high <;> rfl

/-- Only what a queue is set to last counts. -/
theorem setQueue_sequence (w : RLPXFrameWriter) (high : Bool) (qs qs' : WriterState) (n : UInt16) :
    ({ w.setQueue high qs with m_sequenceId := n } : RLPXFrameWriter).setQueue high qs' =
      { w.setQueue high qs' with m_sequenceId := n } := by
  cases high <;> rfl

/-- One queue of a writer is served. -/
theorem WellFormed.serve {w : RLPXFrameWriter} (h : w.WellFormed) {high : Bool} {q : List RLPXPacket} {pr : Progress}
    (hq : Queued q pr) (hsuffix : q <:+ (w.queue high).q) (n : UInt16) :
    WellFormed { w.setQueue high ⟨q, pr⟩ with m_sequenceId := n } := by
  have hsum : (q.map RLPXPacket.bytes).sum ≤ ((w.queue high).q.map RLPXPacket.bytes).sum := by
    obtain ⟨front, hfront⟩ := hsuffix
    rw [← hfront, List.map_append, List.sum_append]
    exact Nat.le_add_left _ _
  have hself : ({ w.setQueue high ⟨q, pr⟩ with m_sequenceId := n } : RLPXFrameWriter).queue high = ⟨q, pr⟩ := queue_setQueue_self w high _
  have hother : ({ w.setQueue high ⟨q, pr⟩ with m_sequenceId := n } : RLPXFrameWriter).queue (!high) = w.queue (!high) :=
    queue_setQueue_not w high _
  refine ⟨fun b => ?_, fun b => ?_⟩
  · rcases Bool.eq_or_eq_not b high with rfl | rfl
    · rw [hself]
      exact hq
    · rw [hother]
      exact h.queued _
  · rcases Bool.eq_or_eq_not b high with rfl | rfl
    · rw [hself]
      exact hsum.trans_lt (h.memory _)
    · rw [hother]
      exact h.memory _

variable {γ : Type} (c : RLPXFrameCoder γ)

/-- What a turn adds to the frames it takes from the length that is left, and the writer stays well formed. -/
structure Advanced (s s' : Muxing γ) : Prop where
  wellFormed : s'.w.WellFormed
  mod : s'.frameLen % 16 = 0
  frames : ∃ frames : List Bytes, s'.o_toWrite = s.o_toWrite ++ frames ∧ (frames.map List.length).sum + s'.frameLen = s.frameLen

theorem Advanced.trans {s s' s'' : Muxing γ} (h : Advanced s s') (h' : Advanced s' s'') : Advanced s s'' := by
  obtain ⟨frames, ho, hsum⟩ := h.frames
  obtain ⟨frames', ho', hsum'⟩ := h'.frames
  refine ⟨h'.wellFormed, h'.mod, frames ++ frames', ?_, ?_⟩
  · rw [ho', ho, List.append_assoc]
  · rw [List.map_append, List.sum_append]
    omega

theorem Advanced.frameLen_le {s s' : Muxing γ} (h : Advanced s s') : s'.frameLen ≤ s.frameLen := by
  obtain ⟨frames, -, hsum⟩ := h.frames
  omega

/-- What the inner loop is started with. -/
def start (s : Muxing γ) : Packing :=
  ⟨(s.w.queue (s.w.servesHigh s.swapQueues)).progress, s.w.m_sequenceId, s.w.allotment s.swapQueues s.frameLen, 0, [], s.ret⟩

/-- A turn whose payload fits in what is left goes through; after it the queues are swapped, and there is less left if they were
before. -/
theorem turn_advanced {s : Muxing γ} (hw : s.w.WellFormed) (hmod : s.frameLen % 16 = 0)
    (hfit : c_overhead + c_blockSize ≤ s.frameLen → ∀ q t, pack (s.w.queue (s.w.servesHigh s.swapQueues)).q (start s) = some (q, t) →
      t.payload.length + c_overhead ≤ s.frameLen) :
    (∃ s', turn c s = .done s' ∧ Advanced s s') ∨
      ∃ s', turn c s = .again s' ∧ Advanced s s' ∧ s'.swapQueues = true ∧ (s.swapQueues = true → s'.frameLen < s.frameLen) := by
  have hnone : Advanced s s := ⟨hw, hmod, [], by simp, by simp⟩
  unfold turn
  by_cases hlen : s.frameLen < c_overhead + c_blockSize
  · exact .inl ⟨s, by rw [if_pos hlen], hnone⟩
  rw [if_neg hlen]
  by_cases hpending : (!s.w.highPending && !s.w.lowPending) = true
  · exact .inl ⟨s, by rw [if_pos hpending], hnone⟩
  rw [if_neg hpending]
  set high := s.w.servesHigh s.swapQueues with hhigh
  obtain ⟨q, t, hpack, hpacked⟩ := pack_packed (s := start s) (hw.queued high)
  have hroom := hfit (by omega) q t hpack
  have hserved := hw.serve hpacked.queued hpacked.suffix t.m_sequenceId
  have hpack' : pack (s.w.queue high).q
      ⟨(s.w.queue high).progress, s.w.m_sequenceId, s.w.allotment s.swapQueues s.frameLen, 0, [], s.ret⟩ = some (q, t) := hpack
  simp only [hpack']
  by_cases hpay : t.payload = []
  · have hsame : (if t.progress.remaining = 0 ∧ t.progress.multiFrame then { t.progress with multiFrame := false } else t.progress) =
        t.progress := if_neg fun h => hpacked.last h.1 h.2 hpay
    rw [hsame] at hserved
    rw [if_neg (not_not.mpr hpay)]
    cases hswap : s.swapQueues with
    | true => exact .inl ⟨_, rfl, hserved, hmod, [], by simp, by simp⟩
    | false => exact .inr ⟨_, rfl, ⟨hserved, hmod, [], by simp, by simp⟩, rfl, nofun⟩
  · obtain ⟨info, hinfo⟩ : ∃ info, frameInfo s.w.m_protocolId q t = some info := by
      unfold frameInfo
      split
      · rename_i hm
        split
        · rename_i hoff
          have hwriting := hpacked.first hm hoff
          have hwriting' : (if t.progress.remaining = 0 ∧ t.progress.multiFrame then { t.progress with multiFrame := false }
              else t.progress).writing = true := by
            split
            · exact hwriting
            · exact hwriting
          obtain ⟨-, -, p, rest, rfl, -⟩ := hpacked.queued.writing hwriting'
          rw [hwriting]
          exact ⟨_, rfl⟩
        · exact ⟨_, rfl⟩
      · exact ⟨_, rfl⟩
    obtain ⟨frame, coder, hframe, hbytes⟩ := c.writeFrame_ok s.coder info t.payload
    have hle : frame.length ≤ s.frameLen := hbytes ▸ (frameBytes_le_iff hmod).mpr hroom
    rw [if_pos hpay, hinfo]
    simp only [hframe]
    rw [if_neg (Nat.not_lt.mpr hle)]
    refine .inr ⟨_, rfl, ⟨?_, ?_, [frame], rfl, ?_⟩, rfl, fun _ => ?_⟩
    · show WellFormed (({ s.w.setQueue high ⟨q, t.progress⟩ with m_sequenceId := t.m_sequenceId } : RLPXFrameWriter).setQueue high _)
      rw [setQueue_sequence]
      exact hserved
    · have hframe16 := frameBytes_mod t.payload.length
      show (s.frameLen - frame.length) % 16 = 0
      omega
    · show ([frame].map List.length).sum + (s.frameLen - frame.length) = s.frameLen
      simp only [List.map_cons, List.map_nil, List.sum_cons, List.sum_nil]
      omega
    · have hpos := lt_frameBytes t.payload.length
      show s.frameLen - frame.length < s.frameLen
      omega

/-- A turn whose payload does not fit in what is left fails. -/
theorem turn_failed {s : Muxing γ} (hw : s.w.WellFormed) (hmod : s.frameLen % 16 = 0) (hlen : c_overhead + c_blockSize ≤ s.frameLen)
    (hpending : s.w.highPending = true ∨ s.w.lowPending = true)
    (hfull : ∀ q t, pack (s.w.queue (s.w.servesHigh s.swapQueues)).q (start s) = some (q, t) → s.frameLen < t.payload.length + c_overhead) :
    turn c s = .failed := by
  set high := s.w.servesHigh s.swapQueues with hhigh
  obtain ⟨q, t, hpack, hpacked⟩ := pack_packed (s := start s) (hw.queued high)
  have hroom := hfull q t hpack
  have hpack' : pack (s.w.queue high).q
      ⟨(s.w.queue high).progress, s.w.m_sequenceId, s.w.allotment s.swapQueues s.frameLen, 0, [], s.ret⟩ = some (q, t) := hpack
  have hsome : ¬ (!s.w.highPending && !s.w.lowPending) = true := by
    rcases hpending with h | h <;> simp [h]
  have hpay : t.payload ≠ [] := by
    intro hnil
    rw [hnil, List.length_nil] at hroom
    omega
  unfold turn
  rw [if_neg (by omega), if_neg hsome]
  simp only [← hhigh, hpack']
  rw [if_pos hpay]
  cases hinfo : frameInfo s.w.m_protocolId q t with
  | none => rfl
  | some info =>
    obtain ⟨frame, coder, hframe, hbytes⟩ := c.writeFrame_ok s.coder info t.payload
    have hlt : s.frameLen < frame.length := by
      by_contra hge
      have hle := (frameBytes_le_iff hmod).mp (hbytes ▸ Nat.not_lt.mp hge)
      omega
    simp only [hframe]
    rw [if_pos hlt]

/-! ## The outer loop -/

theorem subSize_of_le {a b : Nat} (h : b ≤ a) (ha : a < 2 ^ 64) : subSize a b = a - b := by
  unfold subSize
  omega

/-- Once the queues are swapped, a frame may take all that is left. -/
theorem allotment_swapped (w : RLPXFrameWriter) {frameLen : Nat} (h : c_overhead ≤ frameLen) (hlt : frameLen < 2 ^ 64) :
    w.allotment true frameLen = frameLen - c_overhead := by
  unfold allotment
  rw [Bool.not_true, Bool.false_and, Bool.false_and, if_neg Bool.false_ne_true]
  exact subSize_of_le h hlt

/-- When what is left is no less than the allotment and the rest of a frame, the payload fits. -/
theorem fits_of_allotment {s : Muxing γ} (hw : s.w.WellFormed)
    (h : s.w.allotment s.swapQueues s.frameLen + c_overhead ≤ s.frameLen) {q : List RLPXPacket} {t : Packing}
    (hpack : pack (s.w.queue (s.w.servesHigh s.swapQueues)).q (start s) = some (q, t)) : t.payload.length + c_overhead ≤ s.frameLen := by
  obtain ⟨q', t', hpack', hpacked⟩ := pack_packed (s := start s) (hw.queued (s.w.servesHigh s.swapQueues))
  rw [hpack] at hpack'
  obtain ⟨rfl, rfl⟩ := Prod.mk.inj (Option.some.inj hpack')
  have hroom : t.payload.length + t.frameAllot = 0 + s.w.allotment s.swapQueues s.frameLen := hpacked.room
  omega

/-- The loop ends, with a turn for each byte that is left, and one. -/
theorem muxLoop_swapped {s : Muxing γ} (hw : s.w.WellFormed) (hmod : s.frameLen % 16 = 0) (hlt : s.frameLen < 2 ^ 64)
    (hswap : s.swapQueues = true) {n : Nat} (hn : s.frameLen < n) :
    ∃ s', muxLoop c n s = .done s'.w s'.coder s'.ret s'.o_toWrite ∧ Advanced s s' := by
  induction n generalizing s with
  | zero => omega
  | succ n ih =>
    have hfit : c_overhead + c_blockSize ≤ s.frameLen → ∀ q t,
        pack (s.w.queue (s.w.servesHigh s.swapQueues)).q (start s) = some (q, t) → t.payload.length + c_overhead ≤ s.frameLen := by
      intro hlen q t
      refine fits_of_allotment hw ?_
      rw [hswap, allotment_swapped s.w (by omega) hlt]
      omega
    rcases turn_advanced c hw hmod hfit with ⟨s', hturn, hs'⟩ | ⟨s', hturn, hs', hswap', hless⟩
    · exact ⟨s', by rw [muxLoop, hturn], hs'⟩
    · have hshort := hless hswap
      obtain ⟨s'', hloop, hs''⟩ := ih hs'.wellFormed hs'.mod (by omega) hswap' (by omega)
      exact ⟨s'', by rw [muxLoop, hturn]; exact hloop, hs'.trans hs''⟩

/-! ## The first turn -/

/-- Nothing goes round in the allotment of the first frame, or only the two queues and less than twice the rest of a frame do it. -/
theorem allotment_first (w : RLPXFrameWriter) {frameLen : Nat} (h : c_overhead + c_blockSize ≤ frameLen) (hlt : frameLen < 2 ^ 64)
    (hbig : w.highPending = true → w.lowPending = true → 2 * c_overhead ≤ frameLen) :
    w.allotment false frameLen + c_overhead ≤ frameLen := by
  unfold allotment
  by_cases hboth : (!false && w.highPending && w.lowPending) = true
  · have hboth' : w.highPending = true ∧ w.lowPending = true := by simpa using hboth
    have hbig := hbig hboth'.1 hboth'.2
    rw [if_pos hboth]
    split
    · rw [subSize_of_le (by omega) (by omega)]
      omega
    · rw [subSize_of_le (by omega) hlt]
      omega
  · rw [if_neg hboth, subSize_of_le (by omega) hlt]
    omega

/-- With less the allotment goes round, and there is room for all packets there can be. -/
theorem allotment_wraps {w : RLPXFrameWriter} {frameLen : Nat} (hlt : frameLen < 2 * c_overhead) (hhigh : w.highPending = true)
    (hlow : w.lowPending = true) : 2 ^ 63 + c_blockSize ≤ w.allotment false frameLen := by
  unfold allotment subSize c_overhead c_blockSize at *
  rw [hhigh, hlow, Bool.not_false, Bool.true_and, Bool.true_and, if_pos rfl, if_pos (by omega)]
  omega

/-- Where the allotment goes round, the first frame takes all that it can. -/
theorem payload_wraps {s : Muxing γ} (hw : s.w.WellFormed) (hlt : s.frameLen < 2 * c_overhead) (hswap : s.swapQueues = false)
    (hhigh : s.w.highPending = true) (hlow : s.w.lowPending = true) {q : List RLPXPacket} {t : Packing}
    (hpack : pack (s.w.queue (s.w.servesHigh s.swapQueues)).q (start s) = some (q, t)) :
    t.payload.length = demand s.w.m_q.1.q s.w.m_q.1.progress := by
  have hserve : s.w.servesHigh s.swapQueues = true := by
    rw [hswap, servesHigh, hhigh]
    rfl
  obtain ⟨q', t', hpack', hpacked⟩ := pack_packed (s := start s) (hw.queued (s.w.servesHigh s.swapQueues))
  rw [hpack] at hpack'
  obtain ⟨rfl, rfl⟩ := Prod.mk.inj (Option.some.inj hpack')
  have hroom : 2 ^ 63 + c_blockSize ≤ (start s).frameAllot := by
    show _ ≤ s.w.allotment s.swapQueues s.frameLen
    rw [hswap]
    exact allotment_wraps hlt hhigh hlow
  have hstart : (start s).progress = (s.w.queue (s.w.servesHigh s.swapQueues)).progress := rfl
  have hdemand : demand (s.w.queue (s.w.servesHigh s.swapQueues)).q (start s).progress = demand s.w.m_q.1.q s.w.m_q.1.progress := by
    rw [hstart, hserve]
    rfl
  have hmemory := (demand_le (hw.queued true)).trans_lt (hw.memory true)
  have hall := hpacked.all (by rw [hdemand]; exact (Nat.add_le_add_right hmemory.le _).trans hroom)
  rw [hall, hdemand]
  exact Nat.zero_add _

end RLPXFrameWriter

end Webthree
