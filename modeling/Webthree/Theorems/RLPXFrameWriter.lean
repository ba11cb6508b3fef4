import Webthree.Lemmas.RLPXFrameWriter

/-!
# Muxing packets

`mux` keeps to the size it is given and fails none of its assertions, but where half of the size is less than what a frame takes
without its payload: with packets pending in both queues the allotment of the first frame then goes round below zero.
-/

namespace Webthree

namespace RLPXFrameWriter

open RLPXFrameCoder

variable {γ : Type} (c : RLPXFrameCoder γ)

/-- Where half of the size is no frame, and both queues are pending, all that the queue of high priority has to give still fits. -/
def Fits (w : RLPXFrameWriter) (size : UInt32) : Prop :=
  c_overhead + c_blockSize ≤ size.toNat → size.toNat < 2 * c_overhead → w.highPending = true → w.lowPending = true →
    demand w.m_q.1.q w.m_q.1.progress + c_overhead ≤ size.toNat / 16 * 16

/-- `mux` comes to an end, with frames that are no longer than the size altogether. -/
theorem mux_done {w : RLPXFrameWriter} (hw : w.WellFormed) (coder : γ) {size : UInt32} (o_toWrite : List Bytes) (hfits : w.Fits size) :
    ∃ w' coder' ret frames, mux c w coder size o_toWrite = .done w' coder' ret (o_toWrite ++ frames) ∧
      (frames.map List.length).sum ≤ size.toNat ∧ w'.WellFormed := by
  unfold mux
  by_cases hsmall : size.toNat < c_overhead + c_blockSize
  · exact ⟨w, coder, 0, [], by rw [if_pos hsmall, List.append_nil], Nat.zero_le _, hw⟩
  rw [if_neg hsmall]
  have hsize := size.toNat_lt
  set s : Muxing γ := ⟨w, coder, size.toNat / 16 * 16, false, 0, o_toWrite⟩ with hs
  have hmod : s.frameLen % 16 = 0 := Nat.mul_mod_left _ _
  have hframe : s.frameLen = size.toNat / 16 * 16 := rfl
  have hle : s.frameLen ≤ size.toNat := Nat.div_mul_le_self _ _
  have hlt : s.frameLen < 2 ^ 64 := by omega
  have hfit : c_overhead + c_blockSize ≤ s.frameLen → ∀ q t,
      pack (s.w.queue (s.w.servesHigh s.swapQueues)).q (start s) = some (q, t) → t.payload.length + c_overhead ≤ s.frameLen := by
    intro hlen q t hpack
    by_cases hround : s.frameLen < 2 * c_overhead ∧ w.highPending = true ∧ w.lowPending = true
    · obtain ⟨hless, hhigh, hlow⟩ := hround
      rw [payload_wraps hw hless rfl hhigh hlow hpack]
      exact hfits (by omega) (by rw [hframe] at hless; unfold c_overhead c_blockSize at hless ⊢; omega) hhigh hlow
    · refine fits_of_allotment (s := s) hw (allotment_first w hlen hlt ?_) hpack
      intro hhigh hlow
      by_contra hless
      exact hround ⟨by omega, hhigh, hlow⟩
  have hdone : ∃ s', muxLoop c (s.frameLen + 2) s = .done s'.w s'.coder s'.ret s'.o_toWrite ∧ Advanced s s' := by
    rcases turn_advanced c hw hmod hfit with ⟨s', hturn, hs'⟩ | ⟨s', hturn, hs', hswap, -⟩
    · exact ⟨s', by rw [muxLoop, hturn], hs'⟩
    · have hless := hs'.frameLen_le
      obtain ⟨s'', hloop, hs''⟩ := muxLoop_swapped c hs'.wellFormed hs'.mod (by omega) hswap (n := s.frameLen + 1) (by omega)
      exact ⟨s'', by rw [muxLoop, hturn]; exact hloop, hs'.trans hs''⟩
  obtain ⟨s', hloop, hs'⟩ := hdone
  obtain ⟨frames, ho, hsum⟩ := hs'.frames
  exact ⟨s'.w, s'.coder, s'.ret, frames, by rw [← ho]; exact hloop, by omega, hs'.wellFormed⟩

/-- Otherwise the first frame is longer than what is left for it. -/
theorem mux_failed {w : RLPXFrameWriter} (hw : w.WellFormed) (coder : γ) {size : UInt32} (o_toWrite : List Bytes)
    (hfits : ¬ w.Fits size) : mux c w coder size o_toWrite = .failed := by
  unfold Fits at hfits
  simp only [Classical.not_imp, Nat.not_le] at hfits
  obtain ⟨hlarge, hless, hhigh, hlow, hdemand⟩ := hfits
  unfold mux
  rw [if_neg (by omega)]
  set s : Muxing γ := ⟨w, coder, size.toNat / 16 * 16, false, 0, o_toWrite⟩ with hs
  have hmod : s.frameLen % 16 = 0 := Nat.mul_mod_left _ _
  have hle : s.frameLen ≤ size.toNat := Nat.div_mul_le_self _ _
  have hlen : c_overhead + c_blockSize ≤ s.frameLen := by
    show c_overhead + c_blockSize ≤ size.toNat / 16 * 16
    unfold c_overhead c_blockSize at hlarge ⊢
    omega
  have hturn : turn c s = .failed := by
    refine turn_failed c hw hmod hlen (Or.inl hhigh) fun q t hpack => ?_
    rw [payload_wraps hw (by omega) rfl hhigh hlow hpack]
    exact hdemand
  show muxLoop c (s.frameLen + 2) s = .failed
  rw [muxLoop, hturn]

/-- `mux` ends without a failed assertion, and with no more bytes than the size, just when half of the size is a frame, or one of the
queues is empty, or all that the queue of high priority has to give fits in one frame of the size. -/
theorem mux_within_size_iff {w : RLPXFrameWriter} (hw : w.WellFormed) (coder : γ) (size : UInt32) (o_toWrite : List Bytes) :
    (∃ w' coder' ret frames, mux c w coder size o_toWrite = .done w' coder' ret (o_toWrite ++ frames) ∧
      (frames.map List.length).sum ≤ size.toNat) ↔ w.Fits size := by
  constructor
  · rintro ⟨w', coder', ret, frames, hdone, -⟩
    by_contra hfits
    rw [mux_failed c hw coder o_toWrite hfits] at hdone
    cases hdone
  · intro hfits
    obtain ⟨w', coder', ret, frames, hdone, hsum, -⟩ := mux_done c hw coder o_toWrite hfits
    exact ⟨w', coder', ret, frames, hdone, hsum⟩

/-! ## Writers that the members make -/

/-- The writers there are: packets are queued while there is memory for them, and frames are taken. -/
inductive Reached : RLPXFrameWriter → Prop
  | init (protocolType : UInt16) : Reached (init protocolType)
  | enque {w : RLPXFrameWriter} (p : RLPXPacket) (priority : PacketPriority) (h : Reached w) (htype : p.m_type ≠ [])
      (hshort : p.m_type.length < 16) (hroom : ∀ high, ((w.queue high).q.map RLPXPacket.bytes).sum + p.bytes < 2 ^ 63) :
      Reached (w.enque p priority)
  | mux {w w' : RLPXFrameWriter} {coder coder' : γ} {size : UInt32} {ret : Nat} {o_toWrite frames : List Bytes} (h : Reached w)
      (hmux : mux c w coder size o_toWrite = .done w' coder' ret frames) : Reached w'

theorem Queued.append {q : List RLPXPacket} {pr : Progress} (h : Queued q pr) {p : RLPXPacket} (hp : Ordinary p) : Queued (q ++ [p]) pr where
  packets x hx := by
    rcases List.mem_append.mp hx with hx | hx
    · exact h.packets x hx
    · rw [List.mem_singleton.mp hx]
      exact hp
  writing hw := by
    obtain ⟨hm, h0, x, rest, rfl, hd⟩ := h.writing hw
    exact ⟨hm, h0, x, rest ++ [p], rfl, hd⟩
  idle := h.idle

/-- A packet at the end of one of the queues. -/
theorem WellFormed.enque {w : RLPXFrameWriter} (h : w.WellFormed) (p : RLPXPacket) (priority : PacketPriority) (htype : p.m_type ≠ [])
    (hshort : p.m_type.length < 16) (hroom : ∀ high, ((w.queue high).q.map RLPXPacket.bytes).sum + p.bytes < 2 ^ 63) :
    (w.enque p priority).WellFormed := by
  unfold RLPXFrameWriter.enque
  split
  · rename_i hvalid
    have hsum : ∀ high, (((w.queue high).q ++ [p]).map RLPXPacket.bytes).sum < 2 ^ 63 := by
      intro high
      rw [List.map_append, List.sum_append]
      exact hroom high
    have hqueued : ∀ high, Queued ((w.queue high).q ++ [p]) (w.queue high).progress := fun high =>
      (h.queued high).append ⟨hvalid, htype, hshort⟩
    cases priority with
    | PriorityHigh =>
      refine ⟨fun high => ?_, fun high => ?_⟩
      · cases high with
        | false => exact h.queued false
        | true => exact hqueued true
      · cases high with
        | false => exact h.memory false
        | true => exact hsum true
    | PriorityLow =>
      refine ⟨fun high => ?_, fun high => ?_⟩
      · cases high with
        | false => exact hqueued false
        | true => exact h.queued true
      · cases high with
        | false => exact hsum false
        | true => exact h.memory true
  · exact h

/-- Every writer there is is well formed. -/
theorem Reached.wellFormed {w : RLPXFrameWriter} (h : Reached c w) : w.WellFormed := by
  induction h with
  | init protocolType =>
    refine ⟨fun high => ?_, fun high => ?_⟩
    · cases high <;> exact ⟨nofun, nofun, fun _ => rfl⟩
    · cases high <;> exact Nat.two_pow_pos 63
  | enque p priority _ htype hshort hroom ih => exact ih.enque p priority htype hshort hroom
  | @mux w w' coder coder' size ret o_toWrite frames _ hmux ih =>
    by_cases hfits : w.Fits size
    · obtain ⟨v, coder'', ret', frames', hdone, -, hv⟩ := mux_done c ih coder o_toWrite hfits
      rw [hdone] at hmux
      cases hmux
      exact hv
    · rw [mux_failed c ih coder o_toWrite hfits] at hmux
      cases hmux

/-- The packets of `enque(uint8_t, RLPStream&, PacketPriority)` are ordinary ones. -/
theorem Reached.enqueType {w : RLPXFrameWriter} (h : Reached c w) (packetType : UInt8) (payload : Bytes) (priority : PacketPriority)
    (hroom : ∀ high, ((w.queue high).q.map RLPXPacket.bytes).sum + payload.length + 11 < 2 ^ 63) :
    Reached c (w.enqueType packetType payload priority) := by
  have hfew : (toBigEndian packetType.toNat).length ≤ 1 := by
    rw [length_toBigEndian]
    exact (bytesRequired_le_iff _ 1).mpr packetType.toNat_lt
  have hlen := (RLP.length_encodeData (toBigEndian packetType.toNat)).2 (by omega)
  set type := Item.encodeData (toBigEndian packetType.toNat) with htype
  refine h.enque ⟨type, payload⟩ priority (RLP.encodeData_ne_nil _) (by show type.length < 16; omega) fun high => ?_
  have hbytes : (⟨type, payload⟩ : RLPXPacket).bytes = type.length + payload.length := rfl
  have hroom := hroom high
  omega

/-! ## Two queues of one packet each -/

/-- A coder that leaves everything as it is. -/
def plainCoder : RLPXFrameCoder Unit where
  processData _ b := (b, ())
  updateEgressMACWithHeader _ _ := ()
  updateEgressMACWithFrame _ _ := ()
  egressDigest _ := List.replicate 16 0
  processData_length _ _ := rfl
  egressDigest_length _ := rfl

/-- A string of twenty bytes is to be sent first, and a number then. -/
def sampleWriter : RLPXFrameWriter :=
  ((init 0).enque ⟨[1], 0x94 :: List.replicate 20 7⟩ .PriorityHigh).enque ⟨[1], [5]⟩ .PriorityLow

theorem reached_sampleWriter : Reached plainCoder sampleWriter := by
  refine ((Reached.init 0).enque _ _ (List.cons_ne_nil _ _) (by decide) fun high => ?_).enque _ _ (List.cons_ne_nil _ _) (by decide)
    fun high => ?_
  · cases high <;> decide
  · cases high <;> decide +kernel

theorem mux_within_size_sample : ∃ w' coder' ret frames, mux plainCoder sampleWriter () 1024 [] = .done w' coder' ret ([] ++ frames) ∧
    (frames.map List.length).sum ≤ 1024 :=
  (mux_within_size_iff plainCoder reached_sampleWriter.wellFormed () 1024 []).mpr fun _ hless => absurd hless (by decide)

/-- With a size of 64 the assertion on the length of the frame fails. -/
theorem mux_not_within_size : Reached plainCoder sampleWriter ∧ mux plainCoder sampleWriter () 64 [] = .failed := by
  refine ⟨reached_sampleWriter, mux_failed plainCoder reached_sampleWriter.wellFormed () [] fun hfits => ?_⟩
  exact absurd (hfits (by decide) (by decide) (by decide +kernel) (by decide +kernel)) (by decide +kernel)

end RLPXFrameWriter

end Webthree
