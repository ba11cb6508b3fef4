import Webthree.Lemmas.RLPXFrameWriter
import Webthree.Net.RLPXFrameReader

/-!
# Frames on both ends

What the reading end of a connection makes of a frame that the other end has written: its cipher and its digest, its header, and what is
in it.
-/

namespace Webthree

/-! ## Ciphers and digests -/

/-- A byte that is added twice goes away. -/
theorem xor_xor_self (x y : UInt8) : x ^^^ y ^^^ y = x := by
  rw [UInt8.xor_assoc, UInt8.xor_self, UInt8.xor_zero]

/-- So do bytes of the same length. -/
theorem xorBytes_xorBytes {a b : Bytes} (h : a.length = b.length) : xorBytes (xorBytes a b) b = a := by
  refine List.ext_getElem (by simp [xorBytes, h]) fun i hi hi' => ?_
  simp only [xorBytes, List.getElem_zipWith, xor_xor_self]

/-- The end that writes and the end that reads: one key stream at one position, and digests that have taken in the same. -/
structure Synced (writer reader : FrameCoder) : Prop where
  frameKey : reader.m_frameDecKey = writer.m_frameEncKey
  position : reader.m_frameDec = writer.m_frameEnc
  macKey : reader.m_macEncKey = writer.m_macEncKey
  mac : reader.m_ingressMac = writer.m_egressMac

namespace FrameCrypto

variable (k : FrameCrypto)

/-- The cipher keeps the length. -/
@[simp]
theorem length_processAt (key : H256) (position : Nat) (b : Bytes) : (k.processAt key position b).length = b.length :=
  List.length_mapIdx

/-- The stream cipher goes on where it stopped. -/
theorem processAt_append (key : H256) (position : Nat) (a b : Bytes) :
    k.processAt key position (a ++ b) = k.processAt key position a ++ k.processAt key (position + a.length) b := by
  have hplace : ∀ i, position + (i + a.length) = position + a.length + i := fun i => by omega
  unfold processAt
  rw [List.mapIdx_append]
  simp only [hplace]

/-- A stream cipher takes back what it did at the same position. -/
theorem processAt_processAt (key : H256) (position : Nat) (b : Bytes) : k.processAt key position (k.processAt key position b) = b := by
  refine List.ext_getElem (by simp) fun i hi hi' => ?_
  simp only [processAt, List.getElem_mapIdx, xor_xor_self]

/-- Both ends of a handshake are set up alike, one for what the other reads. -/
theorem setup_synced (originated : Bool) (a b nonce nonce' : H256) (ackCipher authCipher : Bytes) :
    Synced (k.setup originated (k.toPublic b) nonce' a nonce ackCipher authCipher)
      (k.setup (!originated) (k.toPublic a) nonce b nonce' ackCipher authCipher) := by
  have hshared := k.agree_symm b a
  have hxor : ∀ m : H256, xorBytes (xorBytes (xorBytes m.bytes nonce.bytes) nonce.bytes) nonce'.bytes = xorBytes m.bytes nonce'.bytes := by
    intro m
    rw [xorBytes_xorBytes (m.length_eq.trans nonce.length_eq.symm)]
  cases originated with
  | false => exact ⟨by simp [setup, hshared], rfl, by simp [setup, hshared], by simp [setup, hshared, hxor]⟩
  | true => exact ⟨by simp [setup, hshared], rfl, by simp [setup, hshared], by simp [setup, hshared, hxor]⟩

/-- A header is accepted and decrypted where the ends agree on the digest. -/
theorem authAndDecryptHeader_eq {r : FrameCoder} {block : Bytes} (hblock : block.length = 16) :
    k.authAndDecryptHeader r (k.processAt r.m_frameDecKey r.m_frameDec block ++
        k.digest (k.updateMAC r.m_macEncKey r.m_ingressMac (k.processAt r.m_frameDecKey r.m_frameDec block))) =
      (true, block ++ k.digest (k.updateMAC r.m_macEncKey r.m_ingressMac (k.processAt r.m_frameDecKey r.m_frameDec block)),
        { r with
          m_frameDec := r.m_frameDec + 16
          m_ingressMac := k.updateMAC r.m_macEncKey r.m_ingressMac (k.processAt r.m_frameDecKey r.m_frameDec block) }) := by
  set head := k.processAt r.m_frameDecKey r.m_frameDec block with hhead
  have hlen : head.length = 16 := (k.length_processAt _ _ _).trans hblock
  set mac := k.digest (k.updateMAC r.m_macEncKey r.m_ingressMac head) with hmac
  have hmac16 : mac.length = 16 := k.length_digest _
  have hcropped : croppedTo (head ++ mac) 16 = head := by
    rw [croppedTo, if_pos (by rw [List.length_append]; omega), ← hlen, List.take_left]
  have hdrop : (head ++ mac).drop 16 = mac := by rw [← hlen, List.drop_left]
  have htake : (head ++ mac).take 16 = head := by rw [← hlen, List.take_left]
  unfold authAndDecryptHeader
  simp only [hcropped, hdrop, htake, ← hmac, List.take_of_length_le hmac16.le, ne_eq, not_true_eq_false, if_false]
  rw [hhead, processAt_processAt]

/-- A frame is accepted and decrypted where the ends agree on the digest. -/
theorem authAndDecryptFrame_eq {r : FrameCoder} (t : Bytes) :
    k.authAndDecryptFrame r (k.processAt r.m_frameDecKey r.m_frameDec t ++
        k.digest (k.updateMAC r.m_macEncKey (r.m_ingressMac ++ k.processAt r.m_frameDecKey r.m_frameDec t) [])) =
      (true, t ++ k.digest (k.updateMAC r.m_macEncKey (r.m_ingressMac ++ k.processAt r.m_frameDecKey r.m_frameDec t) []),
        { r with
          m_frameDec := r.m_frameDec + t.length
          m_ingressMac := k.updateMAC r.m_macEncKey (r.m_ingressMac ++ k.processAt r.m_frameDecKey r.m_frameDec t) [] }) := by
  set cipherText := k.processAt r.m_frameDecKey r.m_frameDec t with hcipher
  have hlen : cipherText.length = t.length := k.length_processAt _ _ _
  set mac := k.digest (k.updateMAC r.m_macEncKey (r.m_ingressMac ++ cipherText) []) with hmac
  have hmac16 : mac.length = 16 := k.length_digest _
  have hsize : (cipherText ++ mac).length - 16 = cipherText.length := by rw [List.length_append, hmac16]; omega
  unfold authAndDecryptFrame
  simp only [hsize, List.take_left, List.drop_left, ← hmac, ne_eq, not_true_eq_false, if_false]
  rw [hlen, hcipher, processAt_processAt]

/-- What is written for a payload: the header and the payload with its padding under the key stream, each with a digest behind it. -/
theorem writeFrame_eq {s : FrameCoder} {info : FrameInfo} {payload h : Bytes} (hh : RLPXFrameCoder.header info payload = .ok h) :
    k.frameCoder.writeFrame s info payload =
      let block := (h ++ List.replicate 32 0).take 16
      let head := k.processAt s.m_frameEncKey s.m_frameEnc block
      let mac := k.updateMAC s.m_macEncKey s.m_egressMac head
      let body := payload ++ List.replicate (RLPXFrameCoder.padding payload.length) 0
      let cipherText := k.processAt s.m_frameEncKey (s.m_frameEnc + 16) body
      let mac' := k.updateMAC s.m_macEncKey (mac ++ cipherText) []
      .ok (head ++ k.digest mac ++ (cipherText ++ k.digest mac'),
        { s with m_frameEnc := s.m_frameEnc + 16 + body.length, m_egressMac := mac' }) := by
  have hblock : ((h ++ List.replicate 32 0).take 32).take 16 = (h ++ List.replicate 32 0).take 16 := by
    rw [List.take_take]
    rfl
  have hlen : ((h ++ List.replicate 32 0).take 16).length = 16 := by simp
  set block := (h ++ List.replicate 32 0).take 16
  set head := k.processAt s.m_frameEncKey s.m_frameEnc block with hhead
  have hhead16 : head.length = 16 := (k.length_processAt _ _ _).trans hlen
  have hcropped : croppedTo head 16 = head := by rw [croppedTo, if_pos hhead16.ge, List.take_of_length_le hhead16.le]
  unfold RLPXFrameCoder.writeFrame
  rw [hh, ok_bind]
  by_cases hpad : RLPXFrameCoder.padding payload.length = 0
  · simp only [hblock, hpad, if_true, frameCoder, hlen, hcropped, ← hhead, List.replicate_zero, List.append_nil, List.append_assoc]
    rfl
  · simp only [hblock, hpad, if_false, frameCoder, hlen, hcropped, ← hhead, List.append_assoc, processAt_append, List.length_append,
      Nat.add_assoc]
    rfl

/-- A frame as the reading end decrypts it. -/
theorem frame_read {s s' r : FrameCoder} {info : FrameInfo} {payload h frame : Bytes} (hs : Synced s r)
    (hh : RLPXFrameCoder.header info payload = .ok h) (hw : k.frameCoder.writeFrame s info payload = .ok (frame, s')) :
    ∃ mac mac' r₁ r₂, (croppedTo frame 32).length = 32 ∧ mac'.length = 16 ∧
      k.authAndDecryptHeader r (croppedTo frame 32) = (true, (h ++ List.replicate 32 0).take 16 ++ mac, r₁) ∧
      k.authAndDecryptFrame r₁ (frame.drop 32) =
        (true, payload ++ List.replicate (RLPXFrameCoder.padding payload.length) 0 ++ mac', r₂) ∧ Synced s' r₂ := by
  rw [k.writeFrame_eq hh] at hw
  obtain ⟨rfl, rfl⟩ := Prod.mk.inj (Except.ok.inj hw)
  have hblock : ((h ++ List.replicate 32 0).take 16).length = 16 := by simp
  have hheader := k.authAndDecryptHeader_eq (r := r) hblock
  rw [hs.frameKey, hs.position, hs.macKey, hs.mac] at hheader
  set block := (h ++ List.replicate 32 0).take 16
  set head := k.processAt s.m_frameEncKey s.m_frameEnc block
  set mac := k.updateMAC s.m_macEncKey s.m_egressMac head
  have hhead : (head ++ k.digest mac).length = 32 := by rw [List.length_append, length_processAt, hblock, length_digest]
  set rest := k.processAt s.m_frameEncKey (s.m_frameEnc + 16) (payload ++ List.replicate (RLPXFrameCoder.padding payload.length) 0) ++ _
  have htake : croppedTo (head ++ k.digest mac ++ rest) 32 = head ++ k.digest mac := by
    rw [croppedTo, if_pos (by rw [List.length_append]; omega), ← hhead, List.take_left]
  have hdrop : (head ++ k.digest mac ++ rest).drop 32 = rest := by rw [← hhead, List.drop_left]
  rw [htake, hdrop, hheader]
  exact ⟨_, _, _, _, hhead, k.length_digest _, rfl, k.authAndDecryptFrame_eq _, ⟨rfl, rfl, rfl, rfl⟩⟩

end FrameCrypto

/-! ## Headers -/

namespace RLP

/-- The constructor that allows for more behind the item. -/
theorem ofRef_framed {d : BytesConstRef} (hv : d.Valid) {n : Nat} (hf : Framed d.toBytes n) :
    ofRef d (ThrowOnFail ||| FailIfTooSmall) = .ok ⟨d⟩ := by
  have hbig : (ThrowOnFail ||| FailIfTooSmall) &&& FailIfTooBig = 0 := by decide
  have hsmall : (ThrowOnFail ||| FailIfTooSmall) &&& FailIfTooSmall ≠ 0 := by decide
  obtain ⟨hsize, hle⟩ := (actualSize_ok_iff (r := ⟨d⟩) hv n).mpr hf
  have hfits : ¬ n > d.size := Nat.not_lt.mpr hle
  rw [ofRef]
  simp only [hbig, hsmall, ne_eq, not_true_eq_false, not_false_eq_true, if_true, if_false, pure_eq_ok, ok_bind, failOr, hsize, hfits,
    decide_false, Bool.false_eq_true]

/-- A list with more behind it is read as the list. -/
theorem list_of_prefix {r : RLP} (hv : r.m_data.Valid) {cs : List Bytes} {b : Bytes} (hcs : ∀ c ∈ cs, c ≠ [] ∧ Framed c c.length)
    (hsmall : Small cs.flatten) (hd : r.m_data.toBytes = wire cs ++ b) :
    ofRef r.m_data (ThrowOnFail ||| FailIfTooSmall) = .ok r ∧ r.itemCount = .ok cs.length ∧
      ∀ i k n, k < 2 ^ 32 → cs.getD i [] = numberItem n → n < 256 ^ k → ∃ x, r.index i = .ok x ∧ x.toInt k Strict = .ok n := by
  have hh : Headed r.m_data.toBytes 0xc0 cs.flatten.length (cs.flatten ++ b) :=
    ⟨by rw [hd, wire, List.append_assoc], .inr rfl, hsmall, (fun h => by cases h), by rw [List.length_append]; omega⟩
  obtain ⟨x, t, hxt, -, hx⟩ := hh.cons
  have hlist : r.isList = true := (isList_iff hv hxt).mpr (by have := hx.not; omega)
  obtain ⟨hpl, hplv, hplb⟩ := hh.payload hv
  rw [List.take_left] at hplb
  have hchunks : Chunks (⟨r.m_data.mem, r.m_data.m_data + (Item.header 0xc0 cs.flatten.length).length, cs.flatten.length⟩ :
      BytesConstRef).toBytes cs := ⟨hplb, hcs⟩
  refine ⟨ofRef_framed hv (.headed _ _ _ hh), ?_, fun i k n hk hi hn => ?_⟩
  · rw [itemCount, if_pos hlist, hpl, ok_bind]
    exact itemsLoop_of_chunks hplv hchunks (Nat.lt_succ_self _)
  · obtain ⟨y, hy, hyv, hyb, hyf⟩ := index_eq hpl hplv hchunks i
    exact ⟨y, hy, (toInt_ok_iff hyv hyf hk n).mpr ⟨hyb.trans hi, hn⟩⟩

end RLP

namespace RLPXFrameCoder

/-- What the reading end finds in a header. -/
def FrameInfo.read (info : FrameInfo) (length : Nat) : RLPXFrameInfo :=
  { length
    padding := padding length
    protocolId := info.protocolType
    multiFrame := info.seqId.isSome
    sequenceId := info.seqId.getD 0
    totalLength := info.totalSize.getD 0 }

/-- Three bytes hold the length of a frame. -/
theorem lengthBytes_read {len : Nat} (hlen : len < 2 ^ 24) (rest : Bytes) :
    (((lengthBytes len ++ rest).getD 0 0).toNat * 256 + ((lengthBytes len ++ rest).getD 1 0).toNat) * 256 +
      ((lengthBytes len ++ rest).getD 2 0).toNat = len := by
  have hbyte : ∀ n : Nat, (UInt8.ofNat n).toNat = n % 256 := fun n => UInt8.toNat_ofNat'
  show ((UInt8.ofNat (len >>> 16)).toNat * 256 + (UInt8.ofNat (len >>> 8)).toNat) * 256 + (UInt8.ofNat len).toNat = len
  rw [hbyte, hbyte, hbyte, Nat.shiftRight_eq_div_pow, Nat.shiftRight_eq_div_pow]
  omega

/-- A block with a header in it, and what is behind it. -/
theorem ofHeader_eq {info : FrameInfo} {payload h : Bytes} (hh : header info payload = .ok h) (hlen : payload.length < 2 ^ 24)
    (hseq : info.seqId = none → info.totalSize = none) (mac : Bytes) :
    RLPXFrameInfo.ofHeader ((h ++ List.replicate 32 0).take 16 ++ mac) = .ok (FrameInfo.read info payload.length) := by
  rw [header_eq, Nat.mod_eq_of_lt (hlen.trans (by norm_num))] at hh
  obtain rfl := Except.ok.inj hh
  have hwire := length_wire_items info
  have hitems := length_items_le info
  obtain ⟨rest, hblock⟩ : ∃ rest, (lengthBytes payload.length ++ wire (items info) ++ List.replicate 32 0).take 16 ++ mac =
      lengthBytes payload.length ++ (wire (items info) ++ rest) := by
    refine ⟨(List.replicate 32 0).take (16 - (3 + (wire (items info)).length)) ++ mac, ?_⟩
    have hshort : (lengthBytes payload.length ++ wire (items info)).length = 3 + (wire (items info)).length := List.length_append
    rw [List.take_append, List.take_of_length_le (by omega), hshort]
    simp only [List.append_assoc]
  rw [hblock, RLPXFrameInfo.ofHeader, lengthBytes_read hlen]
  set r : RLP := ⟨.ofBytes (wire (items info) ++ rest)⟩
  have hcs : ∀ c ∈ items info, c ≠ [] ∧ RLP.Framed c c.length := by
    intro c hc
    obtain ⟨n, hn, rfl⟩ := List.mem_map.mp hc
    have hbound : n < 256 ^ 4 := by
      rw [numbers, List.cons_append, List.mem_cons, List.mem_append, Option.mem_toList, Option.mem_toList] at hn
      rcases hn with rfl | hn | hn
      · exact info.protocolType.toNat_lt.trans (by norm_num)
      · obtain ⟨x, -, rfl⟩ := Option.map_eq_some_iff.mp hn
        exact x.toNat_lt.trans (by norm_num)
      · obtain ⟨x, -, rfl⟩ := Option.map_eq_some_iff.mp hn
        exact x.toNat_lt
    exact RLP.item_numberItem (hbound.trans (by norm_num))
  obtain ⟨hof, hcount, hint⟩ := RLP.list_of_prefix (r := r) (BytesConstRef.valid_ofBytes _) (b := rest) hcs
    (by unfold RLP.Small; omega) (BytesConstRef.toBytes_ofBytes _)
  have hdrop : (lengthBytes payload.length ++ (wire (items info) ++ rest)).drop 3 = wire (items info) ++ rest := rfl
  rw [hdrop, show RLP.ofRef (.ofBytes (wire (items info) ++ rest)) _ = .ok r from hof]
  obtain ⟨protocolType, seqId, totalSize⟩ := info
  obtain ⟨x, hx, hxint⟩ := hint 0 2 protocolType.toNat (by norm_num) rfl protocolType.toNat_lt
  rw [ok_bind, hx, ok_bind, hxint, ok_bind, hcount, ok_bind]
  cases seqId with
  | none =>
    obtain rfl : totalSize = none := hseq rfl
    simp [items, numbers, FrameInfo.read, padding, pure_eq_ok, ok_bind]
  | some seqId =>
    obtain ⟨y, hy, hyint⟩ := hint 1 2 seqId.toNat (by norm_num) rfl seqId.toNat_lt
    cases totalSize with
    | none => simp [items, numbers, FrameInfo.read, padding, pure_eq_ok, ok_bind, hy, hyint]
    | some totalSize =>
      obtain ⟨z, hz, hzint⟩ := hint 2 4 totalSize.toNat (by norm_num) rfl totalSize.toNat_lt
      simp [items, numbers, FrameInfo.read, padding, pure_eq_ok, ok_bind, hy, hyint, hz, hzint]

end RLPXFrameCoder

/-! ## Packets -/

open RLP

/-- A framed item is taken off by its length. -/
theorem nextRLP_eq {b : Bytes} {n : Nat} (hf : Framed b n) : nextRLP b = b.take n := by
  have hbig : AllowNonCanon &&& FailIfTooBig = 0 := by decide
  have hsmall : AllowNonCanon &&& FailIfTooSmall = 0 := by decide
  have hsize : RLPXPacket.actualSize b AllowNonCanon = .ok n := by
    have hactual := (actualSize_ok_iff (r := ⟨.ofBytes b⟩) (BytesConstRef.valid_ofBytes b) n).mpr (by
      rw [BytesConstRef.toBytes_ofBytes]
      exact hf)
    rw [RLPXPacket.actualSize, ofRef]
    simp only [hbig, hsmall, ne_eq, not_true_eq_false, if_false, pure_eq_ok, ok_bind]
    exact hactual.1
  unfold nextRLP
  rw [hsize]
  exact congrArg b.take (Nat.min_eq_left hf.le_length)

/-- What begins with an item gives that. -/
theorem nextRLP_append {b : Bytes} (hf : Framed b b.length) (hne : b ≠ []) (rest : Bytes) : nextRLP (b ++ rest) = b := by
  rw [nextRLP_eq (hf.append hne rest), List.take_left]

/-- The first bytes of an item are none. -/
theorem not_framed_take {d : Bytes} (hf : Framed d d.length) {n : Nat} (h0 : 0 < n) (hn : n < d.length) :
    ¬ Framed (d.take n) (d.take n).length := by
  intro htake
  have hlen : (d.take n).length = n := by
    rw [List.length_take]
    omega
  have hne : d.take n ≠ [] := by
    intro hnil
    rw [hnil, List.length_nil] at hlen
    omega
  have hwhole := htake.append hne (d.drop n)
  rw [List.take_append_drop, hlen] at hwhole
  have := hwhole.unique hf
  omega

namespace RLPXPacket

/-- An item is as long as the bytes when it is framed by all of them. -/
theorem actualSize_eq_length_iff {b : Bytes} : actualSize b VeryStrict = .ok b.length ↔ Framed b b.length := by
  unfold actualSize
  rw [bind_eq_ok]
  constructor
  · rintro ⟨r, hr, -⟩
    exact (ofRef_ofBytes_ok_iff.mp hr).2
  · intro hf
    refine ⟨_, ofRef_ofBytes_ok_iff.mpr ⟨rfl, hf⟩, ?_⟩
    exact ((actualSize_ok_iff (r := ⟨.ofBytes b⟩) (BytesConstRef.valid_ofBytes b) b.length).mpr (by
      rw [BytesConstRef.toBytes_ofBytes]
      exact hf)).1

/-- A packet is valid when type and data are items of their own length, and one of them is there. -/
theorem isValid_iff {p : RLPXPacket} : p.isValid = true ↔
    ¬ (p.m_type = [] ∧ p.m_data = []) ∧ Framed p.m_type p.m_type.length ∧ Framed p.m_data p.m_data.length := by
  rw [isValid, decide_eq_true_iff, actualSize_eq_length_iff, actualSize_eq_length_iff]

/-- The bytes of a packet. -/
def content (p : RLPXPacket) : Bytes := p.m_type ++ p.m_data

/-- The content of a packet is as long as the packet says. -/
theorem length_content (p : RLPXPacket) : p.content.length = p.bytes := List.length_append

/-- A valid packet with a type and with data. -/
structure Full (p : RLPXPacket) : Prop where
  type : p.m_type ≠ []
  data : p.m_data ≠ []
  isValid : p.isValid = true

/-- Both parts of a full packet are framed. -/
theorem Full.framed {p : RLPXPacket} (h : p.Full) : Framed p.m_type p.m_type.length ∧ Framed p.m_data p.m_data.length :=
  (isValid_iff.mp h.isValid).2

/-- A packet that is made of a type has no data. -/
theorem Full.ofBytes {p : RLPXPacket} (h : p.Full) : ofBytes p.m_type = ⟨p.m_type, []⟩ := by
  have hnext : nextRLP p.m_type = p.m_type := by
    rw [nextRLP_eq h.framed.1, List.take_length]
  rw [RLPXPacket.ofBytes, hnext, List.drop_length]

/-- With only a part of its data a packet is not valid. -/
theorem Full.not_isValid_take {p : RLPXPacket} (h : p.Full) {n : Nat} (h0 : 0 < n) (hn : n < p.m_data.length) :
    (⟨p.m_type, p.m_data.take n⟩ : RLPXPacket).isValid = false := by
  rw [Bool.eq_false_iff, Ne, isValid_iff]
  rintro ⟨-, -, hf⟩
  exact not_framed_take h.framed.2 h0 hn hf

end RLPXPacket

/-! ## What is in a frame -/

namespace RLPXFrameReader

open RLPXPacket

/-- Nothing is left to unpack. -/
theorem unpack_nil (info : RLPXFrameInfo) {turns : Nat} (hturns : 0 < turns) (ret : List RLPXPacket) (r : RLPXFrameReader) :
    unpack info turns [] ret r = .ok (ret, r) := by
  obtain ⟨turns, rfl⟩ := Nat.exists_eq_succ_of_ne_zero (Nat.ne_of_gt hturns)
  rw [unpack, if_pos rfl]
  rfl

/-- Whole packets are given back in their order. -/
theorem unpack_whole {info : RLPXFrameInfo} (hm : info.multiFrame = false) {ps : List RLPXPacket} (hps : ∀ p ∈ ps, p.Full)
    {turns : Nat} (hturns : (ps.flatMap content).length < turns) (ret : List RLPXPacket) (r : RLPXFrameReader) :
    unpack info turns (ps.flatMap content) ret r = .ok (ret ++ ps, r) := by
  induction ps generalizing turns ret with
  | nil => rw [List.flatMap_nil, unpack_nil info (Nat.zero_lt_of_lt hturns), List.append_nil]
  | cons p ps ih =>
    have hp := hps p List.mem_cons_self
    obtain ⟨htype, hdata⟩ := hp.framed
    rw [List.flatMap_cons, List.length_append, length_content] at hturns
    obtain ⟨turns, rfl⟩ := Nat.exists_eq_succ_of_ne_zero (Nat.ne_of_gt (Nat.zero_lt_of_lt hturns))
    have hpos : 0 < p.bytes := Nat.add_pos_left (List.length_pos_iff.mpr hp.type) _
    have hbuffer : (p :: ps).flatMap content = p.m_type ++ (p.m_data ++ ps.flatMap content) := by
      rw [List.flatMap_cons, content, List.append_assoc]
    have hne : p.m_type ++ (p.m_data ++ ps.flatMap content) ≠ [] := by simp [hp.type]
    rw [hbuffer, unpack, if_neg hne]
    simp only [nextRLP_append htype hp.type, if_neg hp.type, List.drop_left, hm, Bool.false_eq_true, if_false,
      nextRLP_append hdata hp.data, ne_eq, hp.data, not_false_eq_true, if_true, hp.ofBytes, append, List.nil_append, hp.isValid]
    rw [ih (fun q hq => hps q (List.mem_cons_of_mem _ hq)) (by omega), List.append_assoc]
    rfl

variable {r : RLPXFrameReader} {p : RLPXPacket} {info : RLPXFrameInfo}

/-- A frame of whole packets. -/
theorem collect_whole (hm : info.multiFrame = false) {ps : List RLPXPacket} (hps : ∀ p ∈ ps, p.Full) :
    collect r info (ps.flatMap content) = .ok (ps, r) := by
  unfold collect
  simp only [hm, Bool.false_eq_true, if_false]
  rw [unpack_whole hm hps (Nat.lt_succ_self _), List.nil_append]

/-- The first frame of a packet of several leaves it among the incomplete ones. -/
theorem collect_first (hp : p.Full) (hm : info.multiFrame = true) (hnew : r.m_incomplete.find info.sequenceId = none)
    (htotal : info.totalLength = UInt32.ofNat p.bytes) (hle : p.bytes ≤ 2 ^ 32) {n : Nat} (h0 : 0 < n) (hn : n < p.m_data.length) :
    collect r info (p.m_type ++ p.m_data.take n) =
      .ok ([], ⟨r.m_incomplete.insert (info.sequenceId, ⟨p.m_type, p.m_data.take n⟩, UInt32.ofNat (p.m_data.length - n))⟩) := by
  have hbytes : p.bytes = p.m_type.length + p.m_data.length := rfl
  have htake : (p.m_data.take n).length = n := by
    rw [List.length_take]
    omega
  have hportion : p.m_data.take n ≠ [] := by
    intro hnil
    rw [hnil, List.length_nil] at htake
    omega
  have hne : p.m_type ++ p.m_data.take n ≠ [] := by simp [hp.type]
  have htype : 0 < p.m_type.length := List.length_pos_iff.mpr hp.type
  have hremaining : UInt32.ofNat (subSize (subSize (UInt32.ofNat p.bytes).toNat p.m_type.length) (p.m_data.take n).length) =
      UInt32.ofNat (p.m_data.length - n) := by
    -- the total length goes round where it is as large as can be, and back with the first byte that is taken from it
    rw [← UInt32.toNat_inj, UInt32.toNat_ofNat', UInt32.toNat_ofNat', UInt32.toNat_ofNat', htake]
    unfold subSize
    omega
  have hleft : UInt32.ofNat (p.m_data.length - n) ≠ 0 := by
    intro hzero
    have := congrArg UInt32.toNat hzero
    rw [UInt32.toNat_ofNat_of_lt' (by show _ < 2 ^ 32; omega)] at this
    rw [UInt32.toNat_zero] at this
    omega
  unfold collect
  simp only [hm, if_true, hnew]
  rw [unpack, if_neg hne]
  simp only [nextRLP_append hp.framed.1 hp.type, if_neg hp.type, List.drop_left, hm, if_true, ne_eq, hportion, not_false_eq_true,
    hp.ofBytes, append, List.nil_append, hp.not_isValid_take h0 hn, Bool.false_eq_true, if_false, htotal, hremaining, hleft, and_self,
    List.drop_length]
  exact unpack_nil info (List.length_pos_iff.mpr hne) _ _

/-- More of a packet is put behind what there is of it. -/
theorem collect_more (hm : info.multiFrame = true) (htotal : info.totalLength = 0) {m n : Nat} (h0 : 0 < n)
    (hn : m + n < p.m_data.length) (hlt : p.m_data.length < 2 ^ 32)
    (hold : r.m_incomplete.find info.sequenceId = some (⟨p.m_type, p.m_data.take m⟩, UInt32.ofNat (p.m_data.length - m))) :
    collect r info ((p.m_data.drop m).take n) =
      .ok ([], ⟨r.m_incomplete.set info.sequenceId (⟨p.m_type, p.m_data.take (m + n)⟩, UInt32.ofNat (p.m_data.length - (m + n)))⟩) := by
  have hlen : ((p.m_data.drop m).take n).length = n := by
    rw [List.length_take, List.length_drop]
    omega
  have hne : (p.m_data.drop m).take n ≠ [] := by
    intro hnil
    rw [hnil, List.length_nil] at hlen
    omega
  have hremaining : (UInt32.ofNat (p.m_data.length - m)).toNat = p.m_data.length - m :=
    UInt32.toNat_ofNat_of_lt' (by show _ < 2 ^ 32; omega)
  have hfits : n ≤ p.m_data.length - m := by omega
  have hleft : UInt32.ofNat (p.m_data.length - m) - UInt32.ofNat n = UInt32.ofNat (p.m_data.length - (m + n)) := by
    rw [← UInt32.ofNat_sub hfits, Nat.sub_sub]
  have hpos : UInt32.ofNat (p.m_data.length - (m + n)) ≠ 0 := by
    intro hzero
    have hnat := congrArg UInt32.toNat hzero
    rw [UInt32.toNat_ofNat_of_lt' (by show _ < 2 ^ 32; omega), UInt32.toNat_zero] at hnat
    omega
  unfold collect
  simp only [hm, if_true, hold, htotal, hne, ne_eq, not_false_eq_true, hlen, hremaining, hfits, and_self, hleft, hpos, append]
  rw [List.take_add]
  rfl

/-- With the rest of its data a packet is given back. -/
theorem collect_last (hp : p.Full) (hm : info.multiFrame = true) (htotal : info.totalLength = 0) {m : Nat} (hn : m < p.m_data.length)
    (hlt : p.m_data.length < 2 ^ 32)
    (hold : r.m_incomplete.find info.sequenceId = some (⟨p.m_type, p.m_data.take m⟩, UInt32.ofNat (p.m_data.length - m))) :
    collect r info (p.m_data.drop m) = .ok ([p], ⟨r.m_incomplete.remove info.sequenceId⟩) := by
  have hlen : (p.m_data.drop m).length = p.m_data.length - m := List.length_drop
  have hne : p.m_data.drop m ≠ [] := by
    intro hnil
    rw [hnil, List.length_nil] at hlen
    omega
  have hremaining : (UInt32.ofNat (p.m_data.length - m)).toNat = p.m_data.length - m :=
    UInt32.toNat_ofNat_of_lt' (by show _ < 2 ^ 32; omega)
  have hwhole : (⟨p.m_type, p.m_data.take m ++ p.m_data.drop m⟩ : RLPXPacket) = p := by rw [List.take_append_drop]
  unfold collect
  simp only [hm, if_true, hold, htotal, hne, ne_eq, not_false_eq_true, hlen, hremaining, le_refl, and_self, UInt32.sub_self,
    not_true_eq_false, if_false, append, hwhole, hp.isValid]
  rfl

/-! ## Frames on their way -/

open RLPXFrameCoder

/-- A frame that is written at one end is read at the other. -/
theorem deliver_eq {k : FrameCrypto} {s s' coder : FrameCoder} {info : FrameInfo} {payload frame : Bytes} (hs : Synced s coder)
    (hw : k.frameCoder.writeFrame s info payload = .ok (frame, s')) (hlen : payload.length < 2 ^ 24)
    (hseq : info.seqId = none → info.totalSize = none)
    (htotal : ∀ totalSize, info.totalSize = some totalSize → totalSize ≠ 0 → payload.length ≤ totalSize.toNat) :
    ∃ coder', Synced s' coder' ∧ ∀ r ret r', collect r (FrameInfo.read info payload.length) payload = .ok (ret, r') →
      deliver k r coder frame = .ok (ret, r', coder') := by
  obtain ⟨mac, mac', coder₁, coder₂, h32, hmac', hheader, hframe, hs'⟩ := k.frame_read hs (header_eq info payload) hw
  refine ⟨coder₂, hs', fun r ret r' hcollect => ?_⟩
  have hread := ofHeader_eq (header_eq info payload) hlen hseq mac
  set body := payload ++ List.replicate (padding payload.length) 0 ++ mac' with hbody
  have hsize : body.length = payload.length + (16 + padding payload.length) := by
    rw [hbody, List.length_append, List.length_append, List.length_replicate, hmac']
    omega
  have hpad : padding payload.length < 16 := Nat.mod_lt _ (by norm_num)
  have htrimmed : subSize body.length (16 + padding payload.length) = payload.length := by
    rw [RLPXFrameWriter.subSize_of_le (by omega) (by omega)]
    omega
  have hne : body ≠ [] := by
    intro hnil
    rw [hnil, List.length_nil] at hsize
    omega
  have hcropped : croppedTo body payload.length = payload := by
    rw [croppedTo, if_pos (by omega), hbody, List.append_assoc, List.take_left]
  have hlarge : ¬ ((FrameInfo.read info payload.length).multiFrame = true ∧ (FrameInfo.read info payload.length).totalLength ≠ 0 ∧
      (FrameInfo.read info payload.length).totalLength.toNat < payload.length) := by
    rintro ⟨-, hne, hless⟩
    cases htot : info.totalSize with
    | none => exact hne (by rw [FrameInfo.read, htot]; rfl)
    | some totalSize =>
      rw [FrameInfo.read, htot] at hne hless
      exact absurd (htotal totalSize htot hne) (Nat.not_le.mpr hless)
  unfold deliver
  rw [if_neg (not_not.mpr h32), hheader]
  simp only [Bool.not_true, Bool.false_eq_true, if_false, hread]
  unfold demux
  rw [hframe]
  have hpadding : (FrameInfo.read info payload.length).padding = padding payload.length := rfl
  simp only [Bool.not_true, Bool.false_eq_true, if_false, hpadding, htrimmed, hne, hlarge, hcropped, hcollect, ok_bind]
  rfl

/-- Frames behind frames. -/
theorem deliverAll_append {k : FrameCrypto} {frames frames' : List Bytes} {r r' r'' : RLPXFrameReader} {coder coder' coder'' : FrameCoder}
    {ret ret' : List RLPXPacket} (h : deliverAll k frames r coder = .ok (ret, r', coder'))
    (h' : deliverAll k frames' r' coder' = .ok (ret', r'', coder'')) :
    deliverAll k (frames ++ frames') r coder = .ok (ret ++ ret', r'', coder'') := by
  induction frames generalizing r coder ret with
  | nil =>
    cases h
    exact h'
  | cons frame frames ih =>
    rw [deliverAll] at h
    obtain ⟨⟨ret₁, r₁, coder₁⟩, h₁, h⟩ := bind_eq_ok.mp h
    obtain ⟨⟨ret₂, r₂, coder₂⟩, h₂, h⟩ := bind_eq_ok.mp h
    cases h
    rw [List.cons_append, deliverAll, h₁, ok_bind]
    dsimp only
    rw [ih h₂, ok_bind, List.append_assoc]
    rfl

end RLPXFrameReader

/-! ## What the inner loop sends -/

namespace RLPXFrameWriter

open RLPXFrameCoder RLPXPacket

/-- A queue between two frames, and the packet that is being written. -/
structure Line (q : List RLPXPacket) (pr : Progress) : Prop where
  full : ∀ p ∈ q, p.isValid = true ∧ p.m_data ≠ []
  writing : pr.writing = true → pr.multiFrame = true ∧ 0 < pr.remaining ∧
    ∃ p rest, q = p :: rest ∧ p.m_type ≠ [] ∧ pr.remaining < p.m_data.length ∧ p.bytes ≤ 2 ^ 32
  idle : pr.writing = false → pr.multiFrame = false

/-- What whole packets that are taken from a queue do to the variables of the loop. -/
structure Whole (q : List RLPXPacket) (s : Packing) (front q' : List RLPXPacket) (t : Packing) : Prop where
  queue : q = front ++ q'
  types : ∀ p ∈ front, p.m_type ≠ []
  payload : t.payload = s.payload ++ front.flatMap content
  ret : t.ret = s.ret + front.length
  sequence : t.m_sequenceId = s.m_sequenceId
  writing : t.progress.writing = false
  multiFrame : t.progress.multiFrame = false

/-- A packet that has room is taken whole, and the loop goes on with the next. -/
theorem packPacket_whole {p : RLPXPacket} {s : Packing} (hvalid : p.isValid = true) (htype : p.m_type ≠ [])
    (hidle : s.progress.writing = false) (hroom : p.bytes ≤ s.frameAllot) :
    ∃ t, packPacket p s = .again t ∧ t.payload = s.payload ++ p.content ∧ t.ret = s.ret + 1 ∧ t.m_sequenceId = s.m_sequenceId ∧
      t.progress.writing = false ∧ t.progress.multiFrame = false := by
  have hbytes : p.bytes = p.m_type.length + p.m_data.length := rfl
  have hfits : ¬ s.frameAllot < p.m_type.length := by omega
  have hmulti : ¬ s.frameAllot < p.bytes := by omega
  let s' : Packing := { s with
    progress := { writing := true, remaining := p.m_data.length, multiFrame := false, sequence := s.progress.sequence }
    frameAllot := s.frameAllot - p.m_type.length
    payload := s.payload ++ p.m_type }
  have hturn : packPacket p s = writePortion p s' := by
    simp [packPacket, hidle, htype, hfits, size_eq_bytes hvalid, hmulti, s']
  have hdata : p.m_data.length ≤ s'.frameAllot := by
    show p.m_data.length ≤ s.frameAllot - p.m_type.length
    omega
  refine ⟨_, hturn.trans (writePortion_eq_whole rfl rfl hdata), ?_, rfl, rfl, rfl, rfl⟩
  rw [content, ← List.append_assoc]

/-- Behind a packet the loop takes whole packets only. -/
theorem pack_whole {q q' : List RLPXPacket} {s t : Packing} (hq : ∀ p ∈ q, p.isValid = true) (hidle : s.progress.writing = false)
    (hm : s.progress.multiFrame = false) (hpay : s.payload ≠ []) (h : pack q s = some (q', t)) : ∃ front, Whole q s front q' t := by
  induction q generalizing s with
  | nil =>
    rw [pack, if_neg (by simp [hidle])] at h
    cases h
    exact ⟨[], rfl, fun _ hx => absurd hx List.not_mem_nil, (List.append_nil _).symm, rfl, rfl, hidle, hm⟩
  | cons p q ih =>
    rw [pack] at h
    by_cases hroom : s.frameAllot < c_blockSize
    · rw [if_pos hroom] at h
      cases h
      exact ⟨[], rfl, fun _ hx => absurd hx List.not_mem_nil, (List.append_nil _).symm, rfl, rfl, hidle, hm⟩
    rw [if_neg hroom] at h
    have hvalid := hq p List.mem_cons_self
    by_cases htype : p.m_type = []
    · rw [packPacket, if_neg (by simp [hidle])] at h
      simp only [htype, if_true] at h
      cases h
    by_cases hmulti : s.frameAllot < p.bytes
    · -- the packet waits for the next frame
      have hturn : packPacket p s = .stop false { s with
          progress := { s.progress with writing := false, remaining := 0, multiFrame := false } } := by
        simp [packPacket, hidle, htype, hpay, size_eq_bytes hvalid, hmulti]
      rw [hturn] at h
      cases h
      exact ⟨[], rfl, fun _ hx => absurd hx List.not_mem_nil, (List.append_nil _).symm, rfl, rfl, rfl, rfl⟩
    · obtain ⟨u, hturn, hu, hret, hsequence, hidle', hm'⟩ := packPacket_whole hvalid htype hidle (Nat.not_lt.mp hmulti)
      rw [hturn] at h
      have hpay' : u.payload ≠ [] := by
        rw [hu]
        simp [hpay]
      obtain ⟨front, hfront⟩ := ih (fun x hx => hq x (List.mem_cons_of_mem _ hx)) hidle' hm' hpay' h
      refine ⟨p :: front, by rw [hfront.queue, List.cons_append], ?_, ?_, ?_, hfront.sequence.trans hsequence, hfront.writing,
        hfront.multiFrame⟩
      · intro x hx
        rcases List.mem_cons.mp hx with rfl | hx
        · exact htype
        · exact hfront.types x hx
      · rw [hfront.payload, hu, List.flatMap_cons, List.append_assoc]
      · rw [hfront.ret, hret, List.length_cons]
        omega

/-- What the first part of a packet does to the variables of the loop. -/
structure First (p : RLPXPacket) (s t : Packing) : Prop where
  type : p.m_type ≠ []
  room : c_blockSize ≤ s.frameAllot
  fits : p.m_type.length ≤ s.frameAllot
  size : s.frameAllot < p.bytes
  payload : t.payload = p.m_type ++ p.m_data.take (s.frameAllot - p.m_type.length)
  progress : t.progress = ⟨true, p.m_data.length - (s.frameAllot - p.m_type.length), true, s.m_sequenceId + 1⟩
  sequence : t.m_sequenceId = s.m_sequenceId + 1
  offset : t.offset = 0
  ret : t.ret = s.ret

/-- From a queue that is at no packet, whole packets are taken, or the first part of one. -/
theorem pack_of_idle {q q' : List RLPXPacket} {s t : Packing} (hq : Line q s.progress) (hidle : s.progress.writing = false)
    (hpay : s.payload = []) (hoffset : s.offset = 0) (h : pack q s = some (q', t)) :
    (∃ front, Whole q s front q' t) ∨ ∃ p rest, q = p :: rest ∧ q' = q ∧ First p s t := by
  have hm := hq.idle hidle
  cases q with
  | nil =>
    rw [pack, if_neg (by simp [hidle])] at h
    cases h
    exact .inl ⟨[], rfl, fun _ hx => absurd hx List.not_mem_nil, (List.append_nil _).symm, rfl, rfl, hidle, hm⟩
  | cons p q =>
    rw [pack] at h
    by_cases hroom : s.frameAllot < c_blockSize
    · rw [if_pos hroom] at h
      cases h
      exact .inl ⟨[], rfl, fun _ hx => absurd hx List.not_mem_nil, (List.append_nil _).symm, rfl, rfl, hidle, hm⟩
    rw [if_neg hroom] at h
    have hvalid := (hq.full p List.mem_cons_self).1
    have hbytes : p.bytes = p.m_type.length + p.m_data.length := rfl
    by_cases htype : p.m_type = []
    · rw [packPacket, if_neg (by simp [hidle])] at h
      simp only [htype, if_true] at h
      cases h
    by_cases hmulti : s.frameAllot < p.bytes
    · by_cases hfits : s.frameAllot < p.m_type.length
      · -- there is no room for the type
        have hturn : packPacket p s = .stop false { s with
            progress := { s.progress with writing := false, remaining := 0, multiFrame := false } } := by
          simp [packPacket, hidle, htype, hfits]
        rw [hturn] at h
        cases h
        exact .inl ⟨[], rfl, fun _ hx => absurd hx List.not_mem_nil, (List.append_nil _).symm, rfl, rfl, rfl, rfl⟩
      · let s' : Packing := { s with
          progress := { writing := true, remaining := p.m_data.length, multiFrame := true, sequence := s.m_sequenceId + 1 }
          m_sequenceId := s.m_sequenceId + 1
          frameAllot := s.frameAllot - p.m_type.length
          payload := s.payload ++ p.m_type }
        have hturn : packPacket p s = writePortion p s' := by
          simp [packPacket, hidle, htype, hfits, hpay, size_eq_bytes hvalid, hmulti, s']
        rw [hturn] at h
        have hrem : s'.frameAllot < s'.progress.remaining := by
          show s.frameAllot - p.m_type.length < p.m_data.length
          omega
        refine .inr ⟨p, q, rfl, ?_⟩
        by_cases hzero : s.frameAllot - p.m_type.length = 0
        · -- the type takes all there is
          have hportion : writePortion p s' = .stop false s' := by
            have hdata : p.m_data.length ≠ 0 := by omega
            simp [writePortion, s', hzero, List.length_eq_zero_iff.not.mp hdata]
          rw [hportion] at h
          obtain ⟨rfl, rfl⟩ := Prod.mk.inj (Option.some.inj h)
          refine ⟨rfl, htype, Nat.not_lt.mp hroom, Nat.not_lt.mp hfits, hmulti, ?_, ?_, rfl, hoffset, rfl⟩
          · rw [hzero, List.take_zero, List.append_nil]
            show s.payload ++ p.m_type = p.m_type
            rw [hpay, List.nil_append]
          · rw [hzero, Nat.sub_zero]
        · rw [writePortion_eq_part rfl (Nat.pos_of_ne_zero hzero) hrem (Nat.le_refl _)] at h
          cases h
          refine ⟨rfl, htype, Nat.not_lt.mp hroom, Nat.not_lt.mp hfits, hmulti, ?_, rfl, rfl, Nat.sub_self _, rfl⟩
          show s.payload ++ p.m_type ++ (p.m_data.drop (p.m_data.length - p.m_data.length)).take _ = _
          rw [hpay, List.nil_append, Nat.sub_self, List.drop_zero]
    · obtain ⟨u, hturn, hu, hret, hsequence, hidle', hm'⟩ := packPacket_whole hvalid htype hidle (Nat.not_lt.mp hmulti)
      rw [hturn] at h
      have hpay' : u.payload ≠ [] := by
        rw [hu, content]
        simp [htype]
      obtain ⟨front, hfront⟩ := pack_whole (fun x hx => (hq.full x (List.mem_cons_of_mem _ hx)).1) hidle' hm' hpay' h
      refine .inl ⟨p :: front, by rw [hfront.queue, List.cons_append], ?_, ?_, ?_, hfront.sequence.trans hsequence, hfront.writing,
        hfront.multiFrame⟩
      · intro x hx
        rcases List.mem_cons.mp hx with rfl | hx
        · exact htype
        · exact hfront.types x hx
      · rw [hfront.payload, hu, List.flatMap_cons, List.append_assoc]
      · rw [hfront.ret, hret, List.length_cons]
        omega

/-- What more of a packet does to the variables of the loop. -/
structure More (p : RLPXPacket) (n : Nat) (s t : Packing) : Prop where
  pos : 0 < n
  le : n ≤ s.progress.remaining
  payload : t.payload = (p.m_data.drop (p.m_data.length - s.progress.remaining)).take n
  remaining : t.progress.remaining = s.progress.remaining - n
  writing : t.progress.writing = decide (n < s.progress.remaining)
  multiFrame : t.progress.multiFrame = true
  same : t.progress.sequence = s.progress.sequence
  sequence : t.m_sequenceId = s.m_sequenceId
  offset : t.offset = p.m_data.length - s.progress.remaining
  ret : t.ret = s.ret + if n < s.progress.remaining then 0 else 1

/-- From a queue that is at a packet, more of that is taken, if there is room. -/
theorem pack_of_writing {q q' : List RLPXPacket} {s t : Packing} (hq : Line q s.progress) (hw : s.progress.writing = true)
    (hpay : s.payload = []) (h : pack q s = some (q', t)) :
    ∃ p rest, q = p :: rest ∧
      ((q' = q ∧ t = s) ∨ ∃ n, More p n s t ∧ q' = if n < s.progress.remaining then q else rest) := by
  obtain ⟨hm, h0, p, rest, rfl, -, hd, -⟩ := hq.writing hw
  refine ⟨p, rest, rfl, ?_⟩
  rw [pack] at h
  by_cases hroom : s.frameAllot < c_blockSize
  · rw [if_pos hroom] at h
    cases h
    exact .inl ⟨rfl, rfl⟩
  have hallot : 0 < s.frameAllot := by unfold c_blockSize at hroom; omega
  have hturn : packPacket p s = writePortion p s := by rw [packPacket, if_pos hw]
  rw [if_neg hroom, hturn] at h
  by_cases hrest : s.progress.remaining ≤ s.frameAllot
  · rw [writePortion_eq_rest hm h0 hrest hd] at h
    cases h
    have hall : (p.m_data.drop (p.m_data.length - s.progress.remaining)).take s.progress.remaining =
        p.m_data.drop (p.m_data.length - s.progress.remaining) :=
      List.take_of_length_le (by rw [List.length_drop]; omega)
    refine .inr ⟨s.progress.remaining, ⟨h0, le_refl _, ?_, (Nat.sub_self _).symm, ?_, hm, rfl, rfl, rfl, ?_⟩, ?_⟩
    · show s.payload ++ _ = _
      rw [hpay, List.nil_append, hall]
    · simp
    · rw [if_neg (lt_irrefl _)]
    · rw [if_neg (lt_irrefl _)]
      rfl
  · have hless := Nat.not_le.mp hrest
    rw [writePortion_eq_part hm hallot hless hd.le] at h
    cases h
    refine .inr ⟨s.frameAllot, ⟨hallot, hless.le, ?_, rfl, ?_, hm, rfl, rfl, rfl, ?_⟩, ?_⟩
    · show s.payload ++ _ = _
      rw [hpay, List.nil_append]
    · simp [hw, hless]
    · rw [if_pos hless]
      rfl
    · rw [if_pos hless]
      rfl

/-! ## Both ends between two frames -/

open RLPXFrameReader

/-- What the reading end has of the packet that a queue is writing. -/
def Held (qs : WriterState) (sequenceId : UInt16) (v : RLPXPacket × UInt32) : Prop :=
  qs.progress.writing = true ∧ qs.progress.sequence = sequenceId ∧ ∃ p rest, qs.q = p :: rest ∧
    v = (⟨p.m_type, p.m_data.take (p.m_data.length - qs.progress.remaining)⟩, UInt32.ofNat qs.progress.remaining)

/-- A writer and a reader that has read all of its frames: the incomplete packets are those that the queues are writing. -/
structure Linked (w : RLPXFrameWriter) (r : RLPXFrameReader) : Prop where
  line : ∀ high, Line (w.queue high).q (w.queue high).progress
  distinct : ∀ high, (w.queue high).progress.writing = true → (w.queue (!high)).progress.writing = true →
    (w.queue high).progress.sequence ≠ (w.queue (!high)).progress.sequence
  incomplete : ∀ high sequenceId v, r.m_incomplete.find sequenceId = some v ↔
    Held (w.queue high) sequenceId v ∨ Held (w.queue (!high)) sequenceId v

/-- A queue that is not writing holds no packet back. -/
theorem not_held {a : WriterState} (h : a.progress.writing = false) (sequenceId : UInt16) (v : RLPXPacket × UInt32) :
    ¬ Held a sequenceId v := by
  rintro ⟨hw, -⟩
  rw [h] at hw
  cases hw

/-- What a writing queue holds back is the part of its first packet that has been sent. -/
theorem held_iff {a : WriterState} {p : RLPXPacket} {rest : List RLPXPacket} (hw : a.progress.writing = true) (hq : a.q = p :: rest)
    (sequenceId : UInt16) (v : RLPXPacket × UInt32) : Held a sequenceId v ↔ sequenceId = a.progress.sequence ∧
      v = (⟨p.m_type, p.m_data.take (p.m_data.length - a.progress.remaining)⟩, UInt32.ofNat a.progress.remaining) := by
  constructor
  · rintro ⟨-, hseq, p', rest', hq', hv⟩
    obtain ⟨rfl, rfl⟩ := List.cons.inj (hq.symm.trans hq')
    exact ⟨hseq.symm, hv⟩
  · rintro ⟨hseq, hv⟩
    exact ⟨hw, hseq.symm, p, rest, hq, hv⟩

/-- The writer whose queue is served. -/
def serve (w : RLPXFrameWriter) (high : Bool) (a : WriterState) (m_sequenceId : UInt16) : RLPXFrameWriter :=
  { w.setQueue high a with m_sequenceId }

/-- The queue that is served is the new one. -/
theorem queue_serve_self (w : RLPXFrameWriter) (high : Bool) (a : WriterState) (n : UInt16) : (w.serve high a n).queue high = a :=
  queue_setQueue_self w high a

/-- The other queue is not touched. -/
theorem queue_serve_not (w : RLPXFrameWriter) (high : Bool) (a : WriterState) (n : UInt16) :
    (w.serve high a n).queue (!high) = w.queue (!high) :=
  queue_setQueue_not w high a

/-- A queue that is served without a change. -/
theorem serve_same (w : RLPXFrameWriter) (high : Bool) :
    w.serve high ⟨(w.queue high).q, (w.queue high).progress⟩ w.m_sequenceId = w := by
  cases high <;> rfl

section Serving

variable {w : RLPXFrameWriter} {r r' : RLPXFrameReader} {high : Bool} {a : WriterState}

/-- One queue is served, and the reading end has what it then writes. -/
theorem Linked.serve (hl : Linked w r) (n : UInt16) (hline : Line a.q a.progress)
    (hdistinct : a.progress.writing = true → (w.queue (!high)).progress.writing = true →
      a.progress.sequence ≠ (w.queue (!high)).progress.sequence)
    (hincomplete : ∀ sequenceId v, r'.m_incomplete.find sequenceId = some v ↔
      Held a sequenceId v ∨ Held (w.queue (!high)) sequenceId v) :
    (w.serve high a n).Linked r' := by
  have hself := queue_serve_self w high a n
  have hother := queue_serve_not w high a n
  refine ⟨fun b => ?_, fun b => ?_, fun b => ?_⟩
  · rcases Bool.eq_or_eq_not b high with rfl | rfl
    · rw [hself]
      exact hline
    · rw [hother]
      exact hl.line _
  · rcases Bool.eq_or_eq_not b high with rfl | rfl
    · rw [hself, hother]
      exact hdistinct
    · rw [Bool.not_not, hself, hother]
      exact fun h h' => (hdistinct h' h).symm
  · intro sequenceId v
    rcases Bool.eq_or_eq_not b high with rfl | rfl
    · rw [hself, hother]
      exact hincomplete sequenceId v
    · rw [Bool.not_not, hself, hother, hincomplete sequenceId v, or_comm]

/-- A queue that was at no packet still is at none. -/
theorem Linked.serve_whole (hl : Linked w r) (n : UInt16) (hidle : (w.queue high).progress.writing = false) (hline : Line a.q a.progress)
    (hidle' : a.progress.writing = false) : (w.serve high a n).Linked r := by
  refine hl.serve n hline (fun h => by rw [hidle'] at h; cases h) fun sequenceId v => ?_
  rw [hl.incomplete high, or_iff_right (not_held hidle sequenceId v), or_iff_right (not_held hidle' sequenceId v)]

/-- A queue begins a packet that takes several frames. -/
theorem Linked.serve_first (hl : Linked w r) (n : UInt16) (hidle : (w.queue high).progress.writing = false) (hline : Line a.q a.progress)
    (hw : a.progress.writing = true) {p : RLPXPacket} {rest : List RLPXPacket} (hq : a.q = p :: rest)
    (hdistinct : (w.queue (!high)).progress.writing = true → (w.queue (!high)).progress.sequence ≠ a.progress.sequence) :
    r.m_incomplete.find a.progress.sequence = none ∧
      (w.serve high a n).Linked ⟨r.m_incomplete.insert (a.progress.sequence,
        ⟨p.m_type, p.m_data.take (p.m_data.length - a.progress.remaining)⟩, UInt32.ofNat a.progress.remaining)⟩ := by
  have hnew : r.m_incomplete.find a.progress.sequence = none := by
    rw [Option.eq_none_iff_forall_ne_some]
    intro v hv
    rcases (hl.incomplete high _ v).mp hv with hheld | ⟨hw', hseq, -⟩
    · exact not_held hidle _ v hheld
    · exact hdistinct hw' hseq
  refine ⟨hnew, hl.serve n hline (fun _ hw' => (hdistinct hw').symm) fun sequenceId v => ?_⟩
  rw [Assoc.find_insert, held_iff hw hq]
  by_cases hseq : sequenceId = a.progress.sequence
  · subst hseq
    have hother : ¬ Held (w.queue (!high)) a.progress.sequence v := fun hheld => hdistinct hheld.1 hheld.2.1
    rw [hnew, Option.none_or, if_pos rfl, or_iff_left hother, Option.some.injEq, and_iff_right rfl, eq_comm]
  · have hself : ¬ (sequenceId = a.progress.sequence ∧ v = (⟨p.m_type, p.m_data.take (p.m_data.length - a.progress.remaining)⟩,
        UInt32.ofNat a.progress.remaining)) := fun h => hseq h.1
    rw [if_neg (Ne.symm hseq), Option.or_none, or_iff_right hself, hl.incomplete high, or_iff_right (not_held hidle _ _)]

/-- A queue writes more of its packet. -/
theorem Linked.serve_more (hl : Linked w r) (n : UInt16) (hw : (w.queue high).progress.writing = true) (hline : Line a.q a.progress)
    (hw' : a.progress.writing = true) {p : RLPXPacket} {rest : List RLPXPacket} (hq' : a.q = p :: rest)
    (hsame : a.progress.sequence = (w.queue high).progress.sequence) :
    (w.serve high a n).Linked ⟨r.m_incomplete.set (w.queue high).progress.sequence
      (⟨p.m_type, p.m_data.take (p.m_data.length - a.progress.remaining)⟩, UInt32.ofNat a.progress.remaining)⟩ := by
  have hdistinct := hl.distinct high hw
  refine hl.serve n hline (fun _ => by rw [hsame]; exact hdistinct) fun sequenceId v => ?_
  rw [Assoc.find_set, held_iff hw' hq', hsame]
  by_cases hseq : sequenceId = (w.queue high).progress.sequence
  · subst hseq
    have hother : ¬ Held (w.queue (!high)) (w.queue high).progress.sequence v := fun hheld => hdistinct hheld.1 hheld.2.1.symm
    rw [if_pos rfl, or_iff_left hother, Option.some.injEq, and_iff_right rfl, eq_comm]
  · have hbefore : ¬ Held (w.queue high) sequenceId v := fun hheld => hseq hheld.2.1.symm
    have hself : ¬ (sequenceId = (w.queue high).progress.sequence ∧ v = (⟨p.m_type,
        p.m_data.take (p.m_data.length - a.progress.remaining)⟩, UInt32.ofNat a.progress.remaining)) := fun h => hseq h.1
    rw [if_neg hseq, hl.incomplete high, or_iff_right hbefore, or_iff_right hself]

/-- A queue ends its packet. -/
theorem Linked.serve_last (hl : Linked w r) (n : UInt16) (hw : (w.queue high).progress.writing = true) (hline : Line a.q a.progress)
    (hidle : a.progress.writing = false) :
    (w.serve high a n).Linked ⟨r.m_incomplete.remove (w.queue high).progress.sequence⟩ := by
  have hdistinct := hl.distinct high hw
  refine hl.serve n hline (fun h => by rw [hidle] at h; cases h) fun sequenceId v => ?_
  rw [Assoc.find_remove, or_iff_right (not_held hidle _ _)]
  by_cases hseq : sequenceId = (w.queue high).progress.sequence
  · subst hseq
    have hother : ¬ Held (w.queue (!high)) (w.queue high).progress.sequence v := fun hheld => hdistinct hheld.1 hheld.2.1.symm
    rw [if_pos rfl]
    exact iff_of_false nofun hother
  · have hself : ¬ Held (w.queue high) sequenceId v := fun hheld => hseq hheld.2.1.symm
    rw [if_neg hseq, hl.incomplete high, or_iff_right hself]

end Serving

/-! ## Turns of the outer loop -/

/-- A packet that is done is no longer one of several frames. -/
def settle (pr : Progress) : Progress := if pr.remaining = 0 ∧ pr.multiFrame then { pr with multiFrame := false } else pr

/-- What a turn makes of what the inner loop leaves: without a payload nothing is written, and else a frame. -/
inductive Turned {γ : Type} (c : RLPXFrameCoder γ) (s : Muxing γ) (q : List RLPXPacket) (t : Packing) : Muxing γ → Prop
  | nothing (swapQueues : Bool) (hnil : t.payload = []) : Turned c s q t
      { s with w := s.w.serve (s.w.servesHigh s.swapQueues) ⟨q, t.progress⟩ t.m_sequenceId, swapQueues, ret := t.ret }
  | frame {info : FrameInfo} {frame : Bytes} {coder : γ} (hne : t.payload ≠ []) (hinfo : frameInfo s.w.m_protocolId q t = some info)
      (hwrite : c.writeFrame s.coder info t.payload = .ok (frame, coder)) (hle : frame.length ≤ s.frameLen) : Turned c s q t
      ⟨s.w.serve (s.w.servesHigh s.swapQueues) ⟨q, settle t.progress⟩ t.m_sequenceId, coder, s.frameLen - frame.length, true, t.ret,
        s.o_toWrite ++ [frame]⟩

/-- A turn that goes through does nothing, or it serves a queue. -/
theorem turn_cases {γ : Type} {c : RLPXFrameCoder γ} {s s' : Muxing γ} (h : turn c s = .done s' ∨ turn c s = .again s') :
    s' = s ∨ ∃ q t, c_overhead + c_blockSize ≤ s.frameLen ∧
      pack (s.w.queue (s.w.servesHigh s.swapQueues)).q (start s) = some (q, t) ∧ Turned c s q t s' := by
  unfold turn at h
  by_cases hlen : s.frameLen < c_overhead + c_blockSize
  · rw [if_pos hlen] at h
    rcases h with h | h
    · cases h
      exact .inl rfl
    · cases h
  rw [if_neg hlen] at h
  by_cases hpending : (!s.w.highPending && !s.w.lowPending) = true
  · rw [if_pos hpending] at h
    rcases h with h | h
    · cases h
      exact .inl rfl
    · cases h
  rw [if_neg hpending] at h
  refine .inr ?_
  cases hpack : pack (s.w.queue (s.w.servesHigh s.swapQueues)).q (start s) with
  | none =>
    have hpack' := hpack
    unfold start at hpack'
    simp only [hpack', reduceCtorEq, or_self] at h
  | some out =>
    obtain ⟨q, t⟩ := out
    have hpack' := hpack
    unfold start at hpack'
    simp only [hpack'] at h
    refine ⟨q, t, Nat.not_lt.mp hlen, rfl, ?_⟩
    by_cases hpay : t.payload = []
    · rw [if_neg (not_not.mpr hpay)] at h
      by_cases hswap : s.swapQueues = true
      · rw [if_pos hswap] at h
        rcases h with h | h
        · cases h
          exact .nothing _ hpay
        · cases h
      · rw [if_neg hswap] at h
        rcases h with h | h
        · cases h
        · cases h
          exact .nothing _ hpay
    · rw [if_pos hpay] at h
      cases hinfo : frameInfo s.w.m_protocolId q t with
      | none => simp only [hinfo, reduceCtorEq, or_self] at h
      | some info =>
        simp only [hinfo] at h
        cases hframe : c.writeFrame s.coder info t.payload with
        | error e => simp only [hframe, reduceCtorEq, or_self] at h
        | ok out =>
          obtain ⟨frame, coder⟩ := out
          simp only [hframe] at h
          by_cases hle : s.frameLen < frame.length
          · simp only [if_pos hle, reduceCtorEq, or_self] at h
          rw [if_neg hle] at h
          rcases h with h | h
          · cases h
          · cases h
            rw [setQueue_sequence]
            exact .frame hpay hinfo hframe (Nat.not_lt.mp hle)

/-- A packet with bytes left is not settled. -/
theorem settle_of_remaining {pr : Progress} (h : pr.remaining ≠ 0) : settle pr = pr := if_neg fun hs => h hs.1

/-- A packet of a single frame is not settled. -/
theorem settle_of_single {pr : Progress} (h : pr.multiFrame = false) : settle pr = pr := by
  refine if_neg fun hs => ?_
  rw [h] at hs
  cases hs.2

/-- The packets of one queue among those of both. -/
def ofQueue (high : Bool) (l : List (Bool × RLPXPacket)) : List RLPXPacket := (l.filter fun e => e.1 = high).map Prod.snd

/-- The packets of a queue come one after the other. -/
theorem ofQueue_append (high : Bool) (l l' : List (Bool × RLPXPacket)) : ofQueue high (l ++ l') = ofQueue high l ++ ofQueue high l' := by
  rw [ofQueue, List.filter_append, List.map_append]
  rfl

/-- Packets of a queue are all its own. -/
theorem ofQueue_self (high : Bool) (ps : List RLPXPacket) : ofQueue high (ps.map fun p => (high, p)) = ps := by
  induction ps with
  | nil => rfl
  | cons p ps ih =>
    rw [ofQueue, List.map_cons, List.filter_cons, if_pos (decide_eq_true rfl), List.map_cons]
    exact congrArg (p :: ·) ih

/-- Packets of one queue are none of the other. -/
theorem ofQueue_not (high : Bool) (ps : List RLPXPacket) : ofQueue (!high) (ps.map fun p => (high, p)) = [] := by
  have hnone : (ps.map fun p => (high, p)).filter (fun e => e.1 = !high) = [] := by
    rw [List.filter_eq_nil_iff]
    intro e he
    obtain ⟨p, -, rfl⟩ := List.mem_map.mp he
    cases high <;> simp
  rw [ofQueue, hnone, List.map_nil]

variable {k : FrameCrypto}

/-- What the reading end makes of the frames between two states of the outer loop. -/
structure Delivered (k : FrameCrypto) (s s' : Muxing FrameCoder) (r : RLPXFrameReader) (coder : FrameCoder)
    (received : List (Bool × RLPXPacket)) (r' : RLPXFrameReader) (coder' : FrameCoder) : Prop where
  frames : ∃ frames, s'.o_toWrite = s.o_toWrite ++ frames ∧ deliverAll k frames r coder = .ok (received.map Prod.snd, r', coder')
  linked : Linked s'.w r'
  synced : Synced s'.coder coder'
  frameLen_le : s'.frameLen ≤ s.frameLen
  queues : ∀ high, (s.w.queue high).q = ofQueue high received ++ (s'.w.queue high).q
  ret : s'.ret = s.ret + received.length

/-- Deliveries compose. -/
theorem Delivered.trans {s s' s'' : Muxing FrameCoder} {r r' r'' : RLPXFrameReader} {coder coder' coder'' : FrameCoder}
    {received received' : List (Bool × RLPXPacket)} (h : Delivered k s s' r coder received r' coder')
    (h' : Delivered k s' s'' r' coder' received' r'' coder'') : Delivered k s s'' r coder (received ++ received') r'' coder'' := by
  obtain ⟨frames, ho, hd⟩ := h.frames
  obtain ⟨frames', ho', hd'⟩ := h'.frames
  refine ⟨⟨frames ++ frames', ?_, ?_⟩, h'.linked, h'.synced, h'.frameLen_le.trans h.frameLen_le, fun high => ?_, ?_⟩
  · rw [ho', ho, List.append_assoc]
  · rw [List.map_append]
    exact deliverAll_append hd hd'
  · rw [h.queues, h'.queues, ofQueue_append, List.append_assoc]
  · rw [h'.ret, h.ret, List.length_append, Nat.add_assoc]

/-- Nothing is delivered when nothing is sent. -/
theorem Delivered.refl {s : Muxing FrameCoder} {r : RLPXFrameReader} {coder : FrameCoder} (hl : Linked s.w r) (hs : Synced s.coder coder) :
    Delivered k s s r coder [] r coder :=
  ⟨⟨[], (List.append_nil _).symm, rfl⟩, hl, hs, Nat.le_refl _, fun _ => rfl, rfl⟩

section Turn

variable {s s' : Muxing FrameCoder} {r r' : RLPXFrameReader} {coder : FrameCoder} {q : List RLPXPacket} {t : Packing} {pr : Progress}

/-- The packets of the queue that is served, and those of the other. -/
theorem queues_served {w : RLPXFrameWriter} {high : Bool} {l : List RLPXPacket} (hq : (w.queue high).q = l ++ q) (n : UInt16) (b : Bool) :
    (w.queue b).q = ofQueue b (l.map fun p => (high, p)) ++ ((w.serve high ⟨q, pr⟩ n).queue b).q := by
  rcases Bool.eq_or_eq_not b high with rfl | rfl
  · rw [queue_serve_self, ofQueue_self, hq]
  · rw [queue_serve_not, ofQueue_not, List.nil_append]

/-- Nothing is written. -/
theorem delivered_nothing (hs : Synced s.coder coder) (swapQueues : Bool)
    (hlinked : (s.w.serve (s.w.servesHigh s.swapQueues) ⟨q, pr⟩ t.m_sequenceId).Linked r)
    (hq : (s.w.queue (s.w.servesHigh s.swapQueues)).q = q) (hret : t.ret = s.ret) :
    Delivered k s { s with
      w := s.w.serve (s.w.servesHigh s.swapQueues) ⟨q, pr⟩ t.m_sequenceId
      swapQueues
      ret := t.ret } r coder [] r coder :=
  ⟨⟨[], (List.append_nil _).symm, rfl⟩, hlinked, hs, Nat.le_refl _, queues_served (l := []) hq _, hret⟩

/-- A frame is delivered, with the packets that it ends. -/
theorem delivered_frame (hs : Synced s.coder coder) (hlen : s.frameLen < 2 ^ 24) {info : FrameInfo} {frame : Bytes} {coder₁ : FrameCoder}
    (hwrite : k.frameCoder.writeFrame s.coder info t.payload = .ok (frame, coder₁)) (hle : frame.length ≤ s.frameLen)
    (hseq : info.seqId = none → info.totalSize = none)
    (htotal : ∀ totalSize, info.totalSize = some totalSize → totalSize ≠ 0 → t.payload.length ≤ totalSize.toNat) {l : List RLPXPacket}
    (hcollect : collect r (FrameInfo.read info t.payload.length) t.payload = .ok (l, r'))
    (hlinked : (s.w.serve (s.w.servesHigh s.swapQueues) ⟨q, pr⟩ t.m_sequenceId).Linked r')
    (hq : (s.w.queue (s.w.servesHigh s.swapQueues)).q = l ++ q) (hret : t.ret = s.ret + l.length) :
    ∃ received r' coder', Delivered k s ⟨s.w.serve (s.w.servesHigh s.swapQueues) ⟨q, pr⟩ t.m_sequenceId, coder₁,
      s.frameLen - frame.length, true, t.ret, s.o_toWrite ++ [frame]⟩ r coder received r' coder' := by
  obtain ⟨frame', s₁, hwrite', hbytes⟩ := k.frameCoder.writeFrame_ok s.coder info t.payload
  rw [hwrite] at hwrite'
  obtain ⟨rfl, rfl⟩ := Prod.mk.inj (Except.ok.inj hwrite')
  have hpayload : t.payload.length < 2 ^ 24 := by
    have hless := lt_frameBytes t.payload.length
    omega
  obtain ⟨coder', hs₁, hdeliver⟩ := deliver_eq hs hwrite hpayload hseq htotal
  have hframe := hdeliver r l r' hcollect
  set high := s.w.servesHigh s.swapQueues
  have hsnd : (l.map fun p => (high, p)).map Prod.snd = l := by
    rw [List.map_map]
    exact List.map_id l
  refine ⟨l.map fun p => (high, p), r', coder', ⟨[frame], rfl, ?_⟩, hlinked, hs₁, Nat.sub_le _ _, queues_served hq _, ?_⟩
  · rw [deliverAll, hframe, ok_bind]
    dsimp only
    rw [deliverAll, pure_eq_ok, ok_bind, hsnd, List.append_nil]
    rfl
  · rw [List.length_map]
    exact hret

/-- A turn begins with a packet that takes several frames. -/
structure Begins {γ : Type} (s : Muxing γ) (p : RLPXPacket) : Prop where
  room : c_overhead + c_blockSize ≤ s.frameLen
  block : c_blockSize ≤ s.w.allotment s.swapQueues s.frameLen
  idle : (s.w.queue (s.w.servesHigh s.swapQueues)).progress.writing = false
  first : ∃ rest, (s.w.queue (s.w.servesHigh s.swapQueues)).q = p :: rest
  fits : p.m_type.length ≤ s.w.allotment s.swapQueues s.frameLen
  several : s.w.allotment s.swapQueues s.frameLen < p.size

/-- The reading end can put together what the turn begins with: there is room for data behind the type, the size of the packet can be
told, and its sequence id is not in use. -/
def Clear {γ : Type} (s : Muxing γ) : Prop :=
  ∀ p, Begins s p → p.m_type.length ≠ s.w.allotment s.swapQueues s.frameLen ∧ p.size ≤ 2 ^ 32 ∧
    ((s.w.queue (!s.w.servesHigh s.swapQueues)).progress.writing = true →
      (s.w.queue (!s.w.servesHigh s.swapQueues)).progress.sequence ≠ s.w.m_sequenceId + 1)

/-- A packet in a single frame has no sequence id and no total size. -/
theorem frameInfo_single (protocolId : UInt16) (q : List RLPXPacket) (h : t.progress.multiFrame = false) :
    frameInfo protocolId q t = some ⟨protocolId, none, none⟩ := by
  unfold frameInfo
  rw [h, if_neg Bool.false_ne_true]

/-- The first of several frames names the sequence id and the total size. -/
theorem frameInfo_first (protocolId : UInt16) (p : RLPXPacket) (q : List RLPXPacket) (h : t.progress.multiFrame = true)
    (hoffset : t.offset = 0) (hw : t.progress.writing = true) :
    frameInfo protocolId (p :: q) t = some ⟨protocolId, some t.progress.sequence, some (UInt32.ofNat p.size)⟩ := by
  unfold frameInfo
  rw [if_pos h, if_pos hoffset, hw]

/-- The frames that follow name the sequence id only. -/
theorem frameInfo_more (protocolId : UInt16) (q : List RLPXPacket) (h : t.progress.multiFrame = true) (hoffset : t.offset ≠ 0) :
    frameInfo protocolId q t = some ⟨protocolId, some t.progress.sequence, none⟩ := by
  unfold frameInfo
  rw [if_pos h, if_neg hoffset]

/-- A turn that takes whole packets, or none. -/
theorem turn_whole (hl : Linked s.w r) (hs : Synced s.coder coder) (hlen : s.frameLen < 2 ^ 24)
    (hidle : (s.w.queue (s.w.servesHigh s.swapQueues)).progress.writing = false) {front : List RLPXPacket}
    (hfront : Whole (s.w.queue (s.w.servesHigh s.swapQueues)).q (start s) front q t) (hturn : Turned k.frameCoder s q t s') :
    ∃ received r' coder', Delivered k s s' r coder received r' coder' := by
  have hline := hl.line (s.w.servesHigh s.swapQueues)
  have hline' : Line q t.progress := by
    refine ⟨fun p hp => hline.full p ?_, fun hw => ?_, fun _ => hfront.multiFrame⟩
    · rw [hfront.queue]
      exact List.mem_append_right _ hp
    · rw [hfront.writing] at hw
      cases hw
  have hlinked := hl.serve_whole (a := ⟨q, t.progress⟩) t.m_sequenceId hidle hline' hfront.writing
  have hpay : t.payload = front.flatMap content := hfront.payload
  cases hturn with
  | nothing swapQueues hnil =>
    have hnone : front = [] := by
      rw [hnil] at hpay
      cases front with
      | nil => rfl
      | cons p front =>
        rw [List.flatMap_cons, content, eq_comm, List.append_eq_nil_iff, List.append_eq_nil_iff] at hpay
        exact absurd hpay.1.1 (hfront.types p List.mem_cons_self)
    subst hnone
    exact ⟨[], r, coder, delivered_nothing hs swapQueues hlinked hfront.queue hfront.ret⟩
  | frame hne hinfo hwrite hle =>
    have hfull : ∀ p ∈ front, p.Full := by
      intro p hp
      obtain ⟨hvalid, hdata⟩ := hline.full p (by rw [hfront.queue]; exact List.mem_append_left _ hp)
      exact ⟨hfront.types p hp, hdata, hvalid⟩
    rw [frameInfo_single _ _ hfront.multiFrame] at hinfo
    obtain rfl := Option.some.inj hinfo
    rw [settle_of_single hfront.multiFrame]
    refine delivered_frame hs hlen hwrite hle (fun _ => rfl) nofun (l := front) ?_ hlinked hfront.queue hfront.ret
    rw [hpay]
    exact collect_whole rfl hfull

/-- A turn that takes the first part of a packet. -/
theorem turn_first (hl : Linked s.w r) (hs : Synced s.coder coder) (hlen : s.frameLen < 2 ^ 24) (hclear : Clear s)
    (hidle : (s.w.queue (s.w.servesHigh s.swapQueues)).progress.writing = false) (hroom : c_overhead + c_blockSize ≤ s.frameLen)
    {p : RLPXPacket} {rest : List RLPXPacket} (hq : (s.w.queue (s.w.servesHigh s.swapQueues)).q = p :: rest) (hfirst : First p (start s) t)
    (hturn : Turned k.frameCoder s (p :: rest) t s') : ∃ received r' coder', Delivered k s s' r coder received r' coder' := by
  have hline := hl.line (s.w.servesHigh s.swapQueues)
  obtain ⟨hvalid, hdata⟩ := hline.full p (by rw [hq]; exact List.mem_cons_self)
  have hfull : p.Full := ⟨hfirst.type, hdata, hvalid⟩
  have hsize := size_eq_bytes hvalid
  have hbytes : p.bytes = p.m_type.length + p.m_data.length := rfl
  have hfits : p.m_type.length ≤ s.w.allotment s.swapQueues s.frameLen := hfirst.fits
  have hless : s.w.allotment s.swapQueues s.frameLen < p.bytes := hfirst.size
  obtain ⟨hbehind, h32, hother⟩ := hclear p ⟨hroom, hfirst.room, hidle, ⟨rest, hq⟩, hfits, hsize ▸ hless⟩
  rw [hsize] at h32
  obtain ⟨n, hn⟩ : ∃ n, n = s.w.allotment s.swapQueues s.frameLen - p.m_type.length := ⟨_, rfl⟩
  have hpayload : t.payload = p.m_type ++ p.m_data.take n := by
    rw [hn]
    exact hfirst.payload
  have hprogress : t.progress = ⟨true, p.m_data.length - n, true, s.w.m_sequenceId + 1⟩ := by
    rw [hn]
    exact hfirst.progress
  have hn0 : 0 < n := by omega
  have hlt : n < p.m_data.length := by omega
  have hline' : Line (p :: rest) t.progress := by
    rw [hprogress]
    exact ⟨hq ▸ hline.full, fun _ => ⟨rfl, Nat.sub_pos_of_lt hlt, p, rest, rfl, hfirst.type, Nat.sub_lt (hn0.trans hlt) hn0, h32⟩, nofun⟩
  obtain ⟨hnew, hlinked⟩ := hl.serve_first (a := ⟨p :: rest, t.progress⟩) t.m_sequenceId hidle hline' (by rw [hprogress]) rfl
    (by rw [hprogress]; exact hother)
  have hremaining : t.progress.remaining = p.m_data.length - n := by rw [hprogress]
  dsimp only at hnew hlinked
  rw [hremaining, Nat.sub_sub_self hlt.le] at hlinked
  cases hturn with
  | nothing swapQueues hnil =>
    rw [hpayload, List.append_eq_nil_iff] at hnil
    exact absurd hnil.1 hfirst.type
  | frame hne hinfo hwrite hle =>
    rw [frameInfo_first _ _ _ (by rw [hprogress]) hfirst.offset (by rw [hprogress]), hsize] at hinfo
    obtain rfl := Option.some.inj hinfo
    rw [settle_of_remaining (by rw [hremaining]; exact Nat.sub_ne_zero_of_lt hlt)]
    have hlength : t.payload.length = p.m_type.length + n := by
      rw [hpayload, List.length_append, List.length_take, Nat.min_eq_left hlt.le]
    refine delivered_frame hs hlen hwrite hle nofun ?_ (l := []) ?_ hlinked hq hfirst.ret
    · intro totalSize htotal hne
      obtain rfl := Option.some.inj htotal
      have hnonzero : p.bytes ≠ 2 ^ 32 := by
        intro heq
        rw [heq] at hne
        exact hne rfl
      rw [hlength, UInt32.toNat_ofNat_of_lt' (by show _ < 2 ^ 32; omega)]
      omega
    · rw [hpayload]
      exact collect_first hfull rfl hnew rfl h32 hn0 hlt

/-- A turn that takes more of a packet. -/
theorem turn_more (hl : Linked s.w r) (hs : Synced s.coder coder) (hlen : s.frameLen < 2 ^ 24)
    (hw : (s.w.queue (s.w.servesHigh s.swapQueues)).progress.writing = true) {p : RLPXPacket} {rest : List RLPXPacket}
    (hq : (s.w.queue (s.w.servesHigh s.swapQueues)).q = p :: rest) {n : Nat} (hmore : More p n (start s) t)
    (hturn : Turned k.frameCoder s (if n < (start s).progress.remaining then p :: rest else rest) t s') :
    ∃ received r' coder', Delivered k s s' r coder received r' coder' := by
  have hline := hl.line (s.w.servesHigh s.swapQueues)
  obtain ⟨-, h0, p', rest', hq', htype, hd, h32⟩ := hline.writing hw
  obtain ⟨rfl, rfl⟩ := List.cons.inj (hq.symm.trans hq')
  obtain ⟨hvalid, hdata⟩ := hline.full p (by rw [hq]; exact List.mem_cons_self)
  have hfull : p.Full := ⟨htype, hdata, hvalid⟩
  have hbytes : p.bytes = p.m_type.length + p.m_data.length := rfl
  have htype0 : 0 < p.m_type.length := List.length_pos_iff.mpr htype
  have hn0 := hmore.pos
  have hle' : n ≤ (s.w.queue (s.w.servesHigh s.swapQueues)).progress.remaining := hmore.le
  obtain ⟨m, hm⟩ : ∃ m, m = p.m_data.length - (s.w.queue (s.w.servesHigh s.swapQueues)).progress.remaining := ⟨_, rfl⟩
  have hremaining : (s.w.queue (s.w.servesHigh s.swapQueues)).progress.remaining = p.m_data.length - m := by omega
  have hoffset : t.offset = m := hmore.offset.trans hm.symm
  have hpayload : t.payload = (p.m_data.drop m).take n := by
    rw [hm]
    exact hmore.payload
  have hsame : t.progress.sequence = (s.w.queue (s.w.servesHigh s.swapQueues)).progress.sequence := hmore.same
  have hwriting : t.progress.writing = decide (n < p.m_data.length - m) := hremaining ▸ hmore.writing
  have hrest : t.progress.remaining = p.m_data.length - m - n := hremaining ▸ hmore.remaining
  have hret : t.ret = s.ret + if n < p.m_data.length - m then 0 else 1 := hremaining ▸ hmore.ret
  have hstart : (start s).progress.remaining = p.m_data.length - m := hremaining
  have hold : r.m_incomplete.find t.progress.sequence = some (⟨p.m_type, p.m_data.take m⟩, UInt32.ofNat (p.m_data.length - m)) := by
    rw [hl.incomplete (s.w.servesHigh s.swapQueues)]
    exact .inl ⟨hw, hsame.symm, p, rest, hq, by rw [← hm, hremaining]⟩
  rw [hstart] at hturn
  cases hturn with
  | nothing swapQueues hnil =>
    have hlength := congrArg List.length (hpayload.symm.trans hnil)
    rw [List.length_take, List.length_drop, List.length_nil] at hlength
    omega
  | frame hne hinfo hwrite hle =>
    rw [frameInfo_more _ _ hmore.multiFrame (by omega)] at hinfo
    obtain rfl := Option.some.inj hinfo
    by_cases hpart : n < p.m_data.length - m
    · rw [if_pos hpart] at hret ⊢
      have hline' : Line (p :: rest) t.progress := by
        refine ⟨hq ▸ hline.full, fun _ => ⟨hmore.multiFrame, by omega, p, rest, rfl, htype, by omega, h32⟩, fun hidle => ?_⟩
        rw [hwriting, decide_eq_true hpart] at hidle
        cases hidle
      have hlinked := hl.serve_more (a := ⟨p :: rest, t.progress⟩) t.m_sequenceId hw hline' (hwriting.trans (decide_eq_true hpart)) rfl hsame
      have hbefore : p.m_data.length - (p.m_data.length - m - n) = m + n := by omega
      dsimp only at hlinked
      rw [hrest, hbefore, Nat.sub_sub] at hlinked
      rw [settle_of_remaining (by omega)]
      refine delivered_frame hs hlen hwrite hle nofun nofun (l := []) ?_ hlinked hq hret
      rw [hpayload, ← hsame]
      exact collect_more rfl rfl hn0 (by omega) (by omega) hold
    · rw [if_neg hpart] at hret ⊢
      have hsettled : settle t.progress = { t.progress with multiFrame := false } := if_pos ⟨by omega, hmore.multiFrame⟩
      have hidle : (settle t.progress).writing = false := by
        rw [hsettled]
        exact hwriting.trans (decide_eq_false hpart)
      have hline' : Line rest (settle t.progress) := by
        refine ⟨fun x hx => hline.full x (by rw [hq]; exact List.mem_cons_of_mem _ hx), fun hw' => ?_, fun _ => by rw [hsettled]⟩
        rw [hidle] at hw'
        cases hw'
      have hlinked := hl.serve_last (a := ⟨rest, settle t.progress⟩) t.m_sequenceId hw hline' hidle
      refine delivered_frame hs hlen hwrite hle nofun nofun (l := [p]) ?_ hlinked hq hret
      have hall : (p.m_data.drop m).take n = p.m_data.drop m := List.take_of_length_le (by rw [List.length_drop]; omega)
      rw [hpayload, hall, ← hsame]
      exact collect_last hfull rfl rfl (by omega) (by omega) hold

/-- A turn on a queue that is at a packet and has no room for more of it. -/
theorem turn_full (hl : Linked s.w r) (hs : Synced s.coder coder) (ht : t = start s)
    (hq : (s.w.queue (s.w.servesHigh s.swapQueues)).q = q) (hturn : Turned k.frameCoder s q t s') :
    Delivered k s s' r coder [] r coder := by
  subst ht hq
  have hsame : s.w.serve (s.w.servesHigh s.swapQueues) ⟨(s.w.queue (s.w.servesHigh s.swapQueues)).q, (start s).progress⟩
      (start s).m_sequenceId = s.w := serve_same s.w _
  cases hturn with
  | nothing swapQueues => exact delivered_nothing hs swapQueues (by rw [hsame]; exact hl) rfl rfl
  | frame hne => exact absurd rfl hne

/-- A turn is read at the other end. -/
theorem turn_delivered (hl : Linked s.w r) (hs : Synced s.coder coder) (hlen : s.frameLen < 2 ^ 24) (hclear : Clear s)
    (h : turn k.frameCoder s = .done s' ∨ turn k.frameCoder s = .again s') :
    ∃ received r' coder', Delivered k s s' r coder received r' coder' := by
  rcases turn_cases h with rfl | ⟨q, t, hroom, hpack, hturn⟩
  · exact ⟨[], r, coder, .refl hl hs⟩
  have hline := hl.line (s.w.servesHigh s.swapQueues)
  cases hw : (s.w.queue (s.w.servesHigh s.swapQueues)).progress.writing with
  | false =>
    rcases pack_of_idle (s := start s) hline hw rfl rfl hpack with ⟨front, hfront⟩ | ⟨p, rest, hq, rfl, hfirst⟩
    · exact turn_whole hl hs hlen hw hfront hturn
    · exact turn_first hl hs hlen hclear hw hroom hq hfirst (hq ▸ hturn)
  | true =>
    obtain ⟨p, rest, hq, ⟨rfl, ht⟩ | ⟨n, hmore, rfl⟩⟩ := pack_of_writing (s := start s) hline hw rfl hpack
    · exact ⟨[], r, coder, turn_full hl hs ht rfl hturn⟩
    · exact turn_more hl hs hlen hw hq hmore (hq ▸ hturn)

/-! ## Runs of the outer loop -/

/-- The turns of the outer loop, each in a state that has a property. -/
def EveryTurn {γ : Type} (c : RLPXFrameCoder γ) (P : Muxing γ → Prop) : Nat → Muxing γ → Prop
  | 0, _ => True
  | n + 1, s => P s ∧ ∀ s', turn c s = .again s' → EveryTurn c P n s'

/-- The rounds of one `mux` deliver their frames in order. -/
theorem muxLoop_delivered {n : Nat} {s : Muxing FrameCoder} {r : RLPXFrameReader} {coder : FrameCoder} (hl : Linked s.w r)
    (hs : Synced s.coder coder) (hlen : s.frameLen < 2 ^ 24) (hclear : EveryTurn k.frameCoder Clear n s) {w : RLPXFrameWriter}
    {coder₁ : FrameCoder} {ret : Nat} {o_toWrite : List Bytes} (h : muxLoop k.frameCoder n s = .done w coder₁ ret o_toWrite) :
    ∃ s', s'.w = w ∧ s'.coder = coder₁ ∧ s'.ret = ret ∧ s'.o_toWrite = o_toWrite ∧
      ∃ received r' coder', Delivered k s s' r coder received r' coder' := by
  induction n generalizing s r coder with
  | zero => cases h
  | succ n ih =>
    obtain ⟨hclear, hrest⟩ := hclear
    rw [muxLoop] at h
    cases hturn : turn k.frameCoder s with
    | done s' =>
      rw [hturn] at h
      cases h
      exact ⟨s', rfl, rfl, rfl, rfl, turn_delivered hl hs hlen hclear (.inl hturn)⟩
    | again s' =>
      rw [hturn] at h
      obtain ⟨received, r', coder', hd⟩ := turn_delivered hl hs hlen hclear (.inr hturn)
      obtain ⟨s'', hw, hcoder, hret, ho, received', r'', coder'', hd'⟩ :=
        ih hd.linked hd.synced (hd.frameLen_le.trans_lt hlen) (hrest s' hturn) h
      exact ⟨s'', hw, hcoder, hret, ho, _, _, _, hd.trans hd'⟩
    | failed =>
      rw [hturn] at h
      cases h

end Turn

end RLPXFrameWriter

end Webthree
