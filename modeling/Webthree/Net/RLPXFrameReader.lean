import Webthree.Core.FixedHash
import Webthree.Lib.Table
import Webthree.Net.RLPXFrameWriter

/-!
# Reading frames

`RLPXFrameCoder` with its ciphers and digests, `RLPXFrameInfo`, and `RLPXFrameReader`, which takes the packets out of frames again. AES,
both hashes and the elliptic curve are parameters. The capability of a packet is left out, and so is the protocol of a reader, which gives it.
-/

namespace Webthree

/-! ## Ciphers and digests -/

/-- What a coder uses of the cryptographic library. -/
structure FrameCrypto where
  /-- The public key of a secret one. -/
  toPublic : H256 → Bytes
  /-- `Secp256k1PP::agree` -/
  agree : H256 → Bytes → H256
  agree_symm : ∀ a b, agree a (toPublic b) = agree b (toPublic a)
  /-- `dev::sha3` -/
  sha3 : Bytes → H256
  /-- What `CryptoPP::SHA3_256` gives for the bytes that it has taken in. -/
  SHA3_256 : Bytes → H256
  /-- The key stream of AES as a counter, from a counter of zero on. -/
  keyStream : H256 → Nat → UInt8
  /-- AES of a block. -/
  encryptBlock : H256 → Bytes → Bytes

/-- `operator^` of `FixedHash` -/
def xorBytes (a b : Bytes) : Bytes := List.zipWith (· ^^^ ·) a b

/-- `cropped(0, n)`: out of bounds gives the empty reference. -/
def croppedTo (b : Bytes) (n : Nat) : Bytes := if n ≤ b.length then b.take n else []

/-- The members of a coder. A stream cipher is at a position of its key stream, and a digest has taken in bytes. -/
structure FrameCoder where
  m_frameEncKey : H256
  m_frameEnc : Nat
  m_frameDecKey : H256
  m_frameDec : Nat
  m_macEncKey : H256
  m_egressMac : Bytes
  m_ingressMac : Bytes
deriving DecidableEq

namespace FrameCrypto

variable (k : FrameCrypto)

/-- `ProcessData` of a stream cipher at a position. -/
def processAt (key : H256) (position : Nat) (b : Bytes) : Bytes := b.mapIdx fun i x => x ^^^ k.keyStream key (position + i)

/-- `TruncatedFinal` of a copy of the digest, for an `h128` -/
def digest (mac : Bytes) : Bytes := (k.SHA3_256 mac).bytes.take 16

theorem length_digest (mac : Bytes) : (k.digest mac).length = 16 := by
  rw [digest, List.length_take, (k.SHA3_256 mac).length_eq]
  rfl

/-- `updateMAC`, whose seed has sixteen bytes or none, so that its assertion does not fail. -/
def updateMAC (macEncKey : H256) (mac seed : Bytes) : Bytes :=
  let prevDigest := k.digest mac
  let encDigest := k.encryptBlock macEncKey prevDigest
  mac ++ xorBytes encDigest (if seed.length ≠ 0 then seed else prevDigest)

/-- The members that write frames. -/
def frameCoder : RLPXFrameCoder FrameCoder where
  processData s b := (k.processAt s.m_frameEncKey s.m_frameEnc b, { s with m_frameEnc := s.m_frameEnc + b.length })
  updateEgressMACWithHeader s headerCipher :=
    { s with m_egressMac := k.updateMAC s.m_macEncKey s.m_egressMac (croppedTo headerCipher 16) }
  updateEgressMACWithFrame s cipher := { s with m_egressMac := k.updateMAC s.m_macEncKey (s.m_egressMac ++ cipher) [] }
  egressDigest s := k.digest s.m_egressMac
  processData_length _ _ := List.length_mapIdx
  egressDigest_length s := k.length_digest s.m_egressMac

/-- `setup` -/
def setup (originated : Bool) (remoteEphemeral : Bytes) (remoteNonce ecdhe nonce : H256) (ackCipher authCipher : Bytes) : FrameCoder :=
  -- shared-secret = sha3(ecdhe-shared-secret || sha3(nonce || initiator-nonce))
  let ephemeralShared := k.agree ecdhe remoteEphemeral
  let leftNonce := if originated then remoteNonce else nonce
  let rightNonce := if originated then nonce else remoteNonce
  let out := k.sha3 (leftNonce.bytes ++ rightNonce.bytes)
  let out := k.sha3 (ephemeralShared.bytes ++ out.bytes)
  -- aes-secret = sha3(ecdhe-shared-secret || shared-secret)
  let aesSecret := k.sha3 (ephemeralShared.bytes ++ out.bytes)
  -- mac-secret = sha3(ecdhe-shared-secret || aes-secret)
  let macSecret := k.sha3 (ephemeralShared.bytes ++ aesSecret.bytes)
  let keyMaterial := xorBytes macSecret.bytes remoteNonce.bytes
  let egressCipher := if originated then authCipher else ackCipher
  -- recover mac-secret by re-xoring remoteNonce
  let keyMaterial' := xorBytes (xorBytes keyMaterial remoteNonce.bytes) nonce.bytes
  let ingressCipher := if originated then ackCipher else authCipher
  { m_frameEncKey := aesSecret
    m_frameEnc := 0
    m_frameDecKey := aesSecret
    m_frameDec := 0
    m_macEncKey := macSecret
    m_egressMac := keyMaterial ++ egressCipher
    m_ingressMac := keyMaterial' ++ ingressCipher }

/-- `authAndDecryptHeader`, with the bytes it leaves. -/
def authAndDecryptHeader (s : FrameCoder) (io : Bytes) : Bool × Bytes × FrameCoder :=
  let s := { s with m_ingressMac := k.updateMAC s.m_macEncKey s.m_ingressMac (croppedTo io 16) }
  if (io.drop 16).take 16 ≠ k.digest s.m_ingressMac then (false, io, s)
  else (true, k.processAt s.m_frameDecKey s.m_frameDec (io.take 16) ++ io.drop 16, { s with m_frameDec := s.m_frameDec + 16 })

/-- `authAndDecryptFrame`, with the bytes it leaves; a frame holds at least its digest. -/
def authAndDecryptFrame (s : FrameCoder) (io : Bytes) : Bool × Bytes × FrameCoder :=
  let cipherText := io.take (io.length - 16)
  let s := { s with m_ingressMac := k.updateMAC s.m_macEncKey (s.m_ingressMac ++ cipherText) [] }
  if io.drop (io.length - 16) ≠ k.digest s.m_ingressMac then (false, io, s)
  else
    (true, k.processAt s.m_frameDecKey s.m_frameDec cipherText ++ io.drop (io.length - 16),
      { s with m_frameDec := s.m_frameDec + cipherText.length })

end FrameCrypto

/-! ## What a header says -/

structure RLPXFrameInfo where
  /-- Size of frame (excludes padding). -/
  length : Nat
  padding : Nat
  protocolId : UInt16
  /-- If this frame is part of a sequence -/
  multiFrame : Bool
  sequenceId : UInt16
  /-- Set to total length of packet in first frame of multiframe packet -/
  totalLength : UInt32
deriving DecidableEq, Repr

/-- `RLPXFrameInfo(_header)` -/
def RLPXFrameInfo.ofHeader (header : Bytes) : Except RLPError RLPXFrameInfo := do
  let length := ((header.getD 0 0).toNat * 256 + (header.getD 1 0).toNat) * 256 + (header.getD 2 0).toNat
  let header ← RLP.ofRef (.ofBytes (header.drop 3)) (RLP.ThrowOnFail ||| RLP.FailIfTooSmall)
  let protocolId ← (← header.index 0).toInt 2 RLP.Strict
  let count ← header.itemCount
  let multiFrame := count > 1
  let sequenceId ← if multiFrame then do (← header.index 1).toInt 2 RLP.Strict else pure 0
  let totalLength ← if count = 3 then do (← header.index 2).toInt 4 RLP.Strict else pure 0
  return {
    length
    padding := (16 - length % 16) % 16
    protocolId := UInt16.ofNat protocolId
    multiFrame
    sequenceId := UInt16.ofNat sequenceId
    totalLength := UInt32.ofNat totalLength }

/-! ## The reader -/

/-- `nextRLP`: the first item, or nothing. -/
def nextRLP (b : Bytes) : Bytes :=
  match RLPXPacket.actualSize b RLP.AllowNonCanon with
  | .ok n => b.take (min n b.length)
  | .error _ => []

namespace RLPXPacket

/-- `RLPXPacket(_capId, _in)` -/
def ofBytes (b : Bytes) : RLPXPacket := ⟨nextRLP b, b.drop (nextRLP b).length⟩

/-- What `append` makes of a packet; it returns whether that is valid. -/
def append (p : RLPXPacket) (b : Bytes) : RLPXPacket := { p with m_data := p.m_data ++ b }

end RLPXPacket

/-- What is thrown on the way of a frame. -/
inductive FrameError where
  | AssertionFailed
  /-- `authAndDecryptHeader` returns false. -/
  | HeaderDecryptFailed
  | RLPXFrameDecryptFailed
  | RLPXInvalidPacket
  | rlp (e : RLPError)
deriving DecidableEq, Repr

structure RLPXFrameReader where
  /-- Sequence: Incomplete packet and bytes remaining. -/
  m_incomplete : Assoc UInt16 (RLPXPacket × UInt32)
deriving DecidableEq, Repr

namespace RLPXFrameReader

/-- The reader as it is made. -/
def init : RLPXFrameReader := ⟨[]⟩

/-- The loop over the packets of a frame, where `ret` are those it has found. A type takes at least one byte, so as many turns as there
are bytes, and one, are enough. -/
def unpack (info : RLPXFrameInfo) :
    (turns : Nat) → Bytes → List RLPXPacket → RLPXFrameReader → Except FrameError (List RLPXPacket × RLPXFrameReader)
  | 0, _, _, _ => throw (.rlp .OutOfFuel)
  | turns + 1, buffer, ret, r =>
    if buffer = [] then pure (ret, r)
    else
      let type := nextRLP buffer
      if type = [] then pure (ret, r)
      else
        let buffer := buffer.drop type.length
        -- consume entire buffer if packet has sequence
        let packet := if info.multiFrame then buffer else nextRLP buffer
        let buffer := buffer.drop packet.length
        let p := RLPXPacket.ofBytes type
        let p := if packet ≠ [] then p.append packet else p
        let remaining := UInt32.ofNat (subSize (subSize info.totalLength.toNat type.length) packet.length)
        if p.isValid then unpack info turns buffer (ret ++ [p]) r
        else if info.multiFrame ∧ remaining ≠ 0 then unpack info turns buffer ret ⟨r.m_incomplete.insert (info.sequenceId, p, remaining)⟩
        else throw .RLPXInvalidPacket

/-- What `demux` makes of the buffer of a frame, which is the frame without its padding and its MAC. -/
def collect (r : RLPXFrameReader) (info : RLPXFrameInfo) (buffer : Bytes) : Except FrameError (List RLPXPacket × RLPXFrameReader) :=
  -- continue populating multiframe packets
  match if info.multiFrame then r.m_incomplete.find info.sequenceId else none with
  | some (p, remaining) =>
    if info.totalLength = 0 ∧ buffer ≠ [] ∧ buffer.length ≤ remaining.toNat then
      let remaining := remaining - UInt32.ofNat buffer.length
      let p := p.append buffer
      -- a packet is given back only with nothing remaining, so the first of the two exceptions is never thrown
      if remaining ≠ 0 then pure ([], ⟨r.m_incomplete.set info.sequenceId (p, remaining)⟩)
      else if p.isValid then pure ([p], ⟨r.m_incomplete.remove info.sequenceId⟩)
      else throw .RLPXInvalidPacket
    else unpack info (buffer.length + 1) buffer [] ⟨r.m_incomplete.remove info.sequenceId⟩
  | none => unpack info (buffer.length + 1) buffer [] r

variable (k : FrameCrypto)

/-- `demux` -/
def demux (r : RLPXFrameReader) (coder : FrameCoder) (info : RLPXFrameInfo) (frame : Bytes) :
    Except FrameError (List RLPXPacket × RLPXFrameReader × FrameCoder) :=
  let (authentic, frame, coder) := k.authAndDecryptFrame coder frame
  let trimmed := subSize frame.length (16 + info.padding)
  if !authentic then throw .RLPXFrameDecryptFailed
  -- drop: bad frame (empty)
  else if frame = [] then pure ([], r, coder)
  -- drop: bad frame (too large)
  else if info.multiFrame ∧ info.totalLength ≠ 0 ∧ info.totalLength.toNat < trimmed then pure ([], r, coder)
  else do
    let (ret, r) ← collect r info (croppedTo frame trimmed)
    pure (ret, r, coder)

/-- A frame on its way to `demux`: its header is decrypted, and then read. -/
def deliver (r : RLPXFrameReader) (coder : FrameCoder) (frame : Bytes) :
    Except FrameError (List RLPXPacket × RLPXFrameReader × FrameCoder) :=
  let header := croppedTo frame 32
  if header.length ≠ 32 then throw .AssertionFailed
  else
    let (authentic, header, coder) := k.authAndDecryptHeader coder header
    if !authentic then throw .HeaderDecryptFailed
    else
      match RLPXFrameInfo.ofHeader header with
      | .error e => throw (.rlp e)
      | .ok info => demux k r coder info (frame.drop 32)

/-- Frames in their order. -/
def deliverAll : List Bytes → RLPXFrameReader → FrameCoder → Except FrameError (List RLPXPacket × RLPXFrameReader × FrameCoder)
  | [], r, coder => pure ([], r, coder)
  | frame :: frames, r, coder => do
    let (ret, r, coder) ← deliver k r coder frame
    let (ret', r, coder) ← deliverAll frames r coder
    pure (ret ++ ret', r, coder)

end RLPXFrameReader

end Webthree
