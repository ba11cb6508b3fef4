import Webthree.Rlp.Convert
import Webthree.Rlp.Stream

/-!
# Framing packets

`RLPXPacket`, `RLPXFrameCoder::writeFrame` and `RLPXFrameWriter`, which takes packets from two queues and muxes them into frames. The
capability of a packet is left out, and so are the mutexes. The cipher and the digest are given by what the coder calls. A `size_t`
that is reduced goes round below zero.
-/

namespace Webthree

/-- `a - b` as a `size_t`. -/
def subSize (a b : Nat) : Nat := (a + (2 ^ 64 - b)) % 2 ^ 64

/-! ## Packets -/

structure RLPXPacket where
  m_type : Bytes
  m_data : Bytes
deriving DecidableEq, Repr

namespace RLPXPacket

/-- `RLP(b, s).actualSize()` -/
def actualSize (b : Bytes) (s : Nat) : Except RLPError Nat := do (← RLP.ofRef (.ofBytes b) s).actualSize

def size (p : RLPXPacket) : Nat :=
  match (do pure ((← actualSize p.m_type RLP.VeryStrict) + (← actualSize p.m_data RLP.LaissezFaire)) : Except RLPError Nat) with
  | .ok n => n
  | .error _ => 0

def isValid (p : RLPXPacket) : Bool :=
  ¬ (p.m_type = [] ∧ p.m_data = []) ∧ actualSize p.m_type RLP.VeryStrict = .ok p.m_type.length ∧
    actualSize p.m_data RLP.VeryStrict = .ok p.m_data.length

end RLPXPacket

/-! ## Frames -/

/-- What the coder needs from the cipher and the digest; `γ` is the state of both. -/
structure RLPXFrameCoder (γ : Type) where
  /-- `m_frameEnc.ProcessData` -/
  processData : γ → Bytes → Bytes × γ
  updateEgressMACWithHeader : γ → Bytes → γ
  updateEgressMACWithFrame : γ → Bytes → γ
  egressDigest : γ → Bytes
  processData_length : ∀ s b, (processData s b).1.length = b.length
  egressDigest_length : ∀ s, (egressDigest s).length = 16

/-- What the header of a frame says besides the length. -/
structure FrameInfo where
  protocolType : UInt16
  seqId : Option UInt16
  totalSize : Option UInt32

namespace RLPXFrameCoder

variable {γ : Type} (c : RLPXFrameCoder γ)

/-- `h128::size` -/
def c_blockSize : Nat := 16

/-- header + headerMac + frameMAC -/
def c_overhead : Nat := c_blockSize * 3

/-- The header: the length of the payload in three bytes and a list. -/
def header (info : FrameInfo) (payload : Bytes) : Except RLPError Bytes := do
  let len := payload.length % 2 ^ 32
  let items := toBigEndian info.protocolType.toNat :: (info.seqId.map fun seqId => toBigEndian seqId.toNat).toList ++
    (info.totalSize.map fun totalSize => toBigEndian totalSize.toNat).toList
  let header ← ({} : RLPStream).appendRaw [UInt8.ofNat (len >>> 16), UInt8.ofNat (len >>> 8), UInt8.ofNat len] 1
  (← header.writeTree (.list (items.map .data))).out

/-- The padding of so many bytes to whole blocks. -/
def padding (n : Nat) : Nat := (16 - n % 16) % 16

/-- `writeFrame`, for the three kinds of header. -/
def writeFrame (s : γ) (info : FrameInfo) (payload : Bytes) : Except RLPError (Bytes × γ) := do
  let header ← header info payload
  let headerWithMac := (header ++ List.replicate 32 0).take 32
  let (head, s) := c.processData s (headerWithMac.take 16)
  let s := c.updateEgressMACWithHeader s head
  let headMac := c.egressDigest s
  let (packet, s) := c.processData s payload
  let (pad, s) :=
    if padding payload.length = 0 then ([], s) else c.processData s (List.replicate (padding payload.length) 0)
  let s := c.updateEgressMACWithFrame s (packet ++ pad)
  return (head ++ headMac ++ packet ++ pad ++ c.egressDigest s, s)

end RLPXFrameCoder

/-! ## The writer -/

/-- What a queue is at. -/
structure Progress where
  /-- Whether `writing` points to the first packet of the queue; else it is the null pointer. -/
  writing : Bool
  remaining : Nat
  multiFrame : Bool
  sequence : UInt16
deriving DecidableEq, Repr

/-- A queue of packets. -/
structure WriterState where
  q : List RLPXPacket
  progress : Progress
deriving DecidableEq, Repr

inductive PacketPriority where
  | PriorityLow
  | PriorityHigh
deriving DecidableEq, Repr

structure RLPXFrameWriter where
  m_protocolId : UInt16
  /-- High, Low frame queues -/
  m_q : WriterState × WriterState
  m_sequenceId : UInt16
deriving DecidableEq, Repr

namespace RLPXFrameWriter

open RLPXFrameCoder

/-- The writer as it is made. -/
def init (protocolType : UInt16) : RLPXFrameWriter :=
  let empty : WriterState := ⟨[], ⟨false, 0, false, 65535⟩⟩
  ⟨protocolType, (empty, empty), 0⟩

/-- `enque(RLPXPacket&&, PacketPriority)` -/
def enque (w : RLPXFrameWriter) (p : RLPXPacket) (priority : PacketPriority) : RLPXFrameWriter :=
  if p.isValid then
    match priority with
    | .PriorityHigh => { w with m_q := ({ w.m_q.1 with q := w.m_q.1.q ++ [p] }, w.m_q.2) }
    | .PriorityLow => { w with m_q := (w.m_q.1, { w.m_q.2 with q := w.m_q.2.q ++ [p] }) }
  else w

/-- `enque(uint8_t, RLPStream&, PacketPriority)`, which writes the type as a number. -/
def enqueType (w : RLPXFrameWriter) (packetType : UInt8) (payload : Bytes) (priority : PacketPriority) : RLPXFrameWriter :=
  w.enque ⟨Item.encodeData (toBigEndian packetType.toNat), payload⟩ priority

/-- The variables of the inner loop, where the queue itself is left out. -/
structure Packing where
  progress : Progress
  m_sequenceId : UInt16
  frameAllot : Nat
  offset : Nat
  payload : Bytes
  ret : Nat
deriving DecidableEq, Repr

/-- How a turn of the inner loop ends. -/
inductive PackTurn where
  /-- With a `break`; the first packet is taken from the queue or not. -/
  | stop (popped : Bool) (s : Packing)
  /-- The first packet is taken from the queue, and the loop goes on. -/
  | again (s : Packing)
  /-- An assertion fails. -/
  | failed
deriving DecidableEq, Repr

/-- The part of a turn that writes payload of the packet that is being written. -/
def writePortion (p : RLPXPacket) (s : Packing) : PackTurn :=
  let remaining := s.progress.remaining
  -- the first of the assertions on what is left of a packet
  if ¬ (s.progress.multiFrame ∨ (¬ s.progress.multiFrame ∧ remaining ≤ s.frameAllot)) then .failed
  else
    let s :=
      if s.frameAllot ≠ 0 ∧ remaining ≠ 0 then
        let offset := p.m_data.length - remaining
        let length := if remaining ≤ s.frameAllot then remaining else s.frameAllot
        let portion := (p.m_data.drop offset).take length
        { s with
          progress.remaining := remaining - length
          frameAllot := s.frameAllot - portion.length
          offset
          payload := s.payload ++ portion }
      else s
    let remaining := s.progress.remaining
    if ¬ ((remaining = 0 ∧ (0 < s.offset ∨ ¬ s.progress.multiFrame)) ∨ (remaining ≠ 0 ∧ s.progress.multiFrame)) then .failed
    else
      let s := if remaining = 0 then { s with progress.writing := false, ret := s.ret + 1 } else s
      -- a packet of one frame has nothing left here, by the assertion
      if s.progress.multiFrame then .stop (remaining = 0) s else .again s

/-- A turn of the inner loop, where `p` is the first packet of the queue. -/
def packPacket (p : RLPXPacket) (s : Packing) : PackTurn :=
  if s.progress.writing then writePortion p s
  else
    let multiFrame := s.frameAllot < p.size
    if p.m_type = [] then .failed
    else if s.frameAllot < p.m_type.length ∨ (multiFrame ∧ s.payload ≠ []) then
      .stop false { s with progress := { s.progress with writing := false, remaining := 0, multiFrame := false } }
    else
      let m_sequenceId := if multiFrame then s.m_sequenceId + 1 else s.m_sequenceId
      writePortion p { s with
        progress :=
          { writing := true
            remaining := p.m_data.length
            multiFrame
            sequence := if multiFrame then m_sequenceId else s.progress.sequence }
        m_sequenceId
        frameAllot := s.frameAllot - p.m_type.length
        payload := s.payload ++ p.m_type }

/-- The inner loop, with the queue that is left. -/
def pack : List RLPXPacket → Packing → Option (List RLPXPacket × Packing)
  | [], s => if c_blockSize ≤ s.frameAllot ∧ s.progress.writing then none else some ([], s)
  | p :: q, s =>
    if s.frameAllot < c_blockSize then some (p :: q, s)
    else
      match packPacket p s with
      | .stop popped s => some (if popped then q else p :: q, s)
      | .again s => pack q s
      | .failed => none

/-- The variables of the outer loop. -/
structure Muxing (γ : Type) where
  w : RLPXFrameWriter
  coder : γ
  frameLen : Nat
  swapQueues : Bool
  ret : Nat
  o_toWrite : List Bytes

/-- How a turn of the outer loop ends. -/
inductive MuxTurn (γ : Type) where
  | done (s : Muxing γ)
  | again (s : Muxing γ)
  /-- An assertion fails, or there is an exception. -/
  | failed

section

variable {γ : Type} (c : RLPXFrameCoder γ)

def highPending (w : RLPXFrameWriter) : Bool := w.m_q.1.q ≠ []

def lowPending (w : RLPXFrameWriter) : Bool := w.m_q.2.q ≠ []

/-- Which queue is served: first run when !swapQueues, high > low, otherwise low > high -/
def servesHigh (w : RLPXFrameWriter) (swapQueues : Bool) : Bool :=
  if w.highPending && !swapQueues then true else !w.lowPending

/-- The allotment of a frame. -/
def allotment (w : RLPXFrameWriter) (swapQueues : Bool) (frameLen : Nat) : Nat :=
  subSize
    (if !swapQueues && w.highPending && w.lowPending then
      if subSize (frameLen / 2) (c_overhead + c_blockSize) > 0 then frameLen / 2 else frameLen
    else frameLen)
    c_overhead

def queue (w : RLPXFrameWriter) (high : Bool) : WriterState := if high then w.m_q.1 else w.m_q.2

def setQueue (w : RLPXFrameWriter) (high : Bool) (qs : WriterState) : RLPXFrameWriter :=
  { w with m_q := if high then (qs, w.m_q.2) else (w.m_q.1, qs) }

/-- What the header of the frame says. The 1st frame of a segmented packet writes the total size of the packet, and there is none if
that packet is gone. -/
def frameInfo (protocolId : UInt16) (q : List RLPXPacket) (s : Packing) : Option FrameInfo :=
  if s.progress.multiFrame then
    if s.offset = 0 then
      match s.progress.writing, q with
      | true, p :: _ => some ⟨protocolId, some s.progress.sequence, some (UInt32.ofNat p.size)⟩
      | _, _ => none
    else some ⟨protocolId, some s.progress.sequence, none⟩
  else some ⟨protocolId, none, none⟩

/-- A turn of the outer loop. -/
def turn (s : Muxing γ) : MuxTurn γ :=
  if s.frameLen < c_overhead + c_blockSize then .done s
  else if !s.w.highPending && !s.w.lowPending then .done s
  else
    let high := s.w.servesHigh s.swapQueues
    let qs := s.w.queue high
    match pack qs.q ⟨qs.progress, s.w.m_sequenceId, s.w.allotment s.swapQueues s.frameLen, 0, [], s.ret⟩ with
    | none => .failed
    | some (q, t) =>
      let w := { s.w.setQueue high ⟨q, t.progress⟩ with m_sequenceId := t.m_sequenceId }
      if t.payload ≠ [] then
        match frameInfo s.w.m_protocolId q t with
        | none => .failed
        | some info =>
          match c.writeFrame s.coder info t.payload with
          | .error _ => .failed
          | .ok (payload, coder) =>
            if s.frameLen < payload.length then .failed
            else
              let progress :=
                if t.progress.remaining = 0 ∧ t.progress.multiFrame then { t.progress with multiFrame := false } else t.progress
              .again ⟨w.setQueue high ⟨q, progress⟩, coder, s.frameLen - payload.length, true, t.ret, s.o_toWrite ++ [payload]⟩
      else if s.swapQueues then .done { s with w, ret := t.ret }
      else .again { s with w, ret := t.ret, swapQueues := true }

/-- How `mux` ends. -/
inductive MuxOutcome (γ : Type) where
  | done (w : RLPXFrameWriter) (coder : γ) (ret : Nat) (o_toWrite : List Bytes)
  | failed
  /-- The loop has not ended after so many turns. -/
  | unfinished

/-- So many turns of the outer loop at most. -/
def muxLoop : Nat → Muxing γ → MuxOutcome γ
  | 0, _ => .unfinished
  | n + 1, s =>
    match turn c s with
    | .done s => .done s.w s.coder s.ret s.o_toWrite
    | .again s => muxLoop n s
    | .failed => .failed

/-- `mux`, which takes no more turns than there are bytes, and two. -/
def mux (w : RLPXFrameWriter) (coder : γ) (size : UInt32) (o_toWrite : List Bytes) : MuxOutcome γ :=
  if size.toNat < c_overhead + c_blockSize then .done w coder 0 o_toWrite
  else
    let frameLen := size.toNat / 16 * 16
    muxLoop c (frameLen + 2) ⟨w, coder, frameLen, false, 0, o_toWrite⟩

end

end RLPXFrameWriter

end Webthree
