import Webthree.Lemmas.RLPXFrameReader

/-!
# Packets over a connection

Whatever is enqueued and muxed, the reading end of the connection takes the frames apart into the packets that the writing end has
reported, as long as each packet of several frames can be put together there.
-/

namespace Webthree

namespace RLPXFrameWriter

open RLPXFrameCoder RLPXPacket RLPXFrameReader

/-! ## Runs of the writing end -/

/-- The writing end of a connection, with what went in and what came out. -/
structure Sending where
  w : RLPXFrameWriter
  coder : FrameCoder
  /-- The packets that were enqueued, and whether their priority is high. -/
  enqueued : List (Bool × RLPXPacket)
  frames : List Bytes
  /-- The sum of what `mux` returned. -/
  reported : Nat

/-- The runs of the writing end: valid packets with data are enqueued, and calls of `mux` come to an end. -/
inductive Sends (k : FrameCrypto) (P : Muxing FrameCoder → Prop) (protocolType : UInt16) (coder : FrameCoder) : Sending → Prop
  | start : Sends k P protocolType coder ⟨init protocolType, coder, [], [], 0⟩
  | enque {x : Sending} (h : Sends k P protocolType coder x) (p : RLPXPacket) (priority : PacketPriority) (hvalid : p.isValid = true)
      (hdata : p.m_data ≠ []) : Sends k P protocolType coder
      { x with w := x.w.enque p priority, enqueued := x.enqueued ++ [(decide (priority = .PriorityHigh), p)] }
  | mux {x : Sending} (h : Sends k P protocolType coder x) {size : UInt32} {w : RLPXFrameWriter} {coder' : FrameCoder} {ret : Nat}
      {frames : List Bytes} (hsize : size.toNat < 2 ^ 24)
      (hturns : EveryTurn k.frameCoder P (size.toNat / 16 * 16 + 2) ⟨x.w, x.coder, size.toNat / 16 * 16, false, 0, []⟩)
      (hmux : mux k.frameCoder x.w x.coder size [] = .done w coder' ret frames) : Sends k P protocolType coder
      { x with w, coder := coder', frames := x.frames ++ frames, reported := x.reported + ret }

/-- The reading end takes the frames, and gives the packets back that are reported: those of each priority in the order in which they
were enqueued, with the rest of them still in the queue. -/
def RoundTrip (k : FrameCrypto) (coder : FrameCoder) (x : Sending) : Prop :=
  ∃ received r coder', deliverAll k x.frames RLPXFrameReader.init coder = .ok (received.map Prod.snd, r, coder') ∧
    received.length = x.reported ∧ ∀ high, ofQueue high x.enqueued = ofQueue high received ++ (x.w.queue high).q

/-- A packet at the end of one of the queues. -/
theorem queue_enque {w : RLPXFrameWriter} {p : RLPXPacket} (hvalid : p.isValid = true) (priority : PacketPriority) (high : Bool) :
    (w.enque p priority).queue high = ⟨(w.queue high).q ++ ofQueue high [(decide (priority = .PriorityHigh), p)],
      (w.queue high).progress⟩ := by
  unfold enque
  rw [if_pos hvalid]
  cases priority <;> cases high <;> simp [queue, ofQueue]

theorem Line.append {q : List RLPXPacket} {pr : Progress} (h : Line q pr) {ps : List RLPXPacket}
    (hps : ∀ p ∈ ps, p.isValid = true ∧ p.m_data ≠ []) : Line (q ++ ps) pr where
  full p hp := (List.mem_append.mp hp).elim (h.full p) (hps p)
  writing hw := by
    obtain ⟨hm, h0, p, rest, rfl, hp⟩ := h.writing hw
    exact ⟨hm, h0, p, rest ++ ps, rfl, hp⟩
  idle := h.idle

/-- What is held of a queue does not depend on the packets behind the first. -/
theorem held_append {qs : WriterState} (hline : Line qs.q qs.progress) (ps : List RLPXPacket) (sequenceId : UInt16)
    (v : RLPXPacket × UInt32) : Held ⟨qs.q ++ ps, qs.progress⟩ sequenceId v ↔ Held qs sequenceId v := by
  cases hw : qs.progress.writing with
  | false => exact iff_of_false (not_held (a := ⟨qs.q ++ ps, qs.progress⟩) hw _ _) (not_held hw _ _)
  | true =>
    obtain ⟨-, -, p, rest, hq, -⟩ := hline.writing hw
    rw [held_iff (a := qs) hw hq, held_iff (a := ⟨qs.q ++ ps, qs.progress⟩) hw (by rw [hq, List.cons_append])]

/-- A packet that is enqueued changes nothing for the reading end. -/
theorem Linked.enque {w : RLPXFrameWriter} {r : RLPXFrameReader} (hl : Linked w r) {p : RLPXPacket} (hvalid : p.isValid = true)
    (hdata : p.m_data ≠ []) (priority : PacketPriority) : (w.enque p priority).Linked r := by
  have hqueue := fun high => queue_enque (w := w) hvalid priority high
  refine ⟨fun high => ?_, fun high => ?_, fun high sequenceId v => ?_⟩
  · rw [hqueue]
    refine (hl.line high).append fun x hx => ?_
    obtain ⟨e, he, rfl⟩ := List.mem_map.mp hx
    rw [List.mem_singleton.mp (List.mem_filter.mp he).1]
    exact ⟨hvalid, hdata⟩
  · rw [hqueue, hqueue]
    exact hl.distinct high
  · rw [hqueue, hqueue, held_append (hl.line high), held_append (hl.line (!high))]
    exact hl.incomplete high sequenceId v

/-- What holds of both ends after any run. -/
theorem sends_delivered {k : FrameCrypto} {protocolType : UInt16} {coder reader : FrameCoder} (hs : Synced coder reader) {x : Sending}
    (h : Sends k Clear protocolType coder x) :
    ∃ received r coder', deliverAll k x.frames RLPXFrameReader.init reader = .ok (received.map Prod.snd, r, coder') ∧
      received.length = x.reported ∧ (∀ high, ofQueue high x.enqueued = ofQueue high received ++ (x.w.queue high).q) ∧
      Linked x.w r ∧ Synced x.coder coder' := by
  induction h with
  | start =>
    refine ⟨[], RLPXFrameReader.init, reader, rfl, rfl, fun high => ?_, ⟨fun high => ?_, fun high => ?_, fun high sequenceId v => ?_⟩, hs⟩
    · cases high <;> rfl
    · cases high <;> exact ⟨nofun, nofun, fun _ => rfl⟩
    · cases high <;> exact nofun
    · cases high <;> exact iff_of_false nofun fun h => h.elim (fun h => Bool.false_ne_true h.1) fun h => Bool.false_ne_true h.1
  | @enque x _ p priority hvalid hdata ih =>
    obtain ⟨received, r, coder', hdeliver, hlen, hqueues, hlinked, hsynced⟩ := ih
    refine ⟨received, r, coder', hdeliver, hlen, fun high => ?_, hlinked.enque hvalid hdata priority, hsynced⟩
    rw [ofQueue_append, hqueues high, queue_enque hvalid, List.append_assoc]
  | @mux x _ size w coder₁ ret frames hsize hturns hmux ih =>
    obtain ⟨received, r, coder', hdeliver, hlen, hqueues, hlinked, hsynced⟩ := ih
    unfold mux at hmux
    by_cases hsmall : size.toNat < c_overhead + c_blockSize
    · rw [if_pos hsmall] at hmux
      cases hmux
      exact ⟨received, r, coder', by rw [List.append_nil]; exact hdeliver, hlen, hqueues, hlinked, hsynced⟩
    · rw [if_neg hsmall] at hmux
      have hframeLen : size.toNat / 16 * 16 < 2 ^ 24 := (Nat.div_mul_le_self _ _).trans_lt hsize
      obtain ⟨s', rfl, rfl, rfl, rfl, received', r', coder'', hd⟩ := muxLoop_delivered (s := ⟨x.w, x.coder, _, false, 0, []⟩) hlinked hsynced
        hframeLen hturns hmux
      obtain ⟨frames, ho, hframes⟩ := hd.frames
      have ho' : s'.o_toWrite = frames := ho
      have hret : s'.ret = 0 + received'.length := hd.ret
      refine ⟨received ++ received', r', coder'', ?_, ?_, fun high => ?_, hd.linked, hd.synced⟩
      · rw [List.map_append, ho']
        exact deliverAll_append hdeliver hframes
      · rw [List.length_append, hlen, hret, Nat.zero_add]
      · rw [hqueues high, hd.queues high, ofQueue_append, List.append_assoc]

/-- The reading end takes every run apart again, when both ends are set up from one handshake and each packet that takes several frames
can be put together. -/
theorem frames_round_trip (k : FrameCrypto) (originated : Bool) (a b nonce nonce' : H256) (ackCipher authCipher : Bytes)
    {protocolType : UInt16} {x : Sending}
    (h : Sends k Clear protocolType (k.setup originated (k.toPublic b) nonce' a nonce ackCipher authCipher) x) :
    RoundTrip k (k.setup (!originated) (k.toPublic a) nonce b nonce' ackCipher authCipher) x := by
  obtain ⟨received, r, coder', hdeliver, hlen, hqueues, -⟩ :=
    sends_delivered (k.setup_synced originated a b nonce nonce' ackCipher authCipher) h
  exact ⟨received, r, coder', hdeliver, hlen, hqueues⟩

/-! ## Runs of few packets -/

/-- The packets of a queue that have got no sequence id yet. -/
def waiting (qs : WriterState) : Nat := qs.q.length - if qs.progress.writing then 1 else 0

/-- A writer whose packets are ordinary ones, and that has sequence ids for `n` packets. -/
structure Few (w : RLPXFrameWriter) (n : Nat) : Prop where
  short : ∀ high, ∀ p ∈ (w.queue high).q, p.m_type.length < 16 ∧ p.size ≤ 2 ^ 32
  left : ∀ high, w.m_sequenceId.toNat + waiting (w.queue high) + waiting (w.queue (!high)) ≤ n
  inUse : ∀ high, (w.queue high).progress.writing = true → (w.queue high).progress.sequence.toNat ≤ w.m_sequenceId.toNat

/-- With sequence ids left, the id of a packet that begins is not in use. -/
theorem Few.clear {s : Muxing FrameCoder} {n : Nat} (h : Few s.w n) (hn : n < 2 ^ 16) : Clear s := by
  rintro p ⟨-, hblock, hidle, ⟨rest, hq⟩, -, -⟩
  unfold c_blockSize at hblock
  obtain ⟨htype, hsize⟩ := h.short (s.w.servesHigh s.swapQueues) p (by rw [hq]; exact List.mem_cons_self)
  refine ⟨by omega, hsize, fun hw hsame => ?_⟩
  have hused := h.inUse (!s.w.servesHigh s.swapQueues) hw
  have hleft := h.left (s.w.servesHigh s.swapQueues)
  have hwaiting : waiting (s.w.queue (s.w.servesHigh s.swapQueues)) = rest.length + 1 := by
    rw [waiting, hq, hidle]
    rfl
  rw [hsame, UInt16.toNat_add] at hused
  have hone : (1 : UInt16).toNat = 1 := rfl
  omega

/-- One queue is served. -/
theorem Few.serve {w : RLPXFrameWriter} {n : Nat} (h : Few w n) {high : Bool} {qs : WriterState} {m_sequenceId : UInt16}
    (hsub : qs.q ⊆ (w.queue high).q) (hle : w.m_sequenceId.toNat ≤ m_sequenceId.toNat)
    (hleft : m_sequenceId.toNat + waiting qs ≤ w.m_sequenceId.toNat + waiting (w.queue high))
    (hused : qs.progress.writing = true → qs.progress.sequence.toNat ≤ m_sequenceId.toNat) : Few (w.serve high qs m_sequenceId) n := by
  have hself := queue_serve_self w high qs m_sequenceId
  have hother := queue_serve_not w high qs m_sequenceId
  have hbefore := h.left high
  refine ⟨fun b => ?_, fun b => ?_, fun b => ?_⟩
  · rcases Bool.eq_or_eq_not b high with rfl | rfl
    · rw [hself]
      exact fun p hp => h.short _ p (hsub hp)
    · rw [hother]
      exact h.short _
  · show m_sequenceId.toNat + _ + _ ≤ n
    rcases Bool.eq_or_eq_not b high with rfl | rfl
    · rw [hself, hother]
      omega
    · rw [Bool.not_not, hself, hother]
      omega
  · show _ → _ ≤ m_sequenceId.toNat
    rcases Bool.eq_or_eq_not b high with rfl | rfl
    · rw [hself]
      exact hused
    · rw [hother]
      exact fun hw => (h.inUse _ hw).trans hle

theorem writing_settle (pr : Progress) : (settle pr).writing = pr.writing := by
  unfold settle
  split <;> rfl

theorem sequence_settle (pr : Progress) : (settle pr).sequence = pr.sequence := by
  unfold settle
  split <;> rfl

theorem Turned.few {s s' : Muxing FrameCoder} {k : FrameCrypto} {q : List RLPXPacket} {t : Packing} {n : Nat} (hf : Few s.w n)
    (hturn : Turned k.frameCoder s q t s') (hsub : q ⊆ (s.w.queue (s.w.servesHigh s.swapQueues)).q)
    (hle : s.w.m_sequenceId.toNat ≤ t.m_sequenceId.toNat)
    (hleft : t.m_sequenceId.toNat + waiting ⟨q, t.progress⟩ ≤
      s.w.m_sequenceId.toNat + waiting (s.w.queue (s.w.servesHigh s.swapQueues)))
    (hused : t.progress.writing = true → t.progress.sequence.toNat ≤ t.m_sequenceId.toNat) : Few s'.w n := by
  cases hturn with
  | nothing => exact hf.serve hsub hle hleft hused
  | frame =>
    refine hf.serve hsub hle ?_ ?_
    · rw [waiting, writing_settle]
      exact hleft
    · rw [writing_settle, sequence_settle]
      exact hused

/-- A turn gives a sequence id to one packet at most. -/
theorem turn_few {s s' : Muxing FrameCoder} {k : FrameCrypto} {n : Nat} (hline : ∀ high, Line (s.w.queue high).q (s.w.queue high).progress)
    (hf : Few s.w n) (hn : n < 2 ^ 16) (h : turn k.frameCoder s = .done s' ∨ turn k.frameCoder s = .again s') : Few s'.w n := by
  rcases turn_cases h with rfl | ⟨q, t, hroom, hpack, hturn⟩
  · exact hf
  set high := s.w.servesHigh s.swapQueues with hhigh
  have hleft := hf.left high
  cases hw : (s.w.queue high).progress.writing with
  | false =>
    have hwaiting : waiting (s.w.queue high) = (s.w.queue high).q.length := by
      rw [waiting, hw]
      rfl
    rcases pack_of_idle (s := start s) (hline high) hw rfl rfl hpack with ⟨front, hfront⟩ | ⟨p, rest, hq, rfl, hfirst⟩
    · have hsequence : t.m_sequenceId = s.w.m_sequenceId := hfront.sequence
      have hlength := congrArg List.length hfront.queue
      rw [List.length_append] at hlength
      refine hturn.few hf ?_ (hsequence ▸ Nat.le_refl _) ?_ fun h => ?_
      · rw [← hhigh, hfront.queue]
        exact List.subset_append_right _ _
      · rw [← hhigh, hsequence, hwaiting, waiting, hfront.writing, if_neg Bool.false_ne_true]
        show s.w.m_sequenceId.toNat + (q.length - 0) ≤ _
        omega
      · rw [hfront.writing] at h
        cases h
    · have hlength : (s.w.queue high).q.length = rest.length + 1 := by
        rw [hq]
        rfl
      have hsequence : t.m_sequenceId.toNat = s.w.m_sequenceId.toNat + 1 := by
        have hnext : t.m_sequenceId = s.w.m_sequenceId + 1 := hfirst.sequence
        rw [hnext, UInt16.toNat_add]
        have hone : (1 : UInt16).toNat = 1 := rfl
        omega
      have hsame : t.progress.sequence = t.m_sequenceId := by rw [hfirst.progress, hfirst.sequence]
      refine hturn.few hf (fun x hx => hx) (by omega) ?_ fun _ => hsame ▸ Nat.le_refl _
      rw [← hhigh, hwaiting, waiting, hfirst.progress]
      show t.m_sequenceId.toNat + ((s.w.queue high).q.length - 1) ≤ _
      omega
  | true =>
    have hused := hf.inUse high hw
    have hwaiting : waiting (s.w.queue high) = (s.w.queue high).q.length - 1 := by
      rw [waiting, hw]
      rfl
    obtain ⟨p, rest, hq, ⟨rfl, rfl⟩ | ⟨m, hmore, rfl⟩⟩ := pack_of_writing (s := start s) (hline high) hw rfl hpack
    · exact hturn.few hf (fun x hx => hx) (Nat.le_refl _) (Nat.le_refl _) fun _ => hused
    · have hlength : (s.w.queue high).q.length = rest.length + 1 := by
        rw [hq]
        rfl
      have hsequence : t.m_sequenceId = s.w.m_sequenceId := hmore.sequence
      refine hturn.few hf ?_ (hsequence ▸ Nat.le_refl _) ?_ fun _ => ?_
      · rw [← hhigh, hq]
        split
        · exact fun x hx => hx
        · exact List.subset_cons_self _ _
      · rw [← hhigh, hsequence, hwaiting, waiting, hmore.writing]
        by_cases hpart : m < (start s).progress.remaining
        · rw [if_pos hpart, if_pos (decide_eq_true hpart)]
        · rw [if_neg hpart, if_neg (by simpa using hpart)]
          show s.w.m_sequenceId.toNat + (rest.length - 0) ≤ _
          omega
      · rw [hmore.same, hsequence]
        exact hused

theorem everyTurn_clear {k : FrameCrypto} {s : Muxing FrameCoder} {r : RLPXFrameReader} {coder : FrameCoder} {n : Nat} (hl : Linked s.w r)
    (hs : Synced s.coder coder) (hlen : s.frameLen < 2 ^ 24) (hf : Few s.w n) (hn : n < 2 ^ 16) (m : Nat) :
    EveryTurn k.frameCoder Clear m s ∧ ∀ {w coder' ret o_toWrite}, muxLoop k.frameCoder m s = .done w coder' ret o_toWrite → Few w n := by
  induction m generalizing s r coder with
  | zero => exact ⟨trivial, nofun⟩
  | succ m ih =>
    have hclear := hf.clear hn
    refine ⟨⟨hclear, fun s' hturn => ?_⟩, fun {w coder' ret o_toWrite} h => ?_⟩
    · obtain ⟨received, r', coder', hd⟩ := turn_delivered hl hs hlen hclear (.inr hturn)
      exact (ih hd.linked hd.synced (hd.frameLen_le.trans_lt hlen) (turn_few hl.line hf hn (.inr hturn))).1
    · rw [muxLoop] at h
      cases hturn : turn k.frameCoder s with
      | done s' =>
        rw [hturn] at h
        cases h
        exact turn_few hl.line hf hn (.inl hturn)
      | again s' =>
        rw [hturn] at h
        obtain ⟨received, r', coder', hd⟩ := turn_delivered hl hs hlen hclear (.inr hturn)
        exact (ih hd.linked hd.synced (hd.frameLen_le.trans_lt hlen) (turn_few hl.line hf hn (.inr hturn))).2 h
      | failed =>
        rw [hturn] at h
        cases h

/-- A packet that is enqueued may take one more sequence id. -/
theorem Few.enque {w : RLPXFrameWriter} {n : Nat} (h : Few w n) {p : RLPXPacket} (hvalid : p.isValid = true)
    (hshort : p.m_type.length < 16 ∧ p.size ≤ 2 ^ 32) (priority : PacketPriority) : Few (w.enque p priority) (n + 1) := by
  have hqueue := fun high => queue_enque (w := w) hvalid priority high
  have hsequence : (w.enque p priority).m_sequenceId = w.m_sequenceId := by
    unfold RLPXFrameWriter.enque
    rw [if_pos hvalid]
    cases priority <;> rfl
  refine ⟨fun high x hx => ?_, fun high => ?_, fun high => ?_⟩
  · rw [hqueue] at hx
    rcases List.mem_append.mp hx with hx | hx
    · exact h.short high x hx
    · obtain ⟨e, he, rfl⟩ := List.mem_map.mp hx
      rw [List.mem_singleton.mp (List.mem_filter.mp he).1]
      exact hshort
  · have hleft := h.left high
    have hone : (ofQueue high [(decide (priority = .PriorityHigh), p)]).length +
        (ofQueue (!high) [(decide (priority = .PriorityHigh), p)]).length = 1 := by
      cases priority <;> cases high <;> rfl
    rw [hsequence, hqueue, hqueue]
    unfold waiting at *
    dsimp only
    rw [List.length_append, List.length_append]
    omega
  · rw [hsequence, hqueue]
    exact h.inUse high

/-- In a run of few packets each of them can be put together. -/
theorem sends_few {k : FrameCrypto} {protocolType : UInt16} {coder reader : FrameCoder} (hs : Synced coder reader) {x : Sending}
    (h : Sends k (fun _ => True) protocolType coder x) (hfew : x.enqueued.length < 2 ^ 16)
    (hshort : ∀ e ∈ x.enqueued, e.2.m_type.length < 16 ∧ e.2.size ≤ 2 ^ 32) :
    Sends k Clear protocolType coder x ∧ Few x.w x.enqueued.length := by
  induction h with
  | start =>
    refine ⟨.start, fun high => ?_, fun high => ?_, fun high => ?_⟩
    · cases high <;> exact nofun
    · cases high <;> exact Nat.le_refl _
    · cases high <;> exact nofun
  | enque h p priority hvalid hdata ih =>
    rw [List.length_append, List.length_singleton] at hfew ⊢
    obtain ⟨hsends, hw⟩ := ih (by omega) fun e he => hshort e (List.mem_append_left _ he)
    exact ⟨hsends.enque p priority hvalid hdata,
      hw.enque hvalid (hshort _ (List.mem_append_right _ (List.mem_singleton_self _))) priority⟩
  | @mux x _ size w coder₁ ret frames hsize _ hmux ih =>
    obtain ⟨hsends, hw⟩ := ih hfew hshort
    obtain ⟨received, r, coder', -, -, -, hlinked, hsynced⟩ := sends_delivered hs hsends
    have hframeLen : size.toNat / 16 * 16 < 2 ^ 24 := (Nat.div_mul_le_self _ _).trans_lt hsize
    obtain ⟨hturns, hloop⟩ := everyTurn_clear (k := k) (s := ⟨x.w, x.coder, size.toNat / 16 * 16, false, 0, []⟩) hlinked hsynced hframeLen
      hw hfew (size.toNat / 16 * 16 + 2)
    refine ⟨hsends.mux hsize hturns hmux, ?_⟩
    unfold mux at hmux
    by_cases hsmall : size.toNat < c_overhead + c_blockSize
    · rw [if_pos hsmall] at hmux
      cases hmux
      exact hw
    · rw [if_neg hsmall] at hmux
      exact hloop hmux

/-- Fewer packets than there are sequence ids, of types of less than sixteen bytes and of a size that four bytes can tell, are always taken
apart again. -/
theorem few_frames_round_trip (k : FrameCrypto) (originated : Bool) (a b nonce nonce' : H256) (ackCipher authCipher : Bytes)
    {protocolType : UInt16} {x : Sending}
    (h : Sends k (fun _ => True) protocolType (k.setup originated (k.toPublic b) nonce' a nonce ackCipher authCipher) x)
    (hfew : x.enqueued.length < 2 ^ 16) (hshort : ∀ e ∈ x.enqueued, e.2.m_type.length < 16 ∧ e.2.size ≤ 2 ^ 32) :
    RoundTrip k (k.setup (!originated) (k.toPublic a) nonce b nonce' ackCipher authCipher) x := by
  have hsynced := k.setup_synced originated a b nonce nonce' ackCipher authCipher
  obtain ⟨received, r, coder', hdeliver, hlen, hqueues, -⟩ := sends_delivered hsynced (sends_few hsynced h hfew hshort).1
  exact ⟨received, r, coder', hdeliver, hlen, hqueues⟩

/-! ## A packet in two frames -/

namespace PacketSample

/-- The number of bytes is the hash, and a counter the key stream. -/
def crypto : FrameCrypto where
  toPublic s := s.bytes
  agree _ _ := H256.ofU256 0
  agree_symm _ _ := rfl
  sha3 b := H256.ofU256 (BitVec.ofNat 256 b.length)
  SHA3_256 b := H256.ofU256 (BitVec.ofNat 256 b.length)
  keyStream _ n := UInt8.ofNat n
  encryptBlock _ b := b

def nonce (n : Nat) : H256 := H256.ofU256 (BitVec.ofNat 256 n)

/-- The end that starts the connection. -/
def coder : FrameCoder := crypto.setup true (crypto.toPublic (nonce 1)) (nonce 2) (nonce 3) (nonce 4) [5] [6]

/-- A string of forty bytes. -/
def packet : RLPXPacket := ⟨[1], 0xa8 :: List.replicate 40 7⟩

/-- `mux` on what is sent. -/
def muxed (x : Sending) (size : UInt32) : Option Sending :=
  match mux crypto.frameCoder x.w x.coder size [] with
  | .done w coder ret frames => some ⟨w, coder, x.enqueued, x.frames ++ frames, x.reported + ret⟩
  | _ => none

theorem muxed_sends {x y : Sending} {size : UInt32} (h : Sends crypto (fun _ => True) 0 coder x) (hsize : size.toNat < 2 ^ 24)
    (hmuxed : muxed x size = some y) : Sends crypto (fun _ => True) 0 coder y ∧ y.enqueued = x.enqueued := by
  have hturns : ∀ n s, EveryTurn crypto.frameCoder (fun _ => True) n s := by
    intro n
    induction n with
    | zero => exact fun _ => trivial
    | succ n ih => exact fun _ => ⟨trivial, fun s' _ => ih s'⟩
  unfold muxed at hmuxed
  cases hmux : mux crypto.frameCoder x.w x.coder size [] with
  | done w coder ret frames =>
    rw [hmux] at hmuxed
    cases hmuxed
    exact ⟨h.mux hsize (hturns _ _) hmux, rfl⟩
  | failed =>
    rw [hmux] at hmuxed
    cases hmuxed
  | unfinished =>
    rw [hmux] at hmuxed
    cases hmuxed

/-- The packet is in the queue. -/
def queued : Sending := ⟨(init 0).enque packet .PriorityHigh, coder, [(true, packet)], [], 0⟩

/-- Two calls of `mux` take the packet. -/
def sent : Option Sending := (muxed queued 64).bind fun x => muxed x 96

theorem queued_sends : Sends crypto (fun _ => True) 0 coder queued :=
  .enque .start packet .PriorityHigh (by decide +kernel) (List.cons_ne_nil _ _)

theorem sent_sends : ∃ x, sent = some x ∧ x.reported = 1 ∧ x.enqueued = [(true, packet)] ∧ Sends crypto (fun _ => True) 0 coder x := by
  have hreported : sent.map Sending.reported = some 1 := by decide +kernel
  obtain ⟨x, hx, hone⟩ := Option.map_eq_some_iff.mp hreported
  refine ⟨x, hx, hone, ?_⟩
  clear hreported
  rw [sent, Option.bind_eq_some_iff] at hx
  obtain ⟨y, hy, hmuxed⟩ := hx
  obtain ⟨hsends, henqueued⟩ := muxed_sends queued_sends (by decide) hy
  obtain ⟨hsends', henqueued'⟩ := muxed_sends hsends (by decide) hmuxed
  exact ⟨henqueued'.trans henqueued, hsends'⟩

/-- The packet is an ordinary one. -/
theorem packet_short : ∀ e ∈ [(true, packet)], e.2.m_type.length < 16 ∧ e.2.size ≤ 2 ^ 32 := by
  intro e he
  rw [List.mem_singleton.mp he]
  exact ⟨by decide, by decide +kernel⟩

end PacketSample

theorem frames_round_trip_sample : ∃ x, PacketSample.sent = some x ∧ x.reported = 1 ∧ RoundTrip PacketSample.crypto
    (PacketSample.crypto.setup false (PacketSample.crypto.toPublic (PacketSample.nonce 3)) (PacketSample.nonce 4) (PacketSample.nonce 1) (PacketSample.nonce 2) [5] [6]) x := by
  obtain ⟨x, hx, hone, henqueued, hsends⟩ := PacketSample.sent_sends
  have hsynced := PacketSample.crypto.setup_synced true (PacketSample.nonce 3) (PacketSample.nonce 1) (PacketSample.nonce 4) (PacketSample.nonce 2) [5] [6]
  have hfew : x.enqueued.length < 2 ^ 16 := by
    rw [henqueued]
    decide
  exact ⟨x, hx, hone, frames_round_trip PacketSample.crypto true _ _ _ _ _ _
    (sends_few hsynced hsends hfew (henqueued ▸ PacketSample.packet_short)).1⟩

theorem few_frames_round_trip_sample : ∃ x, PacketSample.sent = some x ∧ x.reported = 1 ∧ RoundTrip PacketSample.crypto
    (PacketSample.crypto.setup false (PacketSample.crypto.toPublic (PacketSample.nonce 3)) (PacketSample.nonce 4) (PacketSample.nonce 1) (PacketSample.nonce 2) [5] [6]) x := by
  obtain ⟨x, hx, hone, henqueued, hsends⟩ := PacketSample.sent_sends
  have hfew : x.enqueued.length < 2 ^ 16 := by
    rw [henqueued]
    decide
  exact ⟨x, hx, hone, few_frames_round_trip PacketSample.crypto true _ _ _ _ _ _ hsends hfew (henqueued ▸ PacketSample.packet_short)⟩

end RLPXFrameWriter

end Webthree
