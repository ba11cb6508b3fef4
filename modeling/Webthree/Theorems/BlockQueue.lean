import Webthree.Lemmas.BlockQueueOrder

/-!
# The block queue

What holds in every state that operations and verifiers lead to. The sets match the containers, unless something of before a
`clear` is reported after it. Blocks are handed out in order, each behind its parent. The counters are right as long as no block
turns out to be bad and no block of the future is involved.
-/

namespace Webthree

open BlockQueue

namespace BlockSample

/-- The hash of the block with this number. -/
def hash (n : UInt8) : H256 := ⟨n :: List.replicate 31 0, rfl⟩

/-- The header of the block with this number. From number 100 on the blocks are of the future. -/
def header (n : UInt8) : QueuedHeader where
  hash := hash n
  parentHash := hash (n - 1)
  sha3Uncles := ⟨0 :: 1 :: List.replicate 30 0, rfl⟩
  difficulty := n.toNat
  timestamp := if n ≥ 100 then n.toNat else 0

theorem hash_injective {n m : UInt8} (h : hash n = hash m) : n = m := (List.cons.inj (congrArg H256.bytes h)).1

/-- A block is its number and any bytes behind. -/
def library : Library where
  headerHashFromBlock b := hash (b.headD 0)
  verifyBlock b := b.head?.map header
  order l := l
  order_perm l := List.Perm.refl l
  hash_eq b bi h := by
    cases b with
    | nil => cases h
    | cons n b => cases h; rfl
  header_eq b b' bi bi' h h' heq := by
    cases b with
    | nil => cases h
    | cons n b =>
      cases b' with
      | nil => cases h'
      | cons m b' =>
        cases h
        cases h'
        rw [hash_injective heq]
  uncles_ne b b' bi bi' h _ := by
    cases b with
    | nil => cases h
    | cons n b =>
      cases h
      intro heq
      have := (List.cons.inj (List.cons.inj (congrArg H256.bytes heq)).2).1
      exact absurd this (by decide)
  verifyBlock_nil := rfl

/-- The block with this number arrives from a peer, at time 50. -/
def arrive (n : UInt8) (parentInChain : Bool) : Step := .import [n] false 50 false parentInChain

end BlockSample

open BlockSample

/-! ## The sets -/

/-- The sets match the containers, every hash is held once, and no hash is in two sets. -/
structure Bookkept (q : BlockQueue) : Prop where
  nodup : (q.blocks.map UnverifiedBlock.hash).Nodup
  ready : ∀ h, h ∈ q.m_readySet ↔ ∃ w ∈ q.blocks, w.hash = h
  invariants : q.invariants = true
  unknown : ∀ h, h ∈ q.m_unknownSet ↔ ∃ e ∈ q.m_unknown, e.hash = h
  readyDraining : Disjoint q.m_readySet q.m_drainingSet
  readyUnknown : Disjoint q.m_readySet q.m_unknownSet
  readyBad : Disjoint q.m_readySet q.m_knownBad
  drainingUnknown : Disjoint q.m_drainingSet q.m_unknownSet
  drainingBad : Disjoint q.m_drainingSet q.m_knownBad
  unknownBad : Disjoint q.m_unknownSet q.m_knownBad

/-- In a run in which no verifier and no `doneDrain` reports as bad what a `clear` has made the queue forget and what has come
again since, the sets match the containers. -/
theorem queue_bookkept (L : Library) {q : BlockQueue} (h : Reach (next L) Fresh new q) : Bookkept q := by
  have hq := Kept.of_reach h
  have hcard : q.m_readySet.card = q.blocks.length := by
    have hset : q.m_readySet = (q.blocks.map UnverifiedBlock.hash).toFinset := by
      ext h'
      rw [hq.ready, List.mem_toFinset]
    rw [hset, List.toFinset_card_of_nodup hq.nodup, List.length_map]
  refine ⟨hq.nodup, fun h' => (hq.ready h').trans List.mem_map, ?_, fun h' => (hq.unknown h').trans List.mem_map,
    Finset.disjoint_left.mpr hq.readyDraining, Finset.disjoint_left.mpr hq.readyUnknown, Finset.disjoint_left.mpr ?_,
    Finset.disjoint_left.mpr hq.drainingUnknown, Finset.disjoint_left.mpr hq.drainingBad, Finset.disjoint_left.mpr hq.unknownBad⟩
  · rw [invariants, hcard, ← dequeLength_eq]
    exact decide_eq_true rfl
  · exact fun h' hready hbad => absurd (hq.readyBad h' hready hbad) (Finset.notMem_empty h')

theorem queue_bookkept_sample :
    Bookkept (next library (next library (next library (next library new (arrive 1 true)) .takeJob) .clear) (.report 0 false)) := by
  refine queue_bookkept library (.step _ (.step _ (.step _ (.step _ .start ?_) ?_) ?_) ?_)
  · exact ⟨nofun, nofun⟩
  · exact ⟨nofun, nofun⟩
  · exact ⟨nofun, nofun⟩
  · exact ⟨fun i work _ _ => .inr ⟨Finset.notMem_empty _, Finset.notMem_empty _, Finset.notMem_empty _⟩, nofun⟩

/-- A verifier is at work on a block, the queue is cleared, and the block comes again. Now the verifier reports it as bad: it stays
in `m_unverified`, and is not in `m_readySet`. -/
theorem queue_not_bookkept : ¬∀ q, Reach (next library) (fun _ _ => True) new q → Bookkept q := by
  intro h
  have hq := h _ (.step (.report 0 false) (.step (arrive 1 true) (.step .clear (.step .takeJob (.step (arrive 1 true) .start
    trivial) trivial) trivial) trivial) trivial)
  exact absurd hq.invariants (by decide +kernel)

/-! ## The order -/

/-- In a run without `retryAllUnknown` and `clear`, blocks are handed out in the order in which they came, each behind its parent
unless the chain knew it, and none when it or its parent is bad. `V` are the hashes of blocks that are in the chain at some time,
`ok` those of blocks that `verifyBlock` lets pass. -/
theorem drain_order (L : Library) (V ok : H256 → Prop) {q : BlockQueue} (h : Reach (next L) (Faithful L V ok) new q) :
    q.drained.Sublist q.entered ∧
      (∀ l₁ w l₂, q.drained = l₁ ++ w :: l₂ → w.parentInChain = true ∨ ∃ w' ∈ l₁, w'.hash = w.parentHash) ∧
      ∀ max, ∀ b ∈ q.drainOut max, b.info.hash ∉ q.m_knownBad ∧ b.info.parentHash ∉ q.m_knownBad := by
  have hq := RunsWell.of_reach h
  have hready : ∀ v ∈ q.m_verified, v.work.hash ∉ q.m_knownBad := by
    intro v hv hbad
    have hin : v.work ∈ q.blocks := List.mem_append_left _ (List.mem_append_left _ (List.mem_map_of_mem hv))
    exact absurd (hq.kept.readyBad _ ((hq.kept.ready _).mpr (List.mem_map_of_mem hin)) hbad) (Finset.notMem_empty _)
  refine ⟨(List.sublist_append_left _ _).trans hq.order.sub, ?_, ?_⟩
  · intro l₁ w l₂ heq
    have hdrained := hq.order.drained
    rw [heq] at hdrained
    exact hdrained.at.imp id fun h => h.resolve_left id
  · intro max b hb
    have hb : b ∈ q.m_verified := by
      rw [drainOut] at hb
      split at hb
      · exact List.mem_of_mem_take hb
      · exact absurd hb List.not_mem_nil
    have hcomplete := hq.shaped.verified b hb
    rw [hcomplete.hash, hcomplete.parentHash]
    refine ⟨hready b hb, ?_⟩
    have hin : b.work ∈ q.blocks := List.mem_append_left _ (List.mem_append_left _ (List.mem_map_of_mem hb))
    obtain ⟨l₁, l₂, hsplit⟩ := List.append_of_mem hb
    have hverified := hq.order.verified
    rw [hsplit, List.map_append, List.map_cons] at hverified
    rcases hverified.at with hchain | hdrained | ⟨w, hw, hparent⟩
    · exact hq.sound.parent b.work hin (.inl (hq.sound.chain b.work hin hchain))
    · exact hq.sound.parent b.work hin (.inr hdrained)
    · obtain ⟨v, hv, rfl⟩ := List.mem_map.mp hw
      rw [← hparent]
      exact hready v (hsplit ▸ List.mem_append_left _ hv)

/-- Two blocks of which the second is verified first. -/
theorem drain_order_sample :
    let q := [arrive 1 true, arrive 2 false, .takeJob, .takeJob, .report 1 true, .report 0 true, .drain 5].foldl (next library) new
    q.drained.Sublist q.entered ∧
      (∀ l₁ w l₂, q.drained = l₁ ++ w :: l₂ → w.parentInChain = true ∨ ∃ w' ∈ l₁, w'.hash = w.parentHash) ∧
      ∀ max, ∀ b ∈ q.drainOut max, b.info.hash ∉ q.m_knownBad ∧ b.info.parentHash ∉ q.m_knownBad := by
  have hstart : Faithful library (fun h => h = BlockSample.hash 0) (fun _ => True) new (arrive 1 true) := by
    intro bi hbi
    cases hbi
    exact ⟨fun _ => rfl, fun _ h => absurd h (by decide)⟩
  have hsecond : Faithful library (fun h => h = BlockSample.hash 0) (fun _ => True) (next library new (arrive 1 true))
      (arrive 2 false) := by
    intro bi hbi
    cases hbi
    exact ⟨nofun, fun _ h => absurd h (by decide)⟩
  have h₂ := Reach.step _ (Reach.step _ .start hstart) hsecond
  have h₄ := Reach.step Step.takeJob (Reach.step Step.takeJob h₂ trivial) trivial
  have h₅ := Reach.step (Step.report 1 true) h₄ fun _ _ => ⟨fun _ => trivial, fun _ => rfl⟩
  have h₆ := Reach.step (Step.report 0 true) h₅ fun _ _ => ⟨fun _ => trivial, fun _ => rfl⟩
  exact drain_order library _ _ (Reach.step (Step.drain 5) h₆ trivial)

/-! ## The counters -/

/-- `m_unknownCount` and `m_unknownSize` count `m_unknown` and `m_future`, if `retryAllUnknown` is called only while `m_future` is
empty. -/
theorem unknown_counted (L : Library) {q : BlockQueue}
    (h : Reach (next L) (fun q s => s = .retryAllUnknown → q.m_future = []) new q) :
    q.m_unknownCount = q.m_unknown.length + q.m_future.length ∧
      q.m_unknownSize = unknownBytes q.m_unknown + futureBytes q.m_future ∧ 0 ≤ q.m_unknownCount ∧ 0 ≤ q.m_unknownSize := by
  have hq := UnknownCounted.of_reach (fun q hq => hq rfl) h
  refine ⟨hq.count, hq.size, ?_, ?_⟩
  · rw [hq.count]
    omega
  · rw [hq.size]
    exact Int.add_nonneg (unknownBytes_nonneg _) (futureBytes_nonneg _)

theorem unknown_counted_sample :
    let q := next library (next library (next library new (arrive 2 false)) .retryAllUnknown) (arrive 100 true)
    q.m_unknownCount = q.m_unknown.length + q.m_future.length ∧
      q.m_unknownSize = unknownBytes q.m_unknown + futureBytes q.m_future ∧ 0 ≤ q.m_unknownCount ∧ 0 ≤ q.m_unknownSize :=
  unknown_counted library (.step _ (.step _ (.step _ .start nofun) fun _ => rfl) nofun)

/-- `retryAllUnknown` sets the counters to zero while a block of the future waits, and `tick` counts it out. -/
theorem unknown_not_counted :
    ¬∀ q, Reach (next library) (fun _ _ => True) new q →
      q.m_unknownCount = q.m_unknown.length + q.m_future.length ∧
        q.m_unknownSize = unknownBytes q.m_unknown + futureBytes q.m_future ∧ 0 ≤ q.m_unknownCount ∧ 0 ≤ q.m_unknownSize := by
  intro h
  have hq := h _ (.step (.tick 200) (.step .retryAllUnknown (.step (arrive 100 true) .start trivial) trivial) trivial)
  exact absurd hq.2.2.1 (by decide +kernel)

/-- The counters of known blocks count the deques. -/
structure CountsKnown (q : BlockQueue) : Prop where
  count : q.m_knownCount = q.blocks.length
  size : q.m_knownSize = blockBytes q.blocks
  knownFull : q.blocks = [] → q.knownFull = false

/-- `m_knownCount` and `m_knownSize` are right exactly as long as no block has left the deques as bad, if the steps are such that
`retryAllUnknown` finds no block of the future and no verifier answers for a block of another length than its own. -/
theorem known_counted_iff (L : Library) {q : BlockQueue} (h : Reach (next L) CountsWell new q) :
    CountsKnown q ↔ q.badKnown = false := by
  have hq := KnownCounted.of_reach h
  refine ⟨fun hcount => Bool.eq_false_iff.mpr fun hbad => ?_, fun hbad => ⟨hq.count hbad, hq.size hbad, fun hnil => ?_⟩⟩
  · have hlt := hq.surplus hbad
    rw [hcount.count] at hlt
    exact absurd hlt (Int.lt_irrefl _)
  · have hcount := hq.count hbad
    have hsize := hq.size hbad
    rw [hnil] at hcount hsize
    rw [BlockQueue.knownFull, hcount, hsize]
    decide

theorem known_counted_iff_sample :
    let q := next library (next library (next library new (arrive 1 true)) .takeJob) (.report 0 true)
    CountsKnown q ↔ q.badKnown = false := by
  refine known_counted_iff library (.step _ (.step _ (.step _ .start ?_) ?_) ?_)
  · exact ⟨nofun, nofun⟩
  · exact ⟨nofun, nofun⟩
  · have hsame : ∀ v ∈ (next library (next library new (arrive 1 true)) .takeJob).m_verifying,
        ∀ w ∈ (next library (next library new (arrive 1 true)) .takeJob).working,
          v.work.block.length = w.block.length := by decide +kernel
    exact ⟨nofun, fun i work _ hwork v hv _ => hsame v hv work (List.mem_of_getElem? hwork)⟩

/-- A block fails its verification and is still counted. -/
theorem known_not_counted : ¬∀ q, Reach (next library) (fun _ _ => True) new q → CountsKnown q := by
  intro h
  have hq := h _ (.step (.report 0 false) (.step .takeJob (.step (arrive 1 true) .start trivial) trivial) trivial)
  exact absurd hq.count (by decide +kernel)

/-! ## The difficulty -/

/-- `difficulty()` is the sum of the difficulties of the blocks that the queue holds, each counted once, as long as no block has
left as bad, if the steps are such that `tick` finds nothing due and no block that the queue would accept is imported while it
waits in `m_future`. -/
theorem difficulty_eq (L : Library) {q : BlockQueue} (h : Reach (next L) (WeighsWell L) new q) (hknown : q.badKnown = false)
    (hunknown : q.badUnknown = false) : q.m_difficulty = weight (held L q).dedup ∧ (q.heldBytes = [] → q.m_difficulty = 0) := by
  have hq := WeighedIf.of_reach h hknown hunknown
  refine ⟨?_, fun hnil => ?_⟩
  · rw [hq.nodup.dedup, hq.difficulty]
  · rw [hq.difficulty, held, hnil]
    rfl

theorem difficulty_eq_sample :
    let q := next library (next library (next library new (arrive 1 true)) (arrive 3 false)) (arrive 100 true)
    q.m_difficulty = weight (held library q).dedup ∧ (q.heldBytes = [] → q.m_difficulty = 0) := by
  have hnone : ∀ q b, q.m_future = [] → WeighsWell library q (.import b false 50 false true) ∧
      WeighsWell library q (.import b false 50 false false) := by
    intro q b hq
    refine ⟨⟨nofun, fun _ _ _ _ _ _ _ _ e he => ?_⟩, ⟨nofun, fun _ _ _ _ _ _ _ _ e he => ?_⟩⟩
    · rw [hq] at he
      cases he
    · rw [hq] at he
      cases he
  refine difficulty_eq library (.step _ (.step _ (.step _ .start ?_) ?_) ?_) ?_ ?_
  · exact (hnone _ _ rfl).1
  · exact (hnone _ _ (by decide +kernel)).2
  · exact (hnone _ _ (by decide +kernel)).1
  · decide +kernel
  · decide +kernel

/-- A block of the future becomes due: `tick` takes it out, does not subtract its difficulty, and imports it again. -/
theorem difficulty_ne :
    ¬∀ q, Reach (next library) (fun _ _ => True) new q →
      q.m_difficulty = weight (held library q).dedup ∧ (q.heldBytes = [] → q.m_difficulty = 0) := by
  intro h
  have hq := h _ (.step (.tickImport 0 200 false true) (.step (.tick 200) (.step (arrive 100 true) .start trivial) trivial) trivial)
  exact absurd hq.1 (by decide +kernel)

end Webthree
