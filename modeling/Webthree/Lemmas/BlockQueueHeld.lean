import Mathlib.Data.BitVec
import Mathlib.Algebra.BigOperators.Group.List.Basic
import Webthree.Lemmas.BlockQueueCount

/-!
# The difficulty of the block queue

`m_difficulty` against the headers of all blocks that the queue holds.
-/

namespace Webthree

namespace BlockQueue

variable {L : Library}

/-- The blocks that the queue holds: those of the future, those with unknown parents, those of the deques, and those that have
been handed out and not been settled yet. -/
def heldBytes (q : BlockQueue) : List Bytes :=
  q.m_future.map FutureBlock.block ++ (q.m_unknown.map UnknownBlock.block ++
    (q.blocks.map UnverifiedBlock.block ++ q.draining.map fun v => v.work.block))

/-- Their headers. -/
def held (L : Library) (q : BlockQueue) : List QueuedHeader := q.heldBytes.filterMap L.verifyBlock

/-- The difficulties of headers together. -/
def weight (l : List QueuedHeader) : U256 := (l.map QueuedHeader.difficulty).sum

theorem weight_perm {l l' : List QueuedHeader} (h : l.Perm l') : weight l = weight l' := (h.map _).sum_eq

theorem weight_append (l l' : List QueuedHeader) : weight (l ++ l') = weight l + weight l' := by
  rw [weight, List.map_append, List.sum_append]
  rfl

/-- As long as no block has left as bad, the queue holds every block once, has heard of it, and `m_difficulty` is the sum of the
difficulties. -/
structure Weighed (L : Library) (q : BlockQueue) : Prop where
  future : ∀ e ∈ q.m_future, ∃ bi, L.verifyBlock e.block = some bi ∧ bi.hash = e.hash
  nodup : (held L q).Nodup
  difficulty : q.m_difficulty = weight (held L q)
  drainingDifficulty : q.m_drainingDifficulty = weight (q.draining.map VerifiedBlock.info)
  draining : ∀ v ∈ q.draining, v.info.hash ∈ q.m_drainingSet
  blocks : ∀ w ∈ q.blocks, w.hash ∈ q.settled
  unknown : ∀ e ∈ q.m_unknown, e.hash ∈ q.settled

/-- A header the queue holds is that of a block of the future, or its hash is one the queue has heard of. -/
theorem Weighed.heard {q : BlockQueue} (hs : Shaped L q) (hq : Weighed L q) {bi : QueuedHeader} (hbi : bi ∈ held L q) :
    (∃ e ∈ q.m_future, e.hash = bi.hash) ∨ bi.hash ∈ q.settled ∨ bi.hash ∈ q.m_drainingSet := by
  obtain ⟨b, hb, hbi⟩ := List.mem_filterMap.mp hbi
  rcases List.mem_append.mp hb with hb | hb
  · obtain ⟨e, he, rfl⟩ := List.mem_map.mp hb
    obtain ⟨bi', hbi', hhash⟩ := hq.future e he
    rw [hbi] at hbi'
    cases hbi'
    exact .inl ⟨e, he, hhash.symm⟩
  · rcases List.mem_append.mp hb with hb | hb
    · obtain ⟨e, he, rfl⟩ := List.mem_map.mp hb
      obtain ⟨bi', hbi', hhash, -⟩ := hs.unknown e he
      rw [show L.verifyBlock (UnknownBlock.job e).block = some bi from hbi] at hbi'
      cases hbi'
      exact .inr (.inl (hhash ▸ hq.unknown e he))
    · rcases List.mem_append.mp hb with hb | hb
      · obtain ⟨w, hw, rfl⟩ := List.mem_map.mp hb
        have hjob : IsJob L w := hs.isJob hw
        obtain ⟨bi', hbi', hhash, -⟩ := hjob
        rw [hbi] at hbi'
        cases hbi'
        exact .inr (.inl (hhash ▸ hq.blocks w hw))
      · obtain ⟨v, hv, rfl⟩ := List.mem_map.mp hb
        have hinfo := (hs.draining v hv).info
        rw [hbi] at hinfo
        cases hinfo
        exact .inr (.inr (hq.draining v hv))

/-- A queue that holds nothing. -/
theorem Weighed.of_empty {q : BlockQueue} (hfuture : q.m_future = []) (hunknown : q.m_unknown = []) (hblocks : q.blocks = [])
    (hdraining : q.draining = []) (hdifficulty : q.m_difficulty = 0) (hdrainingDifficulty : q.m_drainingDifficulty = 0) :
    Weighed L q := by
  have hheld : held L q = [] := by
    rw [held, heldBytes, hfuture, hunknown, hblocks, hdraining]
    rfl
  constructor
  case future =>
    intro e he
    rw [hfuture] at he
    exact absurd he List.not_mem_nil
  case nodup =>
    rw [hheld]
    exact List.nodup_nil
  case difficulty =>
    rw [hheld, hdifficulty]
    rfl
  case drainingDifficulty =>
    rw [hdrainingDifficulty, hdraining]
    rfl
  case draining =>
    intro v hv
    rw [hdraining] at hv
    exact absurd hv List.not_mem_nil
  case blocks =>
    intro w hw
    rw [hblocks] at hw
    exact absurd hw List.not_mem_nil
  case unknown =>
    intro e he
    rw [hunknown] at he
    exact absurd he List.not_mem_nil

/-- A block that the queue has not heard of, and that is not one of the future, is not held. -/
theorem Weighed.not_held {q : BlockQueue} (hs : Shaped L q) (hq : Weighed L q) {bi : QueuedHeader} (hnew : q.Unheard bi.hash)
    (hfuture : ∀ e ∈ q.m_future, e.hash ≠ bi.hash) : bi ∉ held L q := by
  intro hbi
  rcases hq.heard hs hbi with ⟨e, he, hhash⟩ | hsettled | hdraining
  · exact hfuture e he hhash
  · rcases mem_settled.mp hsettled with h | h | h
    · exact hnew.ready h
    · exact hnew.unknown h
    · exact hnew.bad h
  · exact hnew.draining hdraining

/-- Blocks move from one container to another. -/
theorem Weighed.moved {q q' : BlockQueue} (hq : Weighed L q) (hperm : (held L q').Perm (held L q))
    (hfuture : q'.m_future = q.m_future) (hdifficulty : q'.m_difficulty = q.m_difficulty)
    (hdraining : q'.draining = q.draining) (hset : q'.m_drainingSet = q.m_drainingSet)
    (hdrainingDifficulty : q'.m_drainingDifficulty = q.m_drainingDifficulty) (hsettled : q.settled ⊆ q'.settled)
    (hblocks : ∀ w ∈ q'.blocks, (∃ w' ∈ q.blocks, w'.hash = w.hash) ∨ ∃ e ∈ q.m_unknown, e.hash = w.hash)
    (hunknown : q'.m_unknown ⊆ q.m_unknown) : Weighed L q' := by
  refine ⟨?_, hperm.nodup_iff.mpr hq.nodup, ?_, ?_, ?_, ?_, ?_⟩
  · rw [hfuture]
    exact hq.future
  · rw [hdifficulty, hq.difficulty, weight_perm hperm]
  · rw [hdrainingDifficulty, hdraining]
    exact hq.drainingDifficulty
  · rw [hdraining, hset]
    exact hq.draining
  · intro w hw
    rcases hblocks w hw with ⟨w', hw', hhash⟩ | ⟨e, he, hhash⟩
    · exact hhash ▸ hsettled (hq.blocks w' hw')
    · exact hhash ▸ hsettled (hq.unknown e he)
  · exact fun e he => hsettled (hq.unknown e (hunknown he))

/-- A block comes in. -/
theorem Weighed.entered {q q' : BlockQueue} (hs : Shaped L q) (hq : Weighed L q) {bi : QueuedHeader} {b : Bytes}
    (hbi : L.verifyBlock b = some bi) (hnew : q.Unheard bi.hash) (hnone : ∀ e ∈ q.m_future, e.hash ≠ bi.hash)
    (hperm : q'.heldBytes.Perm (b :: q.heldBytes)) (hfuture : ∀ e ∈ q'.m_future, e ∈ q.m_future ∨ e.block = b ∧ e.hash = bi.hash)
    (hdifficulty : q'.m_difficulty = q.m_difficulty + bi.difficulty) (hdraining : q'.draining = q.draining)
    (hset : q'.m_drainingSet = q.m_drainingSet) (hdrainingDifficulty : q'.m_drainingDifficulty = q.m_drainingDifficulty)
    (hsettled : q.settled ⊆ q'.settled) (hblocks : ∀ w ∈ q'.blocks, w ∈ q.blocks ∨ w.hash ∈ q'.settled)
    (hunknown : ∀ e ∈ q'.m_unknown, e ∈ q.m_unknown ∨ e.hash ∈ q'.settled) : Weighed L q' := by
  have hheld : (held L q').Perm (bi :: held L q) := by
    have h := hperm.filterMap L.verifyBlock
    rwa [List.filterMap_cons_some hbi] at h
  refine ⟨?_, ?_, ?_, ?_, ?_, ?_, ?_⟩
  · intro e he
    rcases hfuture e he with he | ⟨hb, hhash⟩
    · exact hq.future e he
    · exact ⟨bi, by rw [hb, hbi], hhash.symm⟩
  · rw [hheld.nodup_iff]
    exact List.nodup_cons.mpr ⟨hq.not_held hs hnew hnone, hq.nodup⟩
  · rw [hdifficulty, hq.difficulty, weight_perm hheld]
    exact BitVec.add_comm _ _
  · rw [hdrainingDifficulty, hdraining]
    exact hq.drainingDifficulty
  · rw [hdraining, hset]
    exact hq.draining
  · intro w hw
    rcases hblocks w hw with hw | hw
    · exact hsettled (hq.blocks w hw)
    · exact hw
  · intro e he
    rcases hunknown e he with he | he
    · exact hsettled (hq.unknown e he)
    · exact he

/-- Nothing the difficulty is about changes, but for what the queue has heard of. -/
theorem Weighed.congr {q q' : BlockQueue} (hq : Weighed L q) (hcore : q'.core = q.core) (hunknown : q'.m_unknown = q.m_unknown)
    (hblocks : q'.blocks = q.blocks) (hsettled : q.settled ⊆ q'.settled) : Weighed L q' := by
  have hfuture : q'.m_future = q.m_future := congrArg Core.future hcore
  have hdraining : q'.draining = q.draining := congrArg Core.draining hcore
  refine hq.moved ?_ hfuture (congrArg Core.difficulty hcore) hdraining (congrArg Core.drainingSet hcore)
    (congrArg Core.drainingDifficulty hcore) hsettled ?_ ?_
  · rw [held, held, heldBytes, heldBytes, hfuture, hunknown, hblocks, hdraining]
  · rw [hblocks]
    exact fun w hw => .inl ⟨w, hw, rfl⟩
  · rw [hunknown]
    exact List.Subset.refl _

/-- As long as no block has left as bad, the queue is weighed. -/
def WeighedIf (L : Library) (q : BlockQueue) : Prop := q.badKnown = false → q.badUnknown = false → Weighed L q

theorem WeighedIf.updateBad {q : BlockQueue} (hq : WeighedIf L q) (h : H256) : WeighedIf L (updateBad_WITH_LOCK L q h) := by
  intro hk hu
  have hp := (updateBad_spec (L := L) q h).1
  obtain ⟨h1, h2, h3⟩ := hp.same hk
  exact (hq (hp.badKnown_eq_false hk) (hp.badUnknown_eq_false hu)).congr hp.core (hp.sameUnknown hu) (blocks_congr h1 h2 h3)
    hp.settled

/-- Blocks with unknown parents go into `m_unverified`. -/
theorem Weighed.unknown_to_blocks {q q' : BlockQueue} (hq : Weighed L q) {r rest : List UnknownBlock}
    (hperm : (r ++ rest).Perm q.m_unknown) (hunknown : q'.m_unknown = rest)
    (hblocks : q'.blocks = q.blocks ++ r.map UnknownBlock.job) (hfuture : q'.m_future = q.m_future)
    (hdifficulty : q'.m_difficulty = q.m_difficulty) (hdraining : q'.draining = q.draining)
    (hset : q'.m_drainingSet = q.m_drainingSet) (hdrainingDifficulty : q'.m_drainingDifficulty = q.m_drainingDifficulty)
    (hsettled : q.settled ⊆ q'.settled) : Weighed L q' := by
  refine hq.moved ?_ hfuture hdifficulty hdraining hset hdrainingDifficulty hsettled ?_ ?_
  · refine List.Perm.filterMap _ ?_
    have hjob : (r.map UnknownBlock.job).map UnverifiedBlock.block = r.map UnknownBlock.block := by
      rw [List.map_map]
      rfl
    have hbytes := hperm.map UnknownBlock.block
    rw [List.map_append] at hbytes
    rw [heldBytes, heldBytes, hfuture, hunknown, hblocks, hdraining, List.map_append, hjob]
    refine List.Perm.append_left _ ?_
    -- the blocks of `r` come in front of the rest
    calc rest.map UnknownBlock.block ++ (q.blocks.map UnverifiedBlock.block ++ r.map UnknownBlock.block ++
          q.draining.map fun v => v.work.block)
        = rest.map UnknownBlock.block ++ q.blocks.map UnverifiedBlock.block ++ (r.map UnknownBlock.block ++
          q.draining.map fun v => v.work.block) := by simp only [List.append_assoc]
      List.Perm _ (r.map UnknownBlock.block ++ (rest.map UnknownBlock.block ++ q.blocks.map UnverifiedBlock.block ++
          q.draining.map fun v => v.work.block)) := List.perm_append_comm_assoc _ _ _
      List.Perm _ (q.m_unknown.map UnknownBlock.block ++ (q.blocks.map UnverifiedBlock.block ++
          q.draining.map fun v => v.work.block)) := by
        rw [List.append_assoc, ← List.append_assoc]
        exact hbytes.append_right _
  · intro w hw
    rw [hblocks] at hw
    rcases List.mem_append.mp hw with hw | hw
    · exact .inl ⟨w, hw, rfl⟩
    · obtain ⟨e, he, rfl⟩ := List.mem_map.mp hw
      exact .inr ⟨e, hperm.subset (List.mem_append_left _ he), rfl⟩
  · rw [hunknown]
    exact fun e he => hperm.subset (List.mem_append_right _ he)

theorem Weighed.readyTurn {q : BlockQueue} (hq : Weighed L q) (h : H256) : Weighed L (readyTurn L q h) := by
  rw [BlockQueue.readyTurn, foldl_unknownIsReady]
  refine hq.unknown_to_blocks (equalRange_perm (L := L) q h) rfl (blocks_push rfl rfl rfl) rfl rfl rfl rfl rfl ?_
  intro h'
  simp only [mem_settled, eraseRange, Finset.mem_sdiff, Finset.mem_union]
  tauto

theorem Weighed.enterFuture {q : BlockQueue} (hs : Shaped L q) (hq : Weighed L q) {bi : QueuedHeader} {b : Bytes}
    (hbi : L.verifyBlock b = some bi) (hnew : q.Unheard bi.hash) (hnone : ∀ e ∈ q.m_future, e.hash ≠ bi.hash) :
    Weighed L (q.enterFuture bi b) := by
  have hperm := insertFuture_perm ⟨bi.timestamp.toNat % 2 ^ 32, bi.hash, b⟩ q.m_future
  refine hq.entered hs hbi hnew hnone ?_ ?_ rfl rfl rfl rfl (Finset.Subset.refl _) (fun w => .inl) (fun e => .inl)
  · exact (hperm.map FutureBlock.block).append_right _
  · intro e he
    rcases List.mem_cons.mp (hperm.subset he) with rfl | he
    · exact .inr ⟨rfl, rfl⟩
    · exact .inl he

theorem Weighed.enterUnknown {q : BlockQueue} (hs : Shaped L q) (hq : Weighed L q) {bi : QueuedHeader} {b : Bytes}
    (hbi : L.verifyBlock b = some bi) (hnew : q.Unheard bi.hash) (hnone : ∀ e ∈ q.m_future, e.hash ≠ bi.hash) :
    Weighed L (q.enterUnknown bi b) := by
  refine hq.entered hs hbi hnew hnone ?_ (fun e => .inl) rfl rfl rfl rfl ?_ (fun w => .inl) ?_
  · change (_ ++ ((q.m_unknown ++ [_]).map UnknownBlock.block ++ _)).Perm _
    rw [List.map_append, List.append_assoc, ← List.append_assoc _ (q.m_unknown.map UnknownBlock.block)]
    refine List.perm_middle.trans (List.Perm.cons b ?_)
    rw [List.append_assoc]
    exact List.Perm.refl _
  · intro h
    simp only [mem_settled, BlockQueue.enterUnknown, Finset.mem_insert]
    tauto
  · intro e he
    rcases List.mem_append.mp he with he | he
    · exact .inl he
    · rw [List.mem_singleton.mp he]
      exact .inr (mem_settled.mpr (.inr (.inl (Finset.mem_insert_self _ _))))

theorem Weighed.enterReady {q : BlockQueue} (hs : Shaped L q) (hq : Weighed L q) {bi : QueuedHeader} {b : Bytes}
    (parentInChain : Bool) (hbi : L.verifyBlock b = some bi) (hnew : q.Unheard bi.hash)
    (hnone : ∀ e ∈ q.m_future, e.hash ≠ bi.hash) : Weighed L (q.enterReady bi b parentInChain) := by
  have hblocks : (q.enterReady bi b parentInChain).blocks = q.blocks ++ [⟨bi.hash, bi.parentHash, b, parentInChain⟩] :=
    blocks_push rfl rfl rfl
  refine hq.entered hs hbi hnew hnone ?_ (fun e => .inl) rfl rfl rfl rfl ?_ ?_ (fun e => .inl)
  · rw [heldBytes, hblocks, List.map_append]
    change (q.m_future.map _ ++ (q.m_unknown.map _ ++ (q.blocks.map _ ++ [b] ++ q.draining.map _))).Perm _
    have hassoc : ∀ l₁ l₂ l₃ l₄ : List Bytes, l₁ ++ (l₂ ++ (l₃ ++ [b] ++ l₄)) = (l₁ ++ l₂ ++ l₃) ++ b :: l₄ := by simp
    rw [hassoc]
    refine List.perm_middle.trans (List.Perm.cons b ?_)
    rw [heldBytes, List.append_assoc, List.append_assoc]
  · intro h
    simp only [mem_settled, BlockQueue.enterReady, Finset.mem_insert]
    tauto
  · intro w hw
    rw [hblocks] at hw
    rcases List.mem_append.mp hw with hw | hw
    · exact .inl hw
    · rw [List.mem_singleton.mp hw]
      exact .inr (mem_settled.mpr (.inl (Finset.mem_insert_self _ _)))

/-- A block with a bad parent joins the bad ones. -/
theorem WeighedIf.enterBad {q : BlockQueue} (hq : WeighedIf L q) (h : H256) :
    WeighedIf L (updateBad_WITH_LOCK L (q.enterBad h) h) := by
  refine WeighedIf.updateBad (q := q.enterBad h) (fun hk hu => ?_) h
  refine (hq hk hu).congr rfl rfl rfl ?_
  intro h
  simp only [mem_settled, BlockQueue.enterBad, Finset.mem_insert]
  tauto

theorem WeighedIf.imported {q q' : BlockQueue} (hs : Shaped L q) (hq : WeighedIf L q) {bi : QueuedHeader} {b : Bytes}
    {parentInChain : Bool} (hbi : L.verifyBlock b = some bi) (hnew : q.Unheard bi.hash)
    (hnone : ∀ e ∈ q.m_future, e.hash ≠ bi.hash) (h : Imported L q bi b parentInChain q') : WeighedIf L q' := by
  cases h with
  | future => exact fun hk hu => (hq hk hu).enterFuture hs hbi hnew hnone
  | bad _ => exact hq.enterBad bi.hash
  | unknown _ _ => exact fun hk hu => (hq hk hu).enterUnknown hs hbi hnew hnone
  | ready _ _ =>
    refine noteReady_induct (I := WeighedIf L) (fun q h hq _ => ?_) ?_ (Finset.mem_insert_self _ _)
    · intro hk hu
      refine Weighed.readyTurn (hq ?_ ?_) h
      · rwa [BlockQueue.readyTurn, foldl_unknownIsReady] at hk
      · rwa [BlockQueue.readyTurn, foldl_unknownIsReady] at hu
    · exact fun hk hu => (hq hk hu).enterReady hs parentInChain hbi hnew hnone

theorem Weighed.takeJob {q : BlockQueue} (hq : Weighed L q) : Weighed L q.takeJob := by
  have hblocks := blocks_takeJob q
  rw [BlockQueue.takeJob] at hblocks ⊢
  cases hw : q.m_unverified with
  | nil => exact hq
  | cons work l =>
    rw [hw] at hblocks
    exact hq.moved (by rw [held, held, heldBytes, heldBytes, hblocks]) rfl rfl rfl rfl rfl (Finset.Subset.refl _)
      (by rw [hblocks]; exact fun w hw => .inl ⟨w, hw, rfl⟩) (List.Subset.refl _)

theorem WeighedIf.drainVerified {q : BlockQueue} (hq : WeighedIf L q) : WeighedIf L q.drainVerified_WITH_BOTH_LOCKS := by
  refine drainVerified_induct (I := WeighedIf L) ?_ ?_ hq
  · intro q b l hq hl _ _ hk
    exact absurd hk Bool.true_eq_false_eq_False
  · intro q b l hq hl _ _ hk hu
    exact (hq hk hu).congr rfl rfl (blocks_popGood hl) (Finset.Subset.refl _)

theorem WeighedIf.failJob {q : BlockQueue} (hq : WeighedIf L q) (work : UnverifiedBlock) : WeighedIf L (q.failJob work) := by
  intro hk hu
  obtain ⟨hk, hany⟩ := Bool.or_eq_false_iff.mp hk
  refine (hq hk hu).congr rfl rfl (blocks_congr rfl ?_ rfl) ?_
  · refine List.eraseP_of_forall_not fun v hv hp => ?_
    exact absurd (List.any_eq_true.mpr ⟨v, hv, hp⟩) (Bool.eq_false_iff.mp hany)
  · intro h
    simp only [mem_settled, BlockQueue.failJob, Finset.mem_insert, Finset.mem_erase]
    tauto

/-- A block that takes the place of one with its header changes neither the hashes nor the headers. -/
theorem replaceFirst_headers {p : VerifiedBlock → Bool} {b : VerifiedBlock} {l : List VerifiedBlock}
    (h : ∀ v ∈ l, p v = true → v.work.hash = b.work.hash ∧ L.verifyBlock v.work.block = L.verifyBlock b.work.block) :
    (replaceFirst p b l).map (fun v => v.work.hash) = l.map (fun v => v.work.hash) ∧
      (replaceFirst p b l).map (fun v => L.verifyBlock v.work.block) = l.map (fun v => L.verifyBlock v.work.block) := by
  induction l with
  | nil => exact ⟨rfl, rfl⟩
  | cons v l ih =>
    rw [replaceFirst]
    split
    · rename_i hp
      obtain ⟨h1, h2⟩ := h v List.mem_cons_self hp
      simp only [List.map_cons, h1, h2, and_self]
    · obtain ⟨h1, h2⟩ := ih fun v hv => h v (List.mem_cons_of_mem _ hv)
      simp only [List.map_cons, h1, h2, and_self]

/-- The placeholders that a report answers to are of blocks with the header of its block. -/
theorem Shaped.same_header {q : BlockQueue} (hs : Shaped L q) {work : UnverifiedBlock} (hwork : IsJob L work) {v : VerifiedBlock}
    (hv : v ∈ q.m_verifying) (h : v.info.sha3Uncles = work.hash) :
    v.work.hash = work.hash ∧ L.verifyBlock v.work.block = L.verifyBlock work.block := by
  obtain ⟨hp, hhash⟩ := hs.hash_of_sha3Uncles hv hwork h
  obtain ⟨bi, hbi, hh, -⟩ := hp.job
  obtain ⟨bi', hbi', hh', -⟩ := hwork
  refine ⟨hhash, ?_⟩
  have heq := L.header_eq _ _ bi bi' hbi hbi' (by rw [hh, hh', hhash])
  rw [hbi, hbi', heq]

theorem Weighed.fill {q : BlockQueue} (hs : Shaped L q) (hq : Weighed L q) {work : UnverifiedBlock} {info : QueuedHeader}
    (hwork : IsJob L work) : Weighed L (q.fill work info) := by
  obtain ⟨hhash, hheader⟩ := replaceFirst_headers (L := L) (p := fun b => b.info.sha3Uncles = work.hash)
    (b := ⟨info, work.block, work⟩) (l := q.m_verifying) fun v hv hp => hs.same_header hwork hv (of_decide_eq_true hp)
  refine hq.moved ?_ rfl rfl rfl rfl rfl (Finset.Subset.refl _) ?_ (List.Subset.refl _)
  · have hblocks : ((q.fill work info).blocks.map UnverifiedBlock.block).filterMap L.verifyBlock =
        (q.blocks.map UnverifiedBlock.block).filterMap L.verifyBlock := by
      have hmap : ∀ l : List VerifiedBlock, l.filterMap (fun v => L.verifyBlock v.work.block) =
          (l.map fun v => L.verifyBlock v.work.block).filterMap id := by
        intro l
        rw [List.filterMap_map]
        rfl
      simp only [BlockQueue.blocks, BlockQueue.fill, List.map_append, List.filterMap_append, List.map_map, List.filterMap_map,
        Function.comp_def, hmap, hheader]
    rw [held, held, heldBytes, heldBytes]
    simp only [List.filterMap_append, hblocks]
    exact List.Perm.refl _
  · intro w hw
    refine .inl ?_
    have hhashes : (q.fill work info).blocks.map UnverifiedBlock.hash = q.blocks.map UnverifiedBlock.hash := by
      simp only [BlockQueue.blocks, BlockQueue.fill, List.map_append, List.map_map, Function.comp_def, hhash]
    have hmem : w.hash ∈ q.blocks.map UnverifiedBlock.hash := hhashes ▸ List.mem_map_of_mem hw
    exact List.mem_map.mp hmem

theorem WeighedIf.report {q : BlockQueue} (hs : Shaped L q) (hq : WeighedIf L q) (i : Nat) (good : Bool) :
    WeighedIf L (next L q (.report i good)) := by
  rcases report_cases hs i good with h | ⟨work, hwork, h⟩
  · rw [h]
    exact hq
  · have hjob := hs.working work (List.mem_of_getElem? hwork)
    have hdrop : WeighedIf L (q.dropJob i) := fun hk hu =>
      (hq hk hu).moved (List.Perm.refl _) rfl rfl rfl rfl rfl (Finset.Subset.refl _) (fun w hw => .inl ⟨w, hw, rfl⟩)
        (List.Subset.refl _)
    have hfill : ∀ info, WeighedIf L ((q.dropJob i).fill work info) := fun info hk hu => (hdrop hk hu).fill (hs.dropJob i) hjob
    generalize next L q (.report i good) = q' at h ⊢
    cases h with
    | failure _ => exact (hdrop.failJob work).drainVerified
    | filled info _ _ => exact hfill info
    | success info _ _ => exact (hfill info).drainVerified

/-- The headers of verified blocks. -/
theorem filterMap_verified {l : List VerifiedBlock} (h : ∀ v ∈ l, Complete L v) :
    (l.map fun v => v.work.block).filterMap L.verifyBlock = l.map VerifiedBlock.info := by
  induction l with
  | nil => rfl
  | cons v l ih =>
    rw [List.map_cons, List.filterMap_cons_some (h v List.mem_cons_self).info, ih fun v hv => h v (List.mem_cons_of_mem _ hv),
      List.map_cons]

/-- Blocks whose headers are held once have different hashes. -/
theorem hash_ne_of_nodup {l l' : List Bytes} (h : ((l ++ l').filterMap L.verifyBlock).Nodup) {b b' : Bytes} (hb : b ∈ l)
    (hb' : b' ∈ l') {bi bi' : QueuedHeader} (hbi : L.verifyBlock b = some bi) (hbi' : L.verifyBlock b' = some bi') :
    bi.hash ≠ bi'.hash := by
  intro hhash
  have heq := L.header_eq _ _ bi bi' hbi hbi' hhash
  rw [List.filterMap_append] at h
  refine (List.nodup_append.mp h).2.2 bi (List.mem_filterMap.mpr ⟨b, hb, hbi⟩) bi' ?_ heq
  exact List.mem_filterMap.mpr ⟨b', hb', hbi'⟩

/-- The first blocks of `m_verified` are handed out, and there were none out before. -/
theorem Weighed.handOut {q q' : BlockQueue} (hs : Shaped L q') (hq : Weighed L q) {max : Nat} (hnone : q.draining = [])
    (hfuture : q'.m_future = q.m_future) (hunknown : q'.m_unknown = q.m_unknown)
    (hdraining : q'.draining = q.m_verified.take max)
    (hblocks : q.blocks = (q.m_verified.take max).map VerifiedBlock.work ++ q'.blocks)
    (hdifficulty : q'.m_difficulty = q.m_difficulty)
    (hdrainingDifficulty : q'.m_drainingDifficulty = weight ((q.m_verified.take max).map VerifiedBlock.info))
    (hset : ∀ v ∈ q.m_verified.take max, v.info.hash ∈ q'.m_drainingSet)
    (hready : ∀ h ∈ q.m_readySet, h ∈ q'.m_readySet ∨ ∃ v ∈ q.m_verified.take max, v.info.hash = h)
    (hunknownSet : q'.m_unknownSet = q.m_unknownSet) (hbad : q'.m_knownBad = q.m_knownBad) : Weighed L q' := by
  have hbytes : q'.heldBytes.Perm q.heldBytes := by
    rw [heldBytes, heldBytes, hfuture, hunknown, hdraining, hblocks, hnone, List.map_nil, List.append_nil, List.map_append,
      List.map_map]
    exact List.Perm.append_left _ (List.Perm.append_left _ List.perm_append_comm)
  have hheld : (held L q').Perm (held L q) := hbytes.filterMap _
  have hnodup : (held L q').Nodup := hheld.nodup_iff.mpr hq.nodup
  -- what stays has other hashes than what is handed out
  have hne : ∀ b bi, b ∈ q'.m_unknown.map UnknownBlock.block ∨ b ∈ q'.blocks.map UnverifiedBlock.block →
      L.verifyBlock b = some bi → ∀ v ∈ q.m_verified.take max, v.info.hash ≠ bi.hash := by
    intro b bi hb hbi v hv
    have hv' : v ∈ q'.draining := hdraining ▸ hv
    rw [held, heldBytes, ← List.append_assoc, ← List.append_assoc] at hnodup
    refine (hash_ne_of_nodup hnodup ?_ (List.mem_map_of_mem hv') hbi (hs.draining v hv').info).symm
    rw [List.append_assoc]
    exact List.mem_append_right _ (List.mem_append.mpr hb)
  have hsettled : ∀ h ∈ q.settled, (∀ v ∈ q.m_verified.take max, v.info.hash ≠ h) → h ∈ q'.settled := by
    intro h hh hout
    rw [mem_settled] at hh ⊢
    rw [hunknownSet, hbad]
    rcases hh with hh | hh
    · rcases hready h hh with hh | ⟨v, hv, heq⟩
      · exact .inl hh
      · exact absurd heq (hout v hv)
    · exact .inr hh
  refine ⟨?_, hnodup, ?_, ?_, ?_, ?_, ?_⟩
  · rw [hfuture]
    exact hq.future
  · rw [hdifficulty, hq.difficulty, weight_perm hheld]
  · rw [hdrainingDifficulty, hdraining]
  · rw [hdraining]
    exact hset
  · intro w hw
    obtain ⟨bi, hbi, hhash, -⟩ := hs.isJob hw
    refine hsettled _ (hq.blocks w (hblocks ▸ List.mem_append_right _ hw)) ?_
    rw [← hhash]
    exact hne _ bi (.inr (List.mem_map_of_mem hw)) hbi
  · intro e he
    obtain ⟨bi, hbi, hhash, -⟩ := hs.unknown e he
    refine hsettled _ (hq.unknown e (hunknown ▸ he)) ?_
    rw [show e.hash = bi.hash from hhash.symm]
    exact hne _ bi (.inl (List.mem_map_of_mem he)) hbi

theorem Weighed.drain {q : BlockQueue} (hs : Shaped L q) (hq : Weighed L q) (max : Nat) : Weighed L (q.drain max) := by
  have hs' := hs.drain max
  rw [BlockQueue.drain] at hs' ⊢
  by_cases hempty : q.m_drainingSet = ∅
  · rw [if_pos hempty] at hs' ⊢
    have hnone : q.draining = [] := by
      refine List.eq_nil_iff_forall_not_mem.mpr fun v hv => ?_
      have hin := hq.draining v hv
      rw [hempty] at hin
      exact absurd hin (Finset.notMem_empty _)
    rw [foldl_drainOne] at hs' ⊢
    refine hq.handOut hs' hnone rfl rfl (List.nil_append _) (blocks_eq_take_append q max) rfl ?_ ?_ ?_ rfl rfl
    · rw [weight, List.map_map]
      exact BitVec.zero_add _
    · intro v hv
      exact Finset.mem_union_right _ (List.mem_toFinset.mpr (List.mem_map_of_mem hv))
    · intro h hh
      by_cases hin : h ∈ ((q.m_verified.take max).map fun b => b.info.hash).toFinset
      · exact .inr (List.mem_map.mp (List.mem_toFinset.mp hin))
      · exact .inl (Finset.mem_sdiff.mpr ⟨hh, hin⟩)
  · rw [if_neg hempty]
    exact hq

/-- What has been handed out is settled. -/
theorem Weighed.settleDrained {q q' : BlockQueue} (hs : Shaped L q) (hq : Weighed L q) (hfuture : q'.m_future = q.m_future)
    (hunknown : q'.m_unknown = q.m_unknown) (hblocks : q'.blocks = q.blocks) (hdraining : q'.draining = [])
    (hdifficulty : q'.m_difficulty = q.m_difficulty - q.m_drainingDifficulty) (hdrainingDifficulty : q'.m_drainingDifficulty = 0)
    (hsettled : q.settled ⊆ q'.settled) : Weighed L q' := by
  have hheld : held L q = held L q' ++ q.draining.map VerifiedBlock.info := by
    rw [held, held, heldBytes, heldBytes, hfuture, hunknown, hblocks, hdraining, List.map_nil, List.append_nil]
    simp only [List.filterMap_append, filterMap_verified hs.draining, List.append_assoc]
  have hnodup := hq.nodup
  rw [hheld] at hnodup
  refine ⟨?_, (List.nodup_append.mp hnodup).1, ?_, ?_, ?_, ?_, ?_⟩
  · rw [hfuture]
    exact hq.future
  · rw [hdifficulty, hq.difficulty, hq.drainingDifficulty, hheld, weight_append]
    exact BitVec.add_sub_cancel _ _
  · rw [hdrainingDifficulty, hdraining]
    rfl
  · rw [hdraining]
    nofun
  · rw [hblocks]
    exact fun w hw => hsettled (hq.blocks w hw)
  · rw [hunknown]
    exact fun e he => hsettled (hq.unknown e he)

theorem WeighedIf.doneDrain {q : BlockQueue} (hs : Shaped L q) (hq : WeighedIf L q) (bad : List H256) :
    WeighedIf L (q.doneDrain L bad) := by
  refine foldl_updateBad_induct (I := WeighedIf L) (fun q h hq => hq.updateBad h) bad fun hk hu => ?_
  refine (hq hk hu).settleDrained hs rfl rfl rfl rfl rfl rfl ?_
  intro h
  simp only [mem_settled, Finset.mem_union]
  tauto

theorem Weighed.retryAllUnknown {q : BlockQueue} (hq : Weighed L q) : Weighed L (q.retryAllUnknown L) := by
  rw [BlockQueue.retryAllUnknown, foldl_retryUnknown]
  have hperm : (L.order q.m_unknown ++ []).Perm q.m_unknown := by
    rw [List.append_nil]
    exact L.order_perm _
  refine hq.unknown_to_blocks hperm rfl (blocks_push rfl rfl rfl) rfl rfl rfl rfl rfl ?_
  intro h'
  simp only [mem_settled, Finset.mem_sdiff, Finset.mem_union]
  tauto

/-- The queue would accept a block with this header: it has not heard of it, and the block is of the future or its parent is not
bad. -/
structure Accepts (q : BlockQueue) (bi : QueuedHeader) (isOurs : Bool) (now : Nat) : Prop where
  unheard : q.Unheard bi.hash
  goodChain : (bi.timestamp.toNat > now ∧ ¬isOurs) ∨ bi.parentHash ∉ q.m_knownBad

/-- The conditions under which a step keeps the difficulty right, if no block is bad: `tick` finds nothing due, and no block that
the queue would accept is imported while one with its hash waits in `m_future`. -/
def WeighsWell (L : Library) (q : BlockQueue) (s : Step) : Prop :=
  (∀ now, s = .tick now → q.due now = []) ∧
    ∀ b isOurs now parentInChain bi, s = .import b isOurs now false parentInChain → L.verifyBlock b = some bi →
      q.Accepts bi isOurs now → ∀ e ∈ q.m_future, e.hash ≠ bi.hash

/-- A block that is new to the queue, not of the future and the child of a bad block is a bad one. -/
theorem import_of_badChain {b : Bytes} {isOurs : Bool} {now : Nat} {parentInChain : Bool} {q : BlockQueue} {bi : QueuedHeader}
    (hbi : L.verifyBlock b = some bi) (hnew : q.Unheard bi.hash) (hnow : ¬(bi.timestamp.toNat > now ∧ ¬isOurs))
    (hbad : bi.parentHash ∈ q.m_knownBad) :
    (q.import L b isOurs now false parentInChain).2 = updateBad_WITH_LOCK L (q.enterBad bi.hash) bi.hash := by
  have hheard : ¬(L.headerHashFromBlock b ∈ q.m_readySet ∨ L.headerHashFromBlock b ∈ q.m_drainingSet ∨
      L.headerHashFromBlock b ∈ q.m_unknownSet ∨ L.headerHashFromBlock b ∈ q.m_knownBad) := by
    rw [← L.hash_eq b bi hbi, not_or, not_or, not_or]
    exact ⟨hnew.ready, hnew.draining, hnew.unknown, hnew.bad⟩
  rw [«import», if_neg hheard, hbi]
  dsimp only
  rw [if_neg Bool.false_ne_true, if_neg hnow, if_pos hbad]
  rfl

theorem WeighedIf.import {q : BlockQueue} (hs : Shaped L q) (hq : WeighedIf L q) (b : Bytes) (isOurs : Bool) (now : Nat)
    (inChain parentInChain : Bool) (hs' : WeighsWell L q (.import b isOurs now inChain parentInChain)) :
    WeighedIf L (q.import L b isOurs now inChain parentInChain).2 := by
  rcases import_cases (L := L) b isOurs now inChain parentInChain q with h | ⟨bi, hbi, rfl, hnew, h⟩
  · rw [h]
    exact hq
  · by_cases hgood : (bi.timestamp.toNat > now ∧ ¬isOurs) ∨ bi.parentHash ∉ q.m_knownBad
    · exact hq.imported hs hbi hnew (hs'.2 b isOurs now parentInChain bi rfl hbi ⟨hnew, hgood⟩) h
    · obtain ⟨hnow, hbad⟩ := not_or.mp hgood
      rw [import_of_badChain hbi hnew hnow (not_not.mp hbad)]
      exact hq.enterBad bi.hash

theorem todo_import (b : Bytes) (isOurs : Bool) (now : Nat) (inChain parentInChain : Bool) (q : BlockQueue) :
    (q.import L b isOurs now inChain parentInChain).2.todo = q.todo := by
  rcases import_cases (L := L) b isOurs now inChain parentInChain q with h | ⟨bi, -, -, -, h⟩
  · rw [h]
  · generalize (q.import L b isOurs now inChain parentInChain).2 = q' at h ⊢
    cases h with
    | future => rfl
    | bad _ => exact congrArg Core.todo (updateBad_spec (q.enterBad bi.hash) bi.hash).1.core
    | unknown _ _ => rfl
    | ready _ _ =>
      refine noteReady_induct (I := fun q' => q'.todo = q.todo) ?_ rfl (Finset.mem_insert_self _ _)
      intro q' h hq' _
      rw [BlockQueue.readyTurn, foldl_unknownIsReady]
      exact hq'

theorem todo_drainVerified (q : BlockQueue) : q.drainVerified_WITH_BOTH_LOCKS.todo = q.todo :=
  drainVerified_induct (I := fun q' => q'.todo = q.todo) (fun _ _ _ h _ _ _ => h) (fun _ _ _ h _ _ _ => h) rfl

/-- `tick` alone finds blocks of the future. -/
theorem todo_next {q : BlockQueue} (hs : Shaped L q) (hq : q.todo = []) (s : Step) (htick : ∀ now, s = .tick now → q.due now = []) :
    (next L q s).todo = [] := by
  cases s with
  | «import» b isOurs now inChain parentInChain => exact (todo_import b isOurs now inChain parentInChain q).trans hq
  | tick now =>
    rw [BlockQueue.next, BlockQueue.tick, htick now rfl]
    exact (List.append_nil _).trans hq
  | tickImport i now inChain parentInChain =>
    rw [BlockQueue.next, hq]
    exact hq
  | takeJob =>
    rw [BlockQueue.next, BlockQueue.takeJob]
    split
    · exact hq
    · exact hq
  | report i good =>
    rcases report_cases hs i good with h | ⟨work, -, h⟩
    · rw [h]
      exact hq
    · generalize next L q (.report i good) = q' at h ⊢
      cases h with
      | failure _ => exact (todo_drainVerified _).trans hq
      | filled info _ _ => exact hq
      | success info _ _ => exact (todo_drainVerified _).trans hq
  | drain max =>
    rw [BlockQueue.next, BlockQueue.drain]
    split
    · rw [foldl_drainOne]
      exact hq
    · exact hq
  | doneDrain bad =>
    refine foldl_updateBad_induct (I := fun q => q.todo = []) (fun q h hq => ?_) bad hq
    exact (congrArg Core.todo (updateBad_spec (L := L) q h).1.core).trans hq
  | retryAllUnknown =>
    rw [BlockQueue.next, BlockQueue.retryAllUnknown, foldl_retryUnknown]
    exact hq
  | clear => exact hq

theorem WeighedIf.next {q : BlockQueue} (hs : Shaped L q) (htodo : q.todo = []) (hq : WeighedIf L q) (s : Step)
    (hs' : WeighsWell L q s) : WeighedIf L (next L q s) := by
  cases s with
  | «import» b isOurs now inChain parentInChain => exact hq.import hs b isOurs now inChain parentInChain hs'
  | tick now =>
    rw [BlockQueue.next, BlockQueue.tick, hs'.1 now rfl]
    exact fun hk hu => (hq hk hu).moved (List.Perm.refl _) rfl rfl rfl rfl rfl (Finset.Subset.refl _)
      (fun w hw => .inl ⟨w, hw, rfl⟩) (List.Subset.refl _)
  | tickImport i now inChain parentInChain =>
    rw [BlockQueue.next, htodo]
    exact hq
  | takeJob =>
    intro hk hu
    refine Weighed.takeJob (hq ?_ ?_)
    · rw [BlockQueue.next, BlockQueue.takeJob] at hk
      split at hk <;> exact hk
    · rw [BlockQueue.next, BlockQueue.takeJob] at hu
      split at hu <;> exact hu
  | report i good => exact hq.report hs i good
  | drain max =>
    intro hk hu
    refine Weighed.drain hs (hq ?_ ?_) max
    · rw [BlockQueue.next, BlockQueue.drain, foldl_drainOne] at hk
      split at hk <;> exact hk
    · rw [BlockQueue.next, BlockQueue.drain, foldl_drainOne] at hu
      split at hu <;> exact hu
  | doneDrain bad => exact hq.doneDrain hs bad
  | retryAllUnknown =>
    intro hk hu
    rw [BlockQueue.next] at hk hu ⊢
    refine Weighed.retryAllUnknown (hq ?_ ?_)
    · rwa [BlockQueue.retryAllUnknown, foldl_retryUnknown] at hk
    · rwa [BlockQueue.retryAllUnknown, foldl_retryUnknown] at hu
  | clear => exact fun _ _ => Weighed.of_empty rfl rfl rfl rfl rfl rfl

/-- A run whose steps all meet the conditions. -/
theorem WeighedIf.of_reach {q : BlockQueue} (h : Reach (BlockQueue.next L) (WeighsWell L) BlockQueue.new q) :
    WeighedIf L q := by
  refine (Reach.invariant (P := fun q => Shaped L q ∧ q.todo = [] ∧ WeighedIf L q) ?_ ?_ h).2.2
  · exact ⟨Shaped.new, rfl, fun _ _ => Weighed.of_empty rfl rfl rfl rfl rfl rfl⟩
  · rintro q s ⟨hs, htodo, hq⟩ hs'
    exact ⟨hs.next s, todo_next hs htodo s hs'.1, hq.next hs htodo s hs'⟩

end BlockQueue

end Webthree
