import Mathlib.Data.Finset.Card
import Mathlib.Data.List.Perm.Basic
import Webthree.Lib.Transition
import Webthree.Queue.BlockQueue

/-!
# The block queue

What the parts of the operations do: which fields they leave alone, and that every block in the queue is one that `verifyBlock`
has read. The blocks of the three deques are one list, in the order in which they are handed out.
-/

namespace Webthree

namespace BlockQueue

variable {L : Library}

/-! ## Blocks -/

/-- The blocks of the three deques, the next one to be handed out first. -/
def blocks (q : BlockQueue) : List UnverifiedBlock :=
  q.m_verified.map VerifiedBlock.work ++ q.m_verifying.map VerifiedBlock.work ++ q.m_unverified

/-- `verifyBlock` has read the header of the block. -/
def IsJob (L : Library) (w : UnverifiedBlock) : Prop :=
  ∃ bi, L.verifyBlock w.block = some bi ∧ bi.hash = w.hash ∧ bi.parentHash = w.parentHash

/-- The block is verified. -/
structure Complete (L : Library) (v : VerifiedBlock) : Prop where
  job : IsJob L v.work
  info : L.verifyBlock v.work.block = some v.info
  data : v.blockData = v.work.block

/-- The block is a placeholder. -/
structure Pending (L : Library) (v : VerifiedBlock) : Prop where
  job : IsJob L v.work
  eq : v = placeholder v.work

/-- Every block is one that `verifyBlock` has read, and has the shape its place asks for. -/
structure Shaped (L : Library) (q : BlockQueue) : Prop where
  verified : ∀ v ∈ q.m_verified, Complete L v
  verifying : ∀ v ∈ q.m_verifying, Complete L v ∨ Pending L v
  unverified : ∀ w ∈ q.m_unverified, IsJob L w
  working : ∀ w ∈ q.working, IsJob L w
  unknown : ∀ e ∈ q.m_unknown, IsJob L (UnknownBlock.job e)
  draining : ∀ v ∈ q.draining, Complete L v

/-- A job has bytes. -/
theorem IsJob.block_ne_nil {w : UnverifiedBlock} (h : IsJob L w) : w.block ≠ [] := by
  obtain ⟨bi, hbi, -, -⟩ := h
  intro hnil
  rw [hnil, L.verifyBlock_nil] at hbi
  cases hbi

/-- The hash of a job is that of its header. -/
theorem IsJob.hash_eq {w : UnverifiedBlock} (h : IsJob L w) : w.hash = L.headerHashFromBlock w.block := by
  obtain ⟨bi, hbi, hhash, -⟩ := h
  rw [← hhash, L.hash_eq _ _ hbi]

/-- What is read from the bytes of a job has its hash. -/
theorem Complete.hash {v : VerifiedBlock} (h : Complete L v) : v.info.hash = v.work.hash := by
  obtain ⟨bi, hbi, hhash, -⟩ := h.job
  rw [h.info] at hbi
  cases hbi
  exact hhash

/-- It has the parent of the job, too. -/
theorem Complete.parentHash {v : VerifiedBlock} (h : Complete L v) : v.info.parentHash = v.work.parentHash := by
  obtain ⟨bi, hbi, -, hparent⟩ := h.job
  rw [h.info] at hbi
  cases hbi
  exact hparent

/-- A complete block has its data. -/
theorem Complete.data_ne_nil {v : VerifiedBlock} (h : Complete L v) : v.blockData ≠ [] := by
  rw [h.data]
  exact h.job.block_ne_nil

/-- The hash of uncles is not that of a job. -/
theorem Complete.sha3Uncles_ne {v : VerifiedBlock} (h : Complete L v) {w : UnverifiedBlock} (hw : IsJob L w) :
    v.info.sha3Uncles ≠ w.hash := by
  rw [hw.hash_eq]
  obtain ⟨bi, hbi, -, -⟩ := hw
  exact L.uncles_ne _ _ _ _ h.info hbi

/-- A placeholder carries the hash of its job. -/
theorem Pending.sha3Uncles {v : VerifiedBlock} (h : Pending L v) : v.info.sha3Uncles = v.work.hash := by
  rw [h.eq]
  rfl

/-- It carries the parent of the job, too. -/
theorem Pending.parentHash {v : VerifiedBlock} (h : Pending L v) : v.info.parentHash = v.work.parentHash := by
  rw [h.eq]
  rfl

/-- A placeholder has no data. -/
theorem Pending.data {v : VerifiedBlock} (h : Pending L v) : v.blockData = [] := by
  rw [h.eq]
  rfl

/-- What waits has the parent of its job. -/
theorem Shaped.parentHash {q : BlockQueue} (hq : Shaped L q) {v : VerifiedBlock} (hv : v ∈ q.m_verifying) :
    v.info.parentHash = v.work.parentHash := by
  rcases hq.verifying v hv with h | h
  · exact h.parentHash
  · exact h.parentHash

/-- Every block in the deques is a job. -/
theorem Shaped.isJob {q : BlockQueue} (hq : Shaped L q) {w : UnverifiedBlock} (hw : w ∈ q.blocks) : IsJob L w := by
  rcases List.mem_append.mp hw with hw | hw
  · rcases List.mem_append.mp hw with hw | hw
    · obtain ⟨v, hv, rfl⟩ := List.mem_map.mp hw
      exact (hq.verified v hv).job
    · obtain ⟨v, hv, rfl⟩ := List.mem_map.mp hw
      rcases hq.verifying v hv with h | h
      · exact h.job
      · exact h.job
  · exact hq.unverified w hw

/-- A block of `m_verifying` that answers to the hash of a job is the placeholder of a job with this hash. -/
theorem Shaped.hash_of_sha3Uncles {q : BlockQueue} (hq : Shaped L q) {v : VerifiedBlock} (hv : v ∈ q.m_verifying)
    {w : UnverifiedBlock} (hw : IsJob L w) (h : v.info.sha3Uncles = w.hash) : Pending L v ∧ v.work.hash = w.hash := by
  rcases hq.verifying v hv with hc | hp
  · exact absurd h (hc.sha3Uncles_ne hw)
  · exact ⟨hp, hp.sha3Uncles.symm.trans h⟩

/-! ## What badness leaves alone -/

/-- The bytes of blocks with unknown parents. -/
def unknownBytes (l : List UnknownBlock) : Int := (l.map fun e => (e.block.length : Int)).sum

/-- The fields that badness leaves alone, but for the deques. -/
structure Core where
  drainingSet : Finset H256
  future : List FutureBlock
  knownSize : Int
  knownCount : Int
  difficulty : U256
  drainingDifficulty : U256
  working : List UnverifiedBlock
  todo : List Bytes
  draining : List VerifiedBlock
  entered : List UnverifiedBlock
  drained : List UnverifiedBlock

/-- These fields of a queue. -/
def core (q : BlockQueue) : Core :=
  ⟨q.m_drainingSet, q.m_future, q.m_knownSize, q.m_knownCount, q.m_difficulty, q.m_drainingDifficulty, q.working, q.todo,
    q.draining, q.entered, q.drained⟩

/-- The hashes the queue has heard of, but for those it is draining. -/
def settled (q : BlockQueue) : Finset H256 := q.m_readySet ∪ q.m_unknownSet ∪ q.m_knownBad

/-- Settled hashes are those that are ready, unknown or bad. -/
theorem mem_settled {q : BlockQueue} {h : H256} :
    h ∈ q.settled ↔ h ∈ q.m_readySet ∨ h ∈ q.m_unknownSet ∨ h ∈ q.m_knownBad := by
  rw [settled, Finset.mem_union, Finset.mem_union, or_assoc]

/-- Bad blocks have left the deques and `m_unknown`. -/
structure Purged (q q' : BlockQueue) : Prop where
  core : q'.core = q.core
  unknown : q'.m_unknown.Sublist q.m_unknown
  verified : q'.m_verified.Sublist q.m_verified
  verifying : q'.m_verifying.Sublist q.m_verifying
  unverified : q'.m_unverified.Sublist q.m_unverified
  bad : q.m_knownBad ⊆ q'.m_knownBad
  badKnown : q.badKnown = true → q'.badKnown = true
  badUnknown : q.badUnknown = true → q'.badUnknown = true
  same : q'.badKnown = false → q'.m_verified = q.m_verified ∧ q'.m_verifying = q.m_verifying ∧ q'.m_unverified = q.m_unverified
  sameUnknown : q'.badUnknown = false → q'.m_unknown = q.m_unknown
  count : q'.m_unknownCount - q'.m_unknown.length = q.m_unknownCount - q.m_unknown.length
  size : q'.m_unknownSize - unknownBytes q'.m_unknown = q.m_unknownSize - unknownBytes q.m_unknown
  settled : q.settled ⊆ q'.settled
  goneVerified : ∀ v ∈ q.m_verified, v ∈ q'.m_verified ∨ v.info.hash ∈ q'.m_knownBad
  goneVerifying : ∀ v ∈ q.m_verifying, v ∈ q'.m_verifying ∨ verifyingHash v ∈ q'.m_knownBad
  goneUnverified : ∀ w ∈ q.m_unverified, w ∈ q'.m_unverified ∨ w.hash ∈ q'.m_knownBad

theorem Purged.refl (q : BlockQueue) : Purged q q :=
  ⟨rfl, List.Sublist.refl _, List.Sublist.refl _, List.Sublist.refl _, List.Sublist.refl _, Finset.Subset.refl _, id, id,
    fun _ => ⟨rfl, rfl, rfl⟩, fun _ => rfl, rfl, rfl, Finset.Subset.refl _, fun _ => .inl, fun _ => .inl, fun _ => .inl⟩

/-- If no block in the deques is bad after a purge, none was before. -/
theorem Purged.badKnown_eq_false {q q' : BlockQueue} (h : Purged q q') (hb : q'.badKnown = false) : q.badKnown = false :=
  Bool.eq_false_iff.mpr fun hq => Bool.eq_false_iff.mp hb (h.badKnown hq)

/-- If no unknown block is bad after a purge, none was before. -/
theorem Purged.badUnknown_eq_false {q q' : BlockQueue} (h : Purged q q') (hb : q'.badUnknown = false) : q.badUnknown = false :=
  Bool.eq_false_iff.mpr fun hq => Bool.eq_false_iff.mp hb (h.badUnknown hq)

/-- What is purged twice is purged. -/
theorem Purged.trans {q₁ q₂ q₃ : BlockQueue} (h : Purged q₁ q₂) (h' : Purged q₂ q₃) : Purged q₁ q₃ := by
  refine ⟨h'.core.trans h.core, h'.unknown.trans h.unknown, h'.verified.trans h.verified, h'.verifying.trans h.verifying,
    h'.unverified.trans h.unverified, h.bad.trans h'.bad, fun hb => h'.badKnown (h.badKnown hb),
    fun hb => h'.badUnknown (h.badUnknown hb), ?_, ?_, h'.count.trans h.count, h'.size.trans h.size,
    h.settled.trans h'.settled, ?_, ?_, ?_⟩
  · intro hb
    obtain ⟨h1, h2, h3⟩ := h'.same hb
    obtain ⟨h1', h2', h3'⟩ := h.same (h'.badKnown_eq_false hb)
    exact ⟨h1.trans h1', h2.trans h2', h3.trans h3'⟩
  · intro hb
    exact (h'.sameUnknown hb).trans (h.sameUnknown (h'.badUnknown_eq_false hb))
  · exact fun v hv => (h.goneVerified v hv).elim (h'.goneVerified v) fun hb => .inr (h'.bad hb)
  · exact fun v hv => (h.goneVerifying v hv).elim (h'.goneVerifying v) fun hb => .inr (h'.bad hb)
  · exact fun w hw => (h.goneUnverified w hw).elim (h'.goneUnverified w) fun hb => .inr (h'.bad hb)

/-- The deques are the same. -/
structure SameDeques (q q' : BlockQueue) : Prop where
  verified : q'.m_verified = q.m_verified
  verifying : q'.m_verifying = q.m_verifying
  unverified : q'.m_unverified = q.m_unverified

/-- The same deques are the same after two steps. -/
theorem SameDeques.trans {q₁ q₂ q₃ : BlockQueue} (h : SameDeques q₁ q₂) (h' : SameDeques q₂ q₃) : SameDeques q₁ q₃ :=
  ⟨h'.verified.trans h.verified, h'.verifying.trans h.verifying, h'.unverified.trans h.unverified⟩

/-- What the loop over a range of `m_unknown` does. -/
theorem foldl_unknownIsBad (r : List UnknownBlock) (q : BlockQueue) :
    r.foldl unknownIsBad q = { q with
      m_unknownSize := q.m_unknownSize - unknownBytes r
      m_unknownCount := q.m_unknownCount - r.length
      m_unknownSet := q.m_unknownSet \ (r.map UnknownBlock.hash).toFinset
      m_knownBad := q.m_knownBad ∪ (r.map UnknownBlock.hash).toFinset
      badUnknown := q.badUnknown || !r.isEmpty } := by
  induction r generalizing q with
  | nil => simp [unknownBytes]
  | cons e r ih =>
    rw [List.foldl_cons, ih]
    simp only [unknownIsBad, unknownBytes, List.map_cons, List.sum_cons, List.length_cons, List.toFinset_cons,
      List.isEmpty_cons, Bool.not_false, Bool.or_true, Bool.true_or]
    congr 1
    · ext h
      simp only [Finset.mem_sdiff, Finset.mem_erase, Finset.mem_insert, not_or]
      tauto
    · ext h
      simp only [Finset.mem_union, Finset.mem_insert]
      tauto
    · omega
    · push_cast
      omega

/-- The bytes of two lists add up. -/
theorem unknownBytes_append (l l' : List UnknownBlock) : unknownBytes (l ++ l') = unknownBytes l + unknownBytes l' := by
  simp [unknownBytes]

/-- The order makes no difference to the bytes. -/
theorem unknownBytes_perm {l l' : List UnknownBlock} (h : l.Perm l') : unknownBytes l = unknownBytes l' :=
  (h.map _).sum_eq

/-- A range and the entries that are not in it. -/
theorem equalRange_perm (q : BlockQueue) (h : H256) : (q.equalRange L h ++ (q.eraseRange h).m_unknown).Perm q.m_unknown := by
  refine ((L.order_perm _).append_right _).trans ?_
  have hperm := List.filter_append_perm (fun e : UnknownBlock => e.parentHash = h) q.m_unknown
  simpa [eraseRange] using hperm

/-- One turn of the loop of `collectUnknownBad_WITH_BOTH_LOCKS`. -/
theorem purged_turn (h : H256) (q : BlockQueue) : Purged q (eraseRange ((q.equalRange L h).foldl unknownIsBad q) h) := by
  have hperm := equalRange_perm (L := L) q h
  have hlen := hperm.length_eq
  have hbytes := unknownBytes_perm hperm
  rw [unknownBytes_append] at hbytes
  rw [List.length_append] at hlen
  rw [foldl_unknownIsBad]
  refine ⟨rfl, List.filter_sublist, List.Sublist.refl _, List.Sublist.refl _, List.Sublist.refl _, Finset.subset_union_left, id,
    fun hb => ?_, fun _ => ⟨rfl, rfl, rfl⟩, fun hb => ?_, ?_, ?_, ?_, fun _ => .inl, fun _ => .inl, fun _ => .inl⟩
  · simp [eraseRange, hb]
  · have hnil : q.equalRange L h = [] := by
      simp only [eraseRange, Bool.or_eq_false_iff, Bool.not_eq_false', List.isEmpty_iff] at hb
      exact hb.2
    rw [hnil, List.length_nil, Nat.zero_add] at hlen
    exact List.filter_sublist.eq_of_length hlen
  · simp only [eraseRange] at hlen ⊢
    omega
  · simp only [eraseRange] at hbytes ⊢
    omega
  · intro h'
    simp only [mem_settled, eraseRange, Finset.mem_sdiff, Finset.mem_union]
    tauto

/-- To collect the unknown blocks on bad ones is a purge. -/
theorem purged_collectBadTurns (turns : Nat) (l : List H256) (q : BlockQueue) : Purged q (collectBadTurns L turns l q) := by
  induction turns generalizing l q with
  | zero => exact Purged.refl q
  | succ turns ih =>
    cases l with
    | nil => exact Purged.refl q
    | cons h l => exact (purged_turn h q).trans (ih _ _)

theorem purged_collect (h : H256) (q : BlockQueue) : Purged q (collectUnknownBad_WITH_BOTH_LOCKS L h q) :=
  purged_collectBadTurns _ _ q

/-- To collect unknown blocks leaves the deques alone. -/
theorem sameDeques_collectBadTurns (turns : Nat) (l : List H256) (q : BlockQueue) :
    SameDeques q (collectBadTurns L turns l q) := by
  induction turns generalizing l q with
  | zero => exact ⟨rfl, rfl, rfl⟩
  | succ turns ih =>
    cases l with
    | nil => exact ⟨rfl, rfl, rfl⟩
    | cons h l =>
      have hturn : SameDeques q (eraseRange ((q.equalRange L h).foldl unknownIsBad q) h) := by
        rw [foldl_unknownIsBad]
        exact ⟨rfl, rfl, rfl⟩
      exact hturn.trans (ih _ _)

/-- A sweep leaves the other deques alone. -/
theorem sameDeques_sweep {α : Type} (parent own hash : α → H256) (old : List α) (q : BlockQueue) :
    SameDeques q (sweep L parent own hash old q).2.2 := by
  induction old generalizing q with
  | nil => exact ⟨rfl, rfl, rfl⟩
  | cons b old ih =>
    rw [sweep]
    split
    · have hmark : SameDeques q (q.markBad (hash b)) := ⟨rfl, rfl, rfl⟩
      exact (hmark.trans (sameDeques_collectBadTurns _ _ _)).trans (ih _)
    · exact ih q

/-- A hash that is settled stays so when another is found bad. -/
theorem settled_markBad (h : H256) (q : BlockQueue) : q.settled ⊆ (q.markBad h).settled := by
  intro h'
  simp only [mem_settled, markBad, Finset.mem_erase, Finset.mem_insert]
  tauto

theorem purged_markBad (h : H256) (q : BlockQueue) : Purged q (q.markBad h) :=
  ⟨rfl, List.Sublist.refl _, List.Sublist.refl _, List.Sublist.refl _, List.Sublist.refl _, Finset.subset_insert _ _,
    fun _ => rfl, id, fun _ => ⟨rfl, rfl, rfl⟩, fun _ => rfl, rfl, rfl, settled_markBad h q, fun _ => .inl, fun _ => .inl,
    fun _ => .inl⟩

/-- A sweep leaves out blocks, and if it leaves out none, it has found none bad and changed nothing. -/
theorem sweep_spec {α : Type} (parent own hash : α → H256) (old : List α) (q : BlockQueue) :
    Purged q (sweep L parent own hash old q).2.2 ∧ (sweep L parent own hash old q).1.Sublist old ∧
      (∀ b ∈ old, b ∈ (sweep L parent own hash old q).1 ∨ hash b ∈ (sweep L parent own hash old q).2.2.m_knownBad) ∧
      ((sweep L parent own hash old q).2.1 = true → (sweep L parent own hash old q).1.length < old.length ∧
        (sweep L parent own hash old q).2.2.badKnown = true) ∧
      ((sweep L parent own hash old q).2.1 = false → sweep L parent own hash old q = (old, false, q) ∧
        ∀ b ∈ old, parent b ∉ q.m_knownBad ∧ own b ∉ q.m_knownBad) := by
  induction old generalizing q with
  | nil => exact ⟨Purged.refl q, List.Sublist.refl _, nofun, nofun, fun _ => ⟨rfl, fun b hb => absurd hb List.not_mem_nil⟩⟩
  | cons b old ih =>
    rw [sweep]
    by_cases hb : parent b ∈ q.m_knownBad ∨ own b ∈ q.m_knownBad
    · simp only [if_pos hb]
      obtain ⟨h1, h2, hgone, h3, h4⟩ := ih (collectUnknownBad_WITH_BOTH_LOCKS L (hash b) (q.markBad (hash b)))
      have hcollect := purged_collect (L := L) (hash b) (q.markBad (hash b))
      have hfirst := (purged_markBad (hash b) q).trans hcollect
      refine ⟨hfirst.trans h1, h2.cons b, ?_, fun _ => ⟨?_, ?_⟩, nofun⟩
      · intro b' hb'
        rcases List.mem_cons.mp hb' with rfl | hb'
        · exact .inr (h1.bad (hcollect.bad (Finset.mem_insert_self _ _)))
        · exact hgone b' hb'
      · exact Nat.lt_succ_of_le h2.length_le
      · exact h1.badKnown (hcollect.badKnown rfl)
    · simp only [if_neg hb]
      obtain ⟨h1, h2, hgone, h3, h4⟩ := ih q
      refine ⟨h1, h2.cons_cons b, ?_, fun hm => ⟨Nat.succ_lt_succ (h3 hm).1, (h3 hm).2⟩, ?_⟩
      · intro b' hb'
        rcases List.mem_cons.mp hb' with rfl | hb'
        · exact .inl List.mem_cons_self
        · exact (hgone b' hb').imp (List.mem_cons_of_mem _) id
      intro hm
      obtain ⟨heq, hgood⟩ := h4 hm
      refine ⟨by rw [heq], ?_⟩
      intro b' hb'
      rcases List.mem_cons.mp hb' with rfl | hb'
      · exact not_or.mp hb
      · exact hgood b' hb'

/-- No block of the deques is bad, as far as `updateBad_WITH_LOCK` looks. -/
structure NoBad (q : BlockQueue) : Prop where
  verified : ∀ v ∈ q.m_verified, v.info.parentHash ∉ q.m_knownBad ∧ v.info.hash ∉ q.m_knownBad
  unverified : ∀ w ∈ q.m_unverified, w.parentHash ∉ q.m_knownBad ∧ w.hash ∉ q.m_knownBad
  verifying : ∀ v ∈ q.m_verifying, v.info.parentHash ∉ q.m_knownBad ∧ v.info.sha3Uncles ∉ q.m_knownBad

/-- How many blocks the deques hold. -/
def dequeLength (q : BlockQueue) : Nat := q.m_verified.length + q.m_unverified.length + q.m_verifying.length

/-- What a sweep finds: bad blocks, which it leaves out, or nothing. -/
theorem sweep_cases {α : Type} (parent own hash : α → H256) (old : List α) (q : BlockQueue) :
    (∃ kept q', sweep L parent own hash old q = (kept, true, q') ∧ kept.Sublist old ∧ kept.length < old.length ∧ Purged q q' ∧
      SameDeques q q' ∧ q'.badKnown = true ∧ ∀ b ∈ old, b ∈ kept ∨ hash b ∈ q'.m_knownBad) ∨
    (sweep L parent own hash old q = (old, false, q) ∧ ∀ b ∈ old, parent b ∉ q.m_knownBad ∧ own b ∉ q.m_knownBad) := by
  obtain ⟨h1, h2, hgone, h3, h4⟩ := sweep_spec (L := L) parent own hash old q
  have hsame := sameDeques_sweep (L := L) parent own hash old q
  cases hm : (sweep L parent own hash old q).2.1 with
  | true => exact .inl ⟨_, _, by rw [← hm], h2, (h3 hm).1, h1, hsame, (h3 hm).2, hgone⟩
  | false => exact .inr (h4 hm)

/-- What a stage of a turn does: blocks leave, or nothing changes and the condition `good` holds. -/
structure Stage (found : Bool) (q q' : BlockQueue) (good : Prop) : Prop where
  purged : Purged q q'
  shorter : found = true → q'.dequeLength < q.dequeLength
  unchanged : found = false → q' = q ∧ good

/-- After the sweep nothing verified is bad or on something bad. -/
theorem stage_verified (q : BlockQueue) :
    Stage (q.sweepVerified L).1 q (q.sweepVerified L).2
      (∀ v ∈ q.m_verified, v.info.parentHash ∉ q.m_knownBad ∧ v.info.hash ∉ q.m_knownBad) := by
  rcases sweep_cases (L := L) (fun b : VerifiedBlock => b.info.parentHash) (fun b => b.info.hash) (fun b => b.info.hash)
    q.m_verified q with ⟨kept, q', heq, hsub, hlen, h, hd, hb, hgone⟩ | ⟨heq, hgood⟩
  · rw [sweepVerified, heq]
    refine ⟨⟨h.core, h.unknown, hsub, h.verifying, h.unverified, h.bad, h.badKnown, h.badUnknown, ?_, h.sameUnknown, h.count,
      h.size, h.settled, hgone, h.goneVerifying, h.goneUnverified⟩, fun _ => ?_, nofun⟩
    · exact fun hf => absurd hb (Bool.eq_false_iff.mp hf)
    · simp only [dequeLength, hd.unverified, hd.verifying]
      omega
  · rw [sweepVerified, heq]
    exact ⟨Purged.refl q, nofun, fun _ => ⟨rfl, hgood⟩⟩

/-- After the sweep nothing unverified is. -/
theorem stage_unverified (q : BlockQueue) :
    Stage (q.sweepUnverified L).1 q (q.sweepUnverified L).2
      (∀ w ∈ q.m_unverified, w.parentHash ∉ q.m_knownBad ∧ w.hash ∉ q.m_knownBad) := by
  rcases sweep_cases (L := L) (fun b : UnverifiedBlock => b.parentHash) (fun b => b.hash) (fun b => b.hash)
    q.m_unverified q with ⟨kept, q', heq, hsub, hlen, h, hd, hb, hgone⟩ | ⟨heq, hgood⟩
  · rw [sweepUnverified, heq]
    refine ⟨⟨h.core, h.unknown, h.verified, h.verifying, hsub, h.bad, h.badKnown, h.badUnknown, ?_, h.sameUnknown, h.count,
      h.size, h.settled, h.goneVerified, h.goneVerifying, hgone⟩, fun _ => ?_, nofun⟩
    · exact fun hf => absurd hb (Bool.eq_false_iff.mp hf)
    · simp only [dequeLength, hd.verified, hd.verifying]
      omega
  · rw [sweepUnverified, heq]
    exact ⟨Purged.refl q, nofun, fun _ => ⟨rfl, hgood⟩⟩

/-- After the sweep nothing that waits is. -/
theorem stage_verifying (q : BlockQueue) :
    Stage (q.sweepVerifying L).1 q (q.sweepVerifying L).2
      (∀ v ∈ q.m_verifying, v.info.parentHash ∉ q.m_knownBad ∧ v.info.sha3Uncles ∉ q.m_knownBad) := by
  rcases sweep_cases (L := L) (fun b : VerifiedBlock => b.info.parentHash) (fun b => b.info.sha3Uncles) verifyingHash
    q.m_verifying q with ⟨kept, q', heq, hsub, hlen, h, hd, hb, hgone⟩ | ⟨heq, hgood⟩
  · rw [sweepVerifying, heq]
    refine ⟨⟨h.core, h.unknown, h.verified, hsub, h.unverified, h.bad, h.badKnown, h.badUnknown, ?_, h.sameUnknown, h.count,
      h.size, h.settled, h.goneVerified, hgone, h.goneUnverified⟩, fun _ => ?_, nofun⟩
    · exact fun hf => absurd hb (Bool.eq_false_iff.mp hf)
    · simp only [dequeLength, hd.verified, hd.unverified]
      omega
  · rw [sweepVerifying, heq]
    exact ⟨Purged.refl q, nofun, fun _ => ⟨rfl, hgood⟩⟩

/-- No stage makes the deques longer. -/
theorem Stage.length_le {found : Bool} {q q' : BlockQueue} {good : Prop} (h : Stage found q q' good) :
    q'.dequeLength ≤ q.dequeLength := by
  cases found with
  | true => exact Nat.le_of_lt (h.shorter rfl)
  | false => rw [(h.unchanged rfl).1]

/-- One turn of the loop of `updateBad_WITH_LOCK`. -/
theorem stage_updateBadTurn (q : BlockQueue) : Stage (q.updateBadTurn L).1 q (q.updateBadTurn L).2 (NoBad q) := by
  simp only [updateBadTurn]
  have h₁ := stage_verified (L := L) q
  generalize q.sweepVerified L = r₁ at h₁ ⊢
  obtain ⟨m₁, q₁⟩ := r₁
  have h₂ := stage_unverified (L := L) q₁
  simp only at h₁ ⊢
  generalize q₁.sweepUnverified L = r₂ at h₂ ⊢
  obtain ⟨m₂, q₂⟩ := r₂
  have h₃ := stage_verifying (L := L) q₂
  simp only at h₂ h₃ ⊢
  refine ⟨(h₁.purged.trans h₂.purged).trans h₃.purged, ?_, ?_⟩
  · intro hm
    have := h₁.length_le
    have := h₂.length_le
    have := h₃.length_le
    rcases Bool.or_eq_true_iff.mp hm with hm | hm
    · rcases Bool.or_eq_true_iff.mp hm with hm | hm
      · have := h₁.shorter hm
        omega
      · have := h₂.shorter hm
        omega
    · have := h₃.shorter hm
      omega
  · intro hm
    obtain ⟨hm, hm₃⟩ := Bool.or_eq_false_iff.mp hm
    obtain ⟨hm₁, hm₂⟩ := Bool.or_eq_false_iff.mp hm
    obtain ⟨e₁, g₁⟩ := h₁.unchanged hm₁
    obtain ⟨e₂, g₂⟩ := h₂.unchanged hm₂
    obtain ⟨e₃, g₃⟩ := h₃.unchanged hm₃
    subst e₁
    subst e₂
    exact ⟨e₃, g₁, g₂, g₃⟩

/-- If a block has left as bad since, there are fewer blocks. -/
def Fewer (q q' : BlockQueue) : Prop :=
  q'.dequeLength ≤ q.dequeLength ∧ (q'.badKnown = true → q.badKnown = true ∨ q'.dequeLength < q.dequeLength)

/-- Fewer blocks twice are fewer. -/
theorem Fewer.trans {q₁ q₂ q₃ : BlockQueue} (h : Fewer q₁ q₂) (h' : Fewer q₂ q₃) : Fewer q₁ q₃ := by
  refine ⟨h'.1.trans h.1, fun hb => ?_⟩
  rcases h'.2 hb with hb | hlt
  · rcases h.2 hb with hb | hlt
    · exact .inl hb
    · exact .inr (Nat.lt_of_le_of_lt h'.1 hlt)
  · exact .inr (Nat.lt_of_lt_of_le hlt h.1)

/-- A stage leaves fewer blocks. -/
theorem Stage.fewer {found : Bool} {q q' : BlockQueue} {good : Prop} (h : Stage found q q' good) : Fewer q q' := by
  refine ⟨h.length_le, fun hb => ?_⟩
  cases found with
  | true => exact .inr (h.shorter rfl)
  | false => exact .inl ((h.unchanged rfl).1 ▸ hb)

/-- So do all turns. -/
theorem updateBadTurns_fewer (turns : Nat) (q : BlockQueue) : Fewer q (updateBadTurns L turns q) := by
  induction turns generalizing q with
  | zero => exact ⟨Nat.le_refl _, .inl⟩
  | succ turns ih =>
    have h := (stage_updateBadTurn (L := L) q).fewer
    simp only [updateBadTurns]
    split
    · exact h.trans (ih _)
    · exact h

/-- What is unknown is not in the deques. -/
theorem badKnown_collectBadTurns (turns : Nat) (l : List H256) (q : BlockQueue) :
    (collectBadTurns L turns l q).badKnown = q.badKnown := by
  induction turns generalizing l q with
  | zero => rfl
  | succ turns ih =>
    cases l with
    | nil => rfl
    | cons h l =>
      rw [collectBadTurns, ih, foldl_unknownIsBad]
      rfl

/-- With enough turns nothing bad is left. -/
theorem updateBadTurns_spec (turns : Nat) (q : BlockQueue) (hturns : q.dequeLength < turns) :
    Purged q (updateBadTurns L turns q) ∧ NoBad (updateBadTurns L turns q) := by
  induction turns generalizing q with
  | zero => exact absurd hturns (Nat.not_lt_zero _)
  | succ turns ih =>
    have h := stage_updateBadTurn (L := L) q
    simp only [updateBadTurns]
    cases hm : (q.updateBadTurn L).1 with
    | true =>
      have hlt := h.shorter hm
      obtain ⟨h1, h2⟩ := ih (q.updateBadTurn L).2 (by omega)
      exact ⟨h.purged.trans h1, h2⟩
    | false =>
      obtain ⟨heq, hgood⟩ := h.unchanged hm
      refine ⟨h.purged, ?_⟩
      simp only [Bool.false_eq_true, if_false]
      rw [heq]
      exact hgood

/-- `updateBad_WITH_LOCK` lets bad blocks leave until there are none. -/
theorem updateBad_spec (q : BlockQueue) (h : H256) :
    Purged q (updateBad_WITH_LOCK L q h) ∧ NoBad (updateBad_WITH_LOCK L q h) := by
  have hc := purged_collect (L := L) h q
  have hd := sameDeques_collectBadTurns (L := L) (q.m_unknown.length + 1) [h] q
  have hlen : (collectUnknownBad_WITH_BOTH_LOCKS L h q).dequeLength = q.dequeLength := by
    rw [dequeLength, collectUnknownBad_WITH_BOTH_LOCKS, hd.verified, hd.unverified, hd.verifying]
    rfl
  obtain ⟨h1, h2⟩ := updateBadTurns_spec (L := L) (q.dequeLength + 1) (collectUnknownBad_WITH_BOTH_LOCKS L h q)
    (hlen ▸ Nat.lt_succ_self _)
  exact ⟨hc.trans h1, h2⟩

/-- A purge leaves fewer blocks. -/
theorem updateBad_fewer (q : BlockQueue) (h : H256) : Fewer q (updateBad_WITH_LOCK L q h) := by
  have hd := sameDeques_collectBadTurns (L := L) (q.m_unknown.length + 1) [h] q
  have hc : Fewer q (collectUnknownBad_WITH_BOTH_LOCKS L h q) := by
    refine ⟨?_, fun hb => .inl ?_⟩
    · rw [dequeLength, collectUnknownBad_WITH_BOTH_LOCKS, hd.verified, hd.unverified, hd.verifying]
      exact Nat.le_refl _
    · rw [collectUnknownBad_WITH_BOTH_LOCKS, badKnown_collectBadTurns] at hb
      exact hb
  exact hc.trans (updateBadTurns_fewer _ _)

/-! ## Readiness -/

/-- What the loop over a range of `m_unknown` does when its blocks become ready. -/
theorem foldl_unknownIsReady (r : List UnknownBlock) (q : BlockQueue) :
    r.foldl unknownIsReady q = { q with
      m_unverified := q.m_unverified ++ r.map UnknownBlock.job
      entered := q.entered ++ r.map UnknownBlock.job
      m_knownSize := q.m_knownSize + unknownBytes r
      m_knownCount := q.m_knownCount + r.length
      m_unknownSize := q.m_unknownSize - unknownBytes r
      m_unknownCount := q.m_unknownCount - r.length
      m_unknownSet := q.m_unknownSet \ (r.map UnknownBlock.hash).toFinset
      m_readySet := q.m_readySet ∪ (r.map UnknownBlock.hash).toFinset } := by
  induction r generalizing q with
  | nil => simp [unknownBytes]
  | cons e r ih =>
    rw [List.foldl_cons, ih]
    simp only [unknownIsReady, pushUnverified, unknownBytes, List.map_cons, List.sum_cons, List.length_cons, List.toFinset_cons,
      List.append_assoc, List.cons_append, List.nil_append]
    congr 1
    · ext h
      simp only [Finset.mem_union, Finset.mem_insert]
      tauto
    · ext h
      simp only [Finset.mem_sdiff, Finset.mem_erase, Finset.mem_insert, not_or]
      tauto
    · omega
    · omega
    · push_cast
      omega
    · push_cast
      omega

/-- One turn of the loop of `noteReady_WITH_LOCK`. -/
def readyTurn (L : Library) (q : BlockQueue) (h : H256) : BlockQueue :=
  eraseRange ((q.equalRange L h).foldl unknownIsReady q) h

/-- What every turn keeps, `noteReady_WITH_LOCK` keeps. A turn is about a hash in `m_readySet`. -/
theorem noteReady_induct {I : BlockQueue → Prop} (hturn : ∀ q h, I q → h ∈ q.m_readySet → I (readyTurn L q h)) {q : BlockQueue}
    {h : H256} (hq : I q) (hh : h ∈ q.m_readySet) : I (noteReady_WITH_LOCK L h q) := by
  have hturns : ∀ turns l (q : BlockQueue), I q → (∀ h ∈ l, h ∈ q.m_readySet) → I (noteReadyTurns L turns l q) := by
    intro turns
    induction turns with
    | zero => exact fun l q hq _ => hq
    | succ turns ih =>
      intro l q hq hl
      cases l with
      | nil => exact hq
      | cons h l =>
        refine ih _ _ (hturn q h hq (hl h List.mem_cons_self)) ?_
        intro h' hh'
        have hready : (readyTurn L q h).m_readySet = q.m_readySet ∪ ((q.equalRange L h).map UnknownBlock.hash).toFinset := by
          rw [readyTurn, foldl_unknownIsReady]
          rfl
        change h' ∈ (readyTurn L q h).m_readySet
        rw [hready, Finset.mem_union]
        rcases List.mem_append.mp hh' with hh' | hh'
        · exact .inl (hl h' (List.mem_cons_of_mem _ hh'))
        · exact .inr (List.mem_toFinset.mpr hh')
  exact hturns _ _ q hq fun h' hh' => List.mem_singleton.mp hh' ▸ hh

/-- What the loop of `retryAllUnknown` does. -/
theorem foldl_retryUnknown (r : List UnknownBlock) (q : BlockQueue) :
    r.foldl retryUnknown q = { q with
      m_unverified := q.m_unverified ++ r.map UnknownBlock.job
      entered := q.entered ++ r.map UnknownBlock.job
      m_knownCount := q.m_knownCount + r.length
      m_unknownSet := q.m_unknownSet \ (r.map UnknownBlock.hash).toFinset
      m_readySet := q.m_readySet ∪ (r.map UnknownBlock.hash).toFinset } := by
  induction r generalizing q with
  | nil => simp
  | cons e r ih =>
    rw [List.foldl_cons, ih]
    simp only [retryUnknown, pushUnverified, List.map_cons, List.length_cons, List.toFinset_cons, List.append_assoc,
      List.cons_append, List.nil_append]
    congr 1
    · ext h
      simp only [Finset.mem_union, Finset.mem_insert]
      tauto
    · ext h
      simp only [Finset.mem_sdiff, Finset.mem_erase, Finset.mem_insert, not_or]
      tauto
    · push_cast
      omega

/-! ## Verification -/

/-- The next block of `m_verifying` is bad. -/
def popBad (q : BlockQueue) (b : VerifiedBlock) (l : List VerifiedBlock) : BlockQueue :=
  { q.markBad b.info.hash with m_verifying := l }

/-- The next block of `m_verifying` is good. -/
def popGood (q : BlockQueue) (b : VerifiedBlock) (l : List VerifiedBlock) : BlockQueue :=
  { q with m_verifying := l, m_verified := q.m_verified ++ [b] }

/-- What the two things that can happen to the next block of `m_verifying` keep, `drainVerified_WITH_BOTH_LOCKS` keeps. -/
theorem drainVerified_induct {I : BlockQueue → Prop}
    (hbad : ∀ q b l, I q → q.m_verifying = b :: l → b.blockData ≠ [] → b.info.parentHash ∈ q.m_knownBad → I (q.popBad b l))
    (hgood : ∀ q b l, I q → q.m_verifying = b :: l → b.blockData ≠ [] → b.info.parentHash ∉ q.m_knownBad → I (q.popGood b l))
    {q : BlockQueue} (hq : I q) : I q.drainVerified_WITH_BOTH_LOCKS := by
  have hloop : ∀ l (q : BlockQueue), I { q with m_verifying := l } → I (drainVerifiedLoop l q) := by
    intro l
    induction l with
    | nil => exact fun q hq => hq
    | cons b l ih =>
      intro q hq
      rw [drainVerifiedLoop]
      split
      · exact hq
      · split
        · exact ih _ (hbad { q with m_verifying := b :: l } b l hq rfl ‹_› ‹_›)
        · exact ih _ (hgood { q with m_verifying := b :: l } b l hq rfl ‹_› ‹_›)
  exact hloop q.m_verifying q hq

/-- The loop does not read the deque it empties. -/
theorem drainVerifiedLoop_with_verifying (l l' : List VerifiedBlock) (q : BlockQueue) :
    drainVerifiedLoop l { q with m_verifying := l' } = drainVerifiedLoop l q := by
  induction l generalizing q with
  | nil => rfl
  | cons b l ih =>
    rw [drainVerifiedLoop, drainVerifiedLoop]
    split
    · rfl
    · split
      · exact ih (q.markBad b.info.hash)
      · exact ih { q with m_verified := q.m_verified ++ [b] }

/-- The verified block takes the place of its placeholder. -/
def fill (work : UnverifiedBlock) (info : QueuedHeader) (q : BlockQueue) : BlockQueue :=
  { q with m_verifying :=
    replaceFirst (fun b => b.info.sha3Uncles = work.hash) ⟨info, work.block, work⟩ q.m_verifying }

/-- A good report puts the block in its place, and moves on what can move on if it is the next one. -/
theorem reportSuccess_eq {work : UnverifiedBlock} {q : BlockQueue} (info : QueuedHeader) (hwork : work.block ≠ []) :
    q.reportSuccess work info = q.fill work info ∨
      q.reportSuccess work info = (q.fill work info).drainVerified_WITH_BOTH_LOCKS := by
  rw [reportSuccess, fill]
  cases hv : q.m_verifying with
  | nil =>
    refine .inl ?_
    cases q
    cases hv
    rfl
  | cons b l =>
    simp only
    by_cases hb : b.info.sha3Uncles = work.hash
    · refine .inr ?_
      rw [if_pos hb, replaceFirst, if_pos (decide_eq_true hb), drainVerified_WITH_BOTH_LOCKS, drainVerified_WITH_BOTH_LOCKS,
        drainVerifiedLoop, if_neg hwork]
      by_cases hbad : info.parentHash ∈ q.m_knownBad
      · rw [if_pos hbad, if_pos hbad]
        exact (drainVerifiedLoop_with_verifying l l (q.markBad info.hash)).trans
          (drainVerifiedLoop_with_verifying l _ (q.markBad info.hash)).symm
      · rw [if_neg hbad, if_neg hbad]
        let q' : BlockQueue := { q with m_verified := q.m_verified ++ [⟨info, work.block, work⟩] }
        exact (drainVerifiedLoop_with_verifying l l q').trans (drainVerifiedLoop_with_verifying l _ q').symm
    · rw [if_neg hb]
      exact .inl rfl

end BlockQueue

end Webthree
