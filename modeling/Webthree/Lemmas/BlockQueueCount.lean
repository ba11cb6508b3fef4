import Mathlib.Data.BitVec
import Webthree.Lemmas.BlockQueue
import Mathlib.Algebra.Order.BigOperators.Group.List

/-!
# The counters of the block queue

What an import and the report of a verifier come down to, and that every block in the queue stays one that `verifyBlock` has read.

`m_unknownCount` and `m_unknownSize` against `m_unknown` and `m_future`, `m_knownCount` and `m_knownSize` against the deques.
-/

namespace Webthree

namespace BlockQueue

variable {L : Library}

/-! ## Imports -/

/-- The queue does not know the hash, so that a block with it can be imported. -/
structure Unheard (q : BlockQueue) (h : H256) : Prop where
  ready : h ∉ q.m_readySet
  draining : h ∉ q.m_drainingSet
  unknown : h ∉ q.m_unknownSet
  bad : h ∉ q.m_knownBad

/-- The block is put into `m_future`. -/
def enterFuture (q : BlockQueue) (bi : QueuedHeader) (b : Bytes) : BlockQueue :=
  { q with
    m_future := insertFuture ⟨bi.timestamp.toNat % 2 ^ 32, bi.hash, b⟩ q.m_future
    m_unknownSize := q.m_unknownSize + b.length
    m_unknownCount := q.m_unknownCount + 1
    m_difficulty := q.m_difficulty + bi.difficulty }

/-- The block has a bad parent. -/
def enterBad (q : BlockQueue) (h : H256) : BlockQueue := { q with m_knownBad := insert h q.m_knownBad }

/-- The block is put into `m_unknown`. -/
def enterUnknown (q : BlockQueue) (bi : QueuedHeader) (b : Bytes) : BlockQueue :=
  { q with
    m_unknown := q.m_unknown ++ [⟨bi.parentHash, bi.hash, b⟩]
    m_unknownSet := insert bi.hash q.m_unknownSet
    m_unknownSize := q.m_unknownSize + b.length
    m_difficulty := q.m_difficulty + bi.difficulty
    m_unknownCount := q.m_unknownCount + 1 }

/-- The block is put into `m_unverified`. -/
def enterReady (q : BlockQueue) (bi : QueuedHeader) (b : Bytes) (parentInChain : Bool) : BlockQueue :=
  { q with
    m_unverified := q.m_unverified ++ [⟨bi.hash, bi.parentHash, b, parentInChain⟩]
    entered := q.entered ++ [⟨bi.hash, bi.parentHash, b, parentInChain⟩]
    m_readySet := insert bi.hash q.m_readySet
    m_knownSize := q.m_knownSize + b.length
    m_difficulty := q.m_difficulty + bi.difficulty
    m_knownCount := q.m_knownCount + 1 }

/-- What an import that changes something does. -/
inductive Imported (L : Library) (q : BlockQueue) (bi : QueuedHeader) (b : Bytes) (parentInChain : Bool) : BlockQueue → Prop where
  | future : Imported L q bi b parentInChain (q.enterFuture bi b)
  | bad : bi.parentHash ∈ q.m_knownBad → Imported L q bi b parentInChain (updateBad_WITH_LOCK L (q.enterBad bi.hash) bi.hash)
  | unknown : bi.parentHash ∉ q.m_knownBad → bi.parentHash ∉ q.m_readySet → Imported L q bi b parentInChain (q.enterUnknown bi b)
  | ready : bi.parentHash ∉ q.m_knownBad →
    bi.parentHash ∈ q.m_readySet ∨ bi.parentHash ∈ q.m_drainingSet ∨ parentInChain = true →
    Imported L q bi b parentInChain (noteReady_WITH_LOCK L bi.hash (q.enterReady bi b parentInChain))

/-- An import changes nothing, or the block is new to the queue and goes one of four ways. -/
theorem import_cases (b : Bytes) (isOurs : Bool) (now : Nat) (inChain parentInChain : Bool) (q : BlockQueue) :
    (q.import L b isOurs now inChain parentInChain).2 = q ∨
      ∃ bi, L.verifyBlock b = some bi ∧ inChain = false ∧ q.Unheard bi.hash ∧
        Imported L q bi b parentInChain (q.import L b isOurs now inChain parentInChain).2 := by
  rw [«import»]
  split
  · exact .inl rfl
  · rename_i hnew
    cases hbi : L.verifyBlock b with
    | none => exact .inl rfl
    | some bi =>
      have hhash := L.hash_eq b bi hbi
      simp only [not_or] at hnew
      simp only [← hhash] at hnew ⊢
      split
      · exact .inl rfl
      · rename_i hchain
        refine .inr ⟨bi, rfl, Bool.eq_false_iff.mpr hchain, ⟨hnew.1, hnew.2.1, hnew.2.2.1, hnew.2.2.2⟩, ?_⟩
        split
        · exact .future
        · split
          · rename_i hbad
            exact .bad hbad
          · rename_i hbad
            split
            · rename_i hunknown
              exact .unknown hbad hunknown.1
            · rename_i hknown
              refine .ready hbad ?_
              rw [not_and_or, not_and_or, not_not, not_not, not_not] at hknown
              exact hknown

/-- `tick` takes the block at place `i` of what it has found. -/
def dropTodo (i : Nat) (q : BlockQueue) : BlockQueue := { q with todo := q.todo.eraseIdx i }

/-! ## Reports -/

/-- The block of a job leaves `m_verifying` because it is bad. -/
def failJob (work : UnverifiedBlock) (q : BlockQueue) : BlockQueue :=
  { q with
    m_readySet := q.m_readySet.erase work.hash
    m_knownBad := insert work.hash q.m_knownBad
    m_verifying := q.m_verifying.eraseP fun b => b.info.sha3Uncles = work.hash
    badKnown := q.badKnown || q.m_verifying.any fun b => b.info.sha3Uncles = work.hash }

/-- The verifier with the job at place `i` is no longer at work. -/
def dropJob (i : Nat) (q : BlockQueue) : BlockQueue := { q with working := q.working.eraseIdx i }

/-- What the report of a verifier does. -/
inductive Reported (L : Library) (q : BlockQueue) (work : UnverifiedBlock) (good : Bool) : BlockQueue → Prop where
  | failure : ¬(good = true ∧ ∃ info, L.verifyBlock work.block = some info) →
    Reported L q work good (q.failJob work).drainVerified_WITH_BOTH_LOCKS
  | filled (info : QueuedHeader) : good = true → L.verifyBlock work.block = some info →
    Reported L q work good (q.fill work info)
  | success (info : QueuedHeader) : good = true → L.verifyBlock work.block = some info →
    Reported L q work good (q.fill work info).drainVerified_WITH_BOTH_LOCKS

/-- A report does nothing, or it is one on a job that a verifier has. -/
theorem report_cases {q : BlockQueue} (hq : Shaped L q) (i : Nat) (good : Bool) :
    next L q (.report i good) = q ∨
      ∃ work, q.working[i]? = some work ∧ Reported L (q.dropJob i) work good (next L q (.report i good)) := by
  rw [next]
  cases hwork : q.working[i]? with
  | none => exact .inl rfl
  | some work =>
    refine .inr ⟨work, rfl, ?_⟩
    have hjob := hq.working work (List.mem_of_getElem? hwork)
    cases good with
    | false => exact .failure fun h => absurd h.1 Bool.false_ne_true
    | true =>
      cases hinfo : L.verifyBlock work.block with
      | none =>
        simp only [hinfo]
        refine .failure ?_
        rintro ⟨-, info, h⟩
        rw [hinfo] at h
        cases h
      | some info =>
        simp only [hinfo]
        change Reported L (q.dropJob i) work true (reportSuccess work info (q.dropJob i))
        rcases reportSuccess_eq (q := q.dropJob i) info hjob.block_ne_nil with h | h
        · rw [h]
          exact .filled info rfl hinfo
        · rw [h]
          exact .success info rfl hinfo

/-! ## Drains -/

/-- The bytes of verified blocks. -/
def verifiedBytes (l : List VerifiedBlock) : Int := (l.map fun b => (b.blockData.length : Int)).sum

/-- What the loop of `drain` does. -/
theorem foldl_drainOne (r : List VerifiedBlock) (q : BlockQueue) :
    r.foldl drainOne q = { q with
      m_drainingSet := q.m_drainingSet ∪ (r.map fun b => b.info.hash).toFinset
      m_drainingDifficulty := q.m_drainingDifficulty + (r.map fun b => b.info.difficulty).sum
      m_readySet := q.m_readySet \ (r.map fun b => b.info.hash).toFinset
      m_knownSize := q.m_knownSize - verifiedBytes r
      m_knownCount := q.m_knownCount - r.length
      draining := q.draining ++ r
      drained := q.drained ++ r.map VerifiedBlock.work } := by
  induction r generalizing q with
  | nil => simp [verifiedBytes]
  | cons b r ih =>
    rw [List.foldl_cons, ih]
    simp only [drainOne, verifiedBytes, List.map_cons, List.sum_cons, List.length_cons, List.toFinset_cons, List.append_assoc,
      List.cons_append, List.nil_append]
    congr 1
    · ext h
      simp only [Finset.mem_union, Finset.mem_insert]
      tauto
    · ext h
      simp only [Finset.mem_sdiff, Finset.mem_erase, Finset.mem_insert, not_or]
      tauto
    · omega
    · push_cast
      omega
    · exact (BitVec.add_assoc _ _ _)

/-! ## Shapes -/

/-- Blocks may leave. -/
theorem Shaped.of_subset {q q' : BlockQueue} (hq : Shaped L q) (hverified : q'.m_verified ⊆ q.m_verified)
    (hverifying : q'.m_verifying ⊆ q.m_verifying) (hunverified : q'.m_unverified ⊆ q.m_unverified)
    (hworking : q'.working ⊆ q.working) (hunknown : q'.m_unknown ⊆ q.m_unknown) (hdraining : q'.draining ⊆ q.draining) :
    Shaped L q' :=
  ⟨fun v hv => hq.verified v (hverified hv), fun v hv => hq.verifying v (hverifying hv),
    fun w hw => hq.unverified w (hunverified hw), fun w hw => hq.working w (hworking hw),
    fun e he => hq.unknown e (hunknown he), fun v hv => hq.draining v (hdraining hv)⟩

/-- To purge bad blocks keeps the shape. -/
theorem Shaped.purged {q q' : BlockQueue} (hq : Shaped L q) (h : Purged q q') : Shaped L q' := by
  have hworking : q'.working = q.working := congrArg Core.working h.core
  have hdraining : q'.draining = q.draining := congrArg Core.draining h.core
  refine hq.of_subset h.verified.subset h.verifying.subset h.unverified.subset ?_ h.unknown.subset ?_
  · rw [hworking]
    exact List.Subset.refl _
  · rw [hdraining]
    exact List.Subset.refl _

/-- To make blocks ready keeps the shape. -/
theorem Shaped.readyTurn {q : BlockQueue} (hq : Shaped L q) (h : H256) : Shaped L (readyTurn L q h) := by
  rw [BlockQueue.readyTurn, foldl_unknownIsReady]
  refine ⟨hq.verified, hq.verifying, ?_, hq.working, ?_, hq.draining⟩
  · intro w hw
    rcases List.mem_append.mp hw with hw | hw
    · exact hq.unverified w hw
    · obtain ⟨e, he, rfl⟩ := List.mem_map.mp hw
      refine hq.unknown e ?_
      exact (equalRange_perm (L := L) q h).subset (List.mem_append_left _ he)
  · exact fun e he => hq.unknown e (List.mem_filter.mp he).1

/-- What comes in is of the shape of what it was read from. -/
theorem Shaped.imported {q q' : BlockQueue} (hq : Shaped L q) {bi : QueuedHeader} {b : Bytes} {parentInChain : Bool}
    (hbi : L.verifyBlock b = some bi) (h : Imported L q bi b parentInChain q') : Shaped L q' := by
  cases h with
  | future => exact ⟨hq.verified, hq.verifying, hq.unverified, hq.working, hq.unknown, hq.draining⟩
  | bad _ =>
    refine Shaped.purged ?_ (updateBad_spec _ _).1
    exact ⟨hq.verified, hq.verifying, hq.unverified, hq.working, hq.unknown, hq.draining⟩
  | unknown _ _ =>
    refine ⟨hq.verified, hq.verifying, hq.unverified, hq.working, ?_, hq.draining⟩
    intro e he
    rcases List.mem_append.mp he with he | he
    · exact hq.unknown e he
    · rw [List.mem_singleton.mp he]
      exact ⟨bi, hbi, rfl, rfl⟩
  | ready _ _ =>
    refine noteReady_induct (I := Shaped L) (fun q h hq _ => hq.readyTurn h) ?_ (Finset.mem_insert_self _ _)
    refine ⟨hq.verified, hq.verifying, ?_, hq.working, hq.unknown, hq.draining⟩
    intro w hw
    rcases List.mem_append.mp hw with hw | hw
    · exact hq.unverified w hw
    · rw [List.mem_singleton.mp hw]
      exact ⟨bi, hbi, rfl, rfl⟩

/-- An import keeps the shape. -/
theorem Shaped.import {q : BlockQueue} (hq : Shaped L q) (b : Bytes) (isOurs : Bool) (now : Nat)
    (inChain parentInChain : Bool) : Shaped L (q.import L b isOurs now inChain parentInChain).2 := by
  rcases import_cases (L := L) b isOurs now inChain parentInChain q with h | ⟨bi, hbi, -, -, h⟩
  · rw [h]
    exact hq
  · exact hq.imported hbi h

/-- A verifier takes only what is a job. -/
theorem Shaped.takeJob {q : BlockQueue} (hq : Shaped L q) : Shaped L q.takeJob := by
  rw [BlockQueue.takeJob]
  cases hw : q.m_unverified with
  | nil => exact hq
  | cons work l =>
    have hjob : IsJob L work := hq.unverified work (hw ▸ List.mem_cons_self)
    refine ⟨hq.verified, ?_, fun w hl => hq.unverified w (hw ▸ List.mem_cons_of_mem _ hl), ?_, hq.unknown, hq.draining⟩
    · intro v hv
      rcases List.mem_append.mp hv with hv | hv
      · exact hq.verifying v hv
      · rw [List.mem_singleton.mp hv]
        exact .inr ⟨hjob, rfl⟩
    · intro w hw
      rcases List.mem_append.mp hw with hw | hw
      · exact hq.working w hw
      · rw [List.mem_singleton.mp hw]
        exact hjob

/-- A bad block in front can be dropped. -/
theorem Shaped.popBad {q : BlockQueue} (hq : Shaped L q) {b : VerifiedBlock} {l : List VerifiedBlock}
    (hl : q.m_verifying = b :: l) : Shaped L (q.popBad b l) := by
  refine ⟨hq.verified, ?_, hq.unverified, hq.working, hq.unknown, hq.draining⟩
  exact fun v hv => hq.verifying v (hl ▸ List.mem_cons_of_mem _ hv)

/-- A good block in front moves on as it is. -/
theorem Shaped.popGood {q : BlockQueue} (hq : Shaped L q) {b : VerifiedBlock} {l : List VerifiedBlock}
    (hl : q.m_verifying = b :: l) (hb : b.blockData ≠ []) : Shaped L (q.popGood b l) := by
  refine ⟨?_, fun v hv => hq.verifying v (hl ▸ List.mem_cons_of_mem _ hv), hq.unverified, hq.working, hq.unknown,
    hq.draining⟩
  intro v hv
  rcases List.mem_append.mp hv with hv | hv
  · exact hq.verified v hv
  · rw [List.mem_singleton.mp hv]
    rcases hq.verifying b (hl ▸ List.mem_cons_self) with hc | hp
    · exact hc
    · exact absurd hp.data hb

/-- To drain what is verified keeps the shape. -/
theorem Shaped.drainVerified {q : BlockQueue} (hq : Shaped L q) : Shaped L q.drainVerified_WITH_BOTH_LOCKS :=
  drainVerified_induct (I := Shaped L) (fun _ _ _ hq hl _ _ => hq.popBad hl) (fun _ _ _ hq hl hb _ => hq.popGood hl hb) hq

/-- Nothing but the new element comes in. -/
theorem mem_replaceFirst {p : VerifiedBlock → Bool} {b v : VerifiedBlock} {l : List VerifiedBlock}
    (h : v ∈ replaceFirst p b l) : v = b ∨ v ∈ l := by
  induction l with
  | nil => exact .inr h
  | cons b' l ih =>
    rw [replaceFirst] at h
    split at h
    · rcases List.mem_cons.mp h with h | h
      · exact .inl h
      · exact .inr (List.mem_cons_of_mem _ h)
    · rcases List.mem_cons.mp h with h | h
      · exact .inr (h ▸ List.mem_cons_self)
      · exact (ih h).imp id (List.mem_cons_of_mem _)

/-- A placeholder is filled with what was read from the bytes of its job. -/
theorem Shaped.fill {q : BlockQueue} (hq : Shaped L q) {work : UnverifiedBlock} {info : QueuedHeader} (hwork : IsJob L work)
    (hinfo : L.verifyBlock work.block = some info) : Shaped L (q.fill work info) := by
  refine ⟨hq.verified, ?_, hq.unverified, hq.working, hq.unknown, hq.draining⟩
  intro v hv
  rcases mem_replaceFirst hv with rfl | hv
  · exact .inl ⟨hwork, hinfo, rfl⟩
  · exact hq.verifying v hv

theorem Shaped.dropJob {q : BlockQueue} (hq : Shaped L q) (i : Nat) : Shaped L (q.dropJob i) :=
  ⟨hq.verified, hq.verifying, hq.unverified, fun w hw => hq.working w (List.mem_of_mem_eraseIdx hw), hq.unknown, hq.draining⟩

theorem Shaped.failJob {q : BlockQueue} (hq : Shaped L q) (work : UnverifiedBlock) : Shaped L (q.failJob work) :=
  ⟨hq.verified, fun v hv => hq.verifying v (List.mem_of_mem_eraseP hv), hq.unverified, hq.working, hq.unknown, hq.draining⟩

/-- A report keeps the shape. -/
theorem Shaped.report {q : BlockQueue} (hq : Shaped L q) (i : Nat) (good : Bool) : Shaped L (next L q (.report i good)) := by
  rcases report_cases hq i good with h | ⟨work, hwork, h⟩
  · rw [h]
    exact hq
  · have hjob := hq.working work (List.mem_of_getElem? hwork)
    generalize next L q (.report i good) = q' at h ⊢
    cases h with
    | failure _ => exact ((hq.dropJob i).failJob work).drainVerified
    | filled info _ hinfo => exact (hq.dropJob i).fill hjob hinfo
    | success info _ hinfo => exact ((hq.dropJob i).fill hjob hinfo).drainVerified

/-- What is drained leaves the rest as it is. -/
theorem Shaped.drain {q : BlockQueue} (hq : Shaped L q) (max : Nat) : Shaped L (q.drain max) := by
  rw [BlockQueue.drain]
  split
  · rw [foldl_drainOne]
    refine ⟨fun v hv => hq.verified v (List.mem_of_mem_drop hv), hq.verifying, hq.unverified, hq.working, hq.unknown, ?_⟩
    intro v hv
    exact hq.verified v (List.mem_of_mem_take hv)
  · exact hq

/-- What every call of `updateBad_WITH_LOCK` keeps, `doneDrain` keeps. -/
theorem foldl_updateBad_induct {I : BlockQueue → Prop} (hstep : ∀ q h, I q → I (updateBad_WITH_LOCK L q h)) (bad : List H256)
    {q : BlockQueue} (hq : I q) : I (bad.foldl (updateBad_WITH_LOCK L) q) := by
  induction bad generalizing q with
  | nil => exact hq
  | cons h bad ih => exact ih (hstep q h hq)

theorem Shaped.doneDrain {q : BlockQueue} (hq : Shaped L q) (bad : List H256) : Shaped L (q.doneDrain L bad) := by
  refine foldl_updateBad_induct (I := Shaped L) (fun q h hq => hq.purged (updateBad_spec q h).1) bad ?_
  exact ⟨hq.verified, hq.verifying, hq.unverified, hq.working, hq.unknown, fun v hv => absurd hv List.not_mem_nil⟩

theorem Shaped.retryAllUnknown {q : BlockQueue} (hq : Shaped L q) : Shaped L (q.retryAllUnknown L) := by
  rw [BlockQueue.retryAllUnknown, foldl_retryUnknown]
  refine ⟨hq.verified, hq.verifying, ?_, hq.working, fun e he => absurd he List.not_mem_nil, hq.draining⟩
  intro w hw
  rcases List.mem_append.mp hw with hw | hw
  · exact hq.unverified w hw
  · obtain ⟨e, he, rfl⟩ := List.mem_map.mp hw
    exact hq.unknown e ((L.order_perm _).subset he)

/-- Every step keeps the shape. -/
theorem Shaped.next {q : BlockQueue} (hq : Shaped L q) (s : Step) : Shaped L (next L q s) := by
  cases s with
  | «import» b isOurs now inChain parentInChain => exact hq.import b isOurs now inChain parentInChain
  | tick now => exact ⟨hq.verified, hq.verifying, hq.unverified, hq.working, hq.unknown, hq.draining⟩
  | tickImport i now inChain parentInChain =>
    rw [BlockQueue.next]
    split
    · exact hq
    · refine Shaped.import (q := q.dropTodo i) ?_ _ _ _ _ _
      exact ⟨hq.verified, hq.verifying, hq.unverified, hq.working, hq.unknown, hq.draining⟩
  | takeJob => exact hq.takeJob
  | report i good => exact hq.report i good
  | drain max => exact hq.drain max
  | doneDrain bad => exact hq.doneDrain bad
  | retryAllUnknown => exact hq.retryAllUnknown
  | clear =>
    exact ⟨nofun, nofun, nofun, hq.working, nofun, nofun⟩

/-- An empty queue has the shape. -/
theorem Shaped.new : Shaped L new := ⟨nofun, nofun, nofun, nofun, nofun, nofun⟩

/-- Every block is one that `verifyBlock` has read, whatever happens. -/
theorem Shaped.of_reach {allowed : BlockQueue → Step → Prop} {q : BlockQueue}
    (h : Reach (BlockQueue.next L) allowed BlockQueue.new q) : Shaped L q :=
  Reach.invariant (P := Shaped L) Shaped.new (fun _ s hq _ => hq.next s) h

/-! ## Blocks with unknown parents and of the future -/

/-- The bytes of blocks of the future. -/
def futureBytes (l : List FutureBlock) : Int := (l.map fun e => (e.block.length : Int)).sum

/-- The counters of blocks that wait count `m_unknown` and `m_future`. -/
structure UnknownCounted (q : BlockQueue) : Prop where
  count : q.m_unknownCount = q.m_unknown.length + q.m_future.length
  size : q.m_unknownSize = unknownBytes q.m_unknown + futureBytes q.m_future

/-- A future block is put somewhere among the others. -/
theorem insertFuture_perm (e : FutureBlock) (l : List FutureBlock) : (insertFuture e l).Perm (e :: l) := by
  rw [insertFuture]
  refine List.perm_middle.trans (List.Perm.cons e ?_)
  rw [List.takeWhile_append_dropWhile]

/-- The order makes no difference to the bytes of future blocks. -/
theorem futureBytes_perm {l l' : List FutureBlock} (h : l.Perm l') : futureBytes l = futureBytes l' := (h.map _).sum_eq

/-- The bytes of two lists of future blocks add up. -/
theorem futureBytes_append (l l' : List FutureBlock) : futureBytes (l ++ l') = futureBytes l + futureBytes l' := by
  simp [futureBytes]

/-- What `tick` takes out and what stays. -/
theorem due_append_drop (q : BlockQueue) (now : Nat) : q.due now ++ q.m_future.drop (q.due now).length = q.m_future := by
  have hprefix : q.due now <+: q.m_future := by
    rw [due]
    cases q.m_future with
    | nil => exact List.prefix_rfl
    | cons e l =>
      simp only
      split
      · exact List.nil_prefix
      · exact List.takeWhile_prefix _
  obtain ⟨l, hl⟩ := hprefix
  rw [← hl, List.drop_left]

/-- What is purged from the unknown blocks is no longer counted. -/
theorem UnknownCounted.purged {q q' : BlockQueue} (hq : UnknownCounted q) (h : Purged q q') : UnknownCounted q' := by
  have hfuture : q'.m_future = q.m_future := congrArg Core.future h.core
  have hcount := h.count
  have hsize := h.size
  rw [hq.count] at hcount
  rw [hq.size] at hsize
  refine ⟨?_, ?_⟩
  · rw [hfuture]
    omega
  · rw [hfuture]
    omega

/-- Blocks that become ready are no longer counted as unknown. -/
theorem UnknownCounted.readyTurn {q : BlockQueue} (hq : UnknownCounted q) (h : H256) : UnknownCounted (readyTurn L q h) := by
  have hperm := equalRange_perm (L := L) q h
  have hlen := hperm.length_eq
  have hbytes := unknownBytes_perm hperm
  rw [unknownBytes_append] at hbytes
  rw [List.length_append] at hlen
  have hcount := hq.count
  have hsize := hq.size
  rw [BlockQueue.readyTurn, foldl_unknownIsReady]
  simp only [eraseRange] at hlen hbytes ⊢
  refine ⟨?_, ?_⟩
  · simp only
    omega
  · simp only
    omega

/-- An imported block is counted where it is put. -/
theorem UnknownCounted.imported {q q' : BlockQueue} (hq : UnknownCounted q) {bi : QueuedHeader} {b : Bytes}
    {parentInChain : Bool} (h : Imported L q bi b parentInChain q') : UnknownCounted q' := by
  have hcount := hq.count
  have hsize := hq.size
  cases h with
  | future =>
    have hperm := insertFuture_perm ⟨bi.timestamp.toNat % 2 ^ 32, bi.hash, b⟩ q.m_future
    have hlen := hperm.length_eq
    have hbytes := futureBytes_perm hperm
    rw [List.length_cons] at hlen
    have hcons : futureBytes (⟨bi.timestamp.toNat % 2 ^ 32, bi.hash, b⟩ :: q.m_future) = b.length + futureBytes q.m_future := rfl
    refine ⟨?_, ?_⟩
    · simp only [enterFuture]
      omega
    · simp only [enterFuture]
      omega
  | bad _ => exact UnknownCounted.purged (q := q.enterBad bi.hash) ⟨hcount, hsize⟩ (updateBad_spec _ _).1
  | unknown _ _ =>
    have hbytes : unknownBytes [⟨bi.parentHash, bi.hash, b⟩] = b.length := by simp [unknownBytes]
    refine ⟨?_, ?_⟩
    · simp only [enterUnknown, List.length_append, List.length_singleton]
      push_cast
      omega
    · simp only [enterUnknown, unknownBytes_append, hbytes]
      omega
  | ready _ _ =>
    refine noteReady_induct (I := UnknownCounted) (fun q h hq _ => hq.readyTurn h) ?_ (Finset.mem_insert_self _ _)
    exact ⟨hcount, hsize⟩

/-- An import counts what it puts aside. -/
theorem UnknownCounted.import {q : BlockQueue} (hq : UnknownCounted q) (b : Bytes) (isOurs : Bool) (now : Nat)
    (inChain parentInChain : Bool) : UnknownCounted (q.import L b isOurs now inChain parentInChain).2 := by
  rcases import_cases (L := L) b isOurs now inChain parentInChain q with h | ⟨bi, -, -, -, h⟩
  · rw [h]
    exact hq
  · exact hq.imported h

/-- A tick counts the blocks that it takes out. -/
theorem UnknownCounted.tick {q : BlockQueue} (hq : UnknownCounted q) (now : Nat) : UnknownCounted (q.tick now) := by
  have hsplit := due_append_drop q now
  have hlen := congrArg List.length hsplit
  have hbytes := congrArg futureBytes hsplit
  rw [List.length_append] at hlen
  rw [futureBytes_append] at hbytes
  have hcount := hq.count
  have hsize := hq.size
  refine ⟨?_, ?_⟩
  · simp only [BlockQueue.tick]
    omega
  · change q.m_unknownSize - futureBytes (q.due now) = _
    simp only [BlockQueue.tick]
    omega

/-- What is drained is not counted as unknown. -/
theorem UnknownCounted.drainVerified {q : BlockQueue} (hq : UnknownCounted q) :
    UnknownCounted q.drainVerified_WITH_BOTH_LOCKS :=
  drainVerified_induct (I := UnknownCounted) (fun _ _ _ hq _ _ _ => ⟨hq.count, hq.size⟩)
    (fun _ _ _ hq _ _ _ => ⟨hq.count, hq.size⟩) hq

/-- A report counts the unknown blocks that it purges. -/
theorem UnknownCounted.report {q : BlockQueue} (hs : Shaped L q) (hq : UnknownCounted q) (i : Nat) (good : Bool) :
    UnknownCounted (next L q (.report i good)) := by
  rcases report_cases hs i good with h | ⟨work, -, h⟩
  · rw [h]
    exact hq
  · generalize next L q (.report i good) = q' at h ⊢
    cases h with
    | failure _ => exact UnknownCounted.drainVerified ⟨hq.count, hq.size⟩
    | filled info _ _ => exact ⟨hq.count, hq.size⟩
    | success info _ _ => exact UnknownCounted.drainVerified ⟨hq.count, hq.size⟩

/-- Every step keeps the counters of unknown blocks, but for a retry while blocks of the future wait. -/
theorem UnknownCounted.next {q : BlockQueue} (hs : Shaped L q) (hq : UnknownCounted q) (s : Step)
    (hretry : s = .retryAllUnknown → q.m_future = []) : UnknownCounted (next L q s) := by
  cases s with
  | «import» b isOurs now inChain parentInChain => exact hq.import b isOurs now inChain parentInChain
  | tick now => exact hq.tick now
  | tickImport i now inChain parentInChain =>
    rw [BlockQueue.next]
    split
    · exact hq
    · exact UnknownCounted.import (q := q.dropTodo i) ⟨hq.count, hq.size⟩ _ _ _ _ _
  | takeJob =>
    rw [BlockQueue.next, BlockQueue.takeJob]
    split
    · exact hq
    · exact ⟨hq.count, hq.size⟩
  | report i good => exact hq.report hs i good
  | drain max =>
    rw [BlockQueue.next, BlockQueue.drain]
    split
    · rw [foldl_drainOne]
      exact ⟨hq.count, hq.size⟩
    · exact hq
  | doneDrain bad =>
    exact foldl_updateBad_induct (I := UnknownCounted) (fun q h hq => hq.purged (updateBad_spec (L := L) q h).1) bad
      ⟨hq.count, hq.size⟩
  | retryAllUnknown =>
    have hfuture := hretry rfl
    rw [BlockQueue.next, BlockQueue.retryAllUnknown, foldl_retryUnknown]
    refine ⟨?_, ?_⟩
    · simp [hfuture]
    · simp [hfuture, unknownBytes, futureBytes]
  | clear => exact ⟨rfl, rfl⟩

/-- In runs without such a retry the counters are right. -/
theorem UnknownCounted.of_reach {allowed : BlockQueue → Step → Prop} (hretry : ∀ q, allowed q .retryAllUnknown → q.m_future = [])
    {q : BlockQueue} (h : Reach (BlockQueue.next L) allowed BlockQueue.new q) : UnknownCounted q := by
  refine (Reach.invariant (P := fun q => Shaped L q ∧ UnknownCounted q) ⟨Shaped.new, rfl, rfl⟩ ?_ h).2
  rintro q s ⟨hs, hq⟩ hallowed
  refine ⟨hs.next s, hq.next hs s ?_⟩
  rintro rfl
  exact hretry q hallowed

/-- Bytes of unknown blocks are not negative. -/
theorem unknownBytes_nonneg (l : List UnknownBlock) : 0 ≤ unknownBytes l := by
  refine List.sum_nonneg fun n hn => ?_
  obtain ⟨e, -, rfl⟩ := List.mem_map.mp hn
  exact Int.natCast_nonneg _

/-- Bytes of future blocks are not negative. -/
theorem futureBytes_nonneg (l : List FutureBlock) : 0 ≤ futureBytes l := by
  refine List.sum_nonneg fun n hn => ?_
  obtain ⟨e, -, rfl⟩ := List.mem_map.mp hn
  exact Int.natCast_nonneg _

/-! ## Blocks of the deques -/

/-- The bytes of blocks of the deques. -/
def blockBytes (l : List UnverifiedBlock) : Int := (l.map fun w => (w.block.length : Int)).sum

/-- As long as no block has left the deques as bad, the counters of known blocks count the deques. -/
structure KnownCounted (q : BlockQueue) : Prop where
  count : q.badKnown = false → q.m_knownCount = q.blocks.length
  size : q.badKnown = false → q.m_knownSize = blockBytes q.blocks
  surplus : q.badKnown = true → q.blocks.length < q.m_knownCount

/-- The deques hold the blocks. -/
theorem dequeLength_eq (q : BlockQueue) : q.dequeLength = q.blocks.length := by
  simp only [dequeLength, blocks, List.length_append, List.length_map]
  omega

/-- The bytes of two lists of jobs add up. -/
theorem blockBytes_append (l l' : List UnverifiedBlock) : blockBytes (l ++ l') = blockBytes l + blockBytes l' := by
  simp [blockBytes]

/-- An unknown block has as many bytes as its job. -/
theorem blockBytes_map_job (l : List UnknownBlock) : blockBytes (l.map UnknownBlock.job) = unknownBytes l := by
  rw [blockBytes, List.map_map]
  rfl

/-- The blocks are those of the three deques. -/
theorem blocks_congr {q q' : BlockQueue} (hverified : q'.m_verified = q.m_verified) (hverifying : q'.m_verifying = q.m_verifying)
    (hunverified : q'.m_unverified = q.m_unverified) : q'.blocks = q.blocks := by
  rw [blocks, blocks, hverified, hverifying, hunverified]

/-- There are no more blocks than are counted. -/
theorem KnownCounted.le {q : BlockQueue} (hq : KnownCounted q) : q.blocks.length ≤ q.m_knownCount := by
  cases hb : q.badKnown with
  | false => exact (hq.count hb).ge
  | true => exact (hq.surplus hb).le

/-- Bad blocks leave the deques, and the counters stay. -/
theorem KnownCounted.fewer {q q' : BlockQueue} (hq : KnownCounted q) (hcount : q'.m_knownCount = q.m_knownCount)
    (hsize : q'.m_knownSize = q.m_knownSize) (h : Fewer q q')
    (hsame : q'.badKnown = false → q.badKnown = false ∧ q'.blocks = q.blocks) : KnownCounted q' := by
  refine ⟨fun hb => ?_, fun hb => ?_, fun hb => ?_⟩
  · obtain ⟨hb, heq⟩ := hsame hb
    rw [hcount, heq, hq.count hb]
  · obtain ⟨hb, heq⟩ := hsame hb
    rw [hsize, heq, hq.size hb]
  · have hle := hq.le
    have hlen := h.1
    rw [dequeLength_eq, dequeLength_eq] at hlen
    rw [hcount]
    rcases h.2 hb with hb | hlt
    · have := hq.surplus hb
      omega
    · rw [dequeLength_eq, dequeLength_eq] at hlt
      omega

/-- Blocks come or go, and the counters follow. -/
theorem KnownCounted.shift {q q' : BlockQueue} (hq : KnownCounted q) (n m : Int) (hbad : q'.badKnown = q.badKnown)
    (hlen : (q'.blocks.length : Int) = q.blocks.length + n) (hbytes : blockBytes q'.blocks = blockBytes q.blocks + m)
    (hcount : q'.m_knownCount = q.m_knownCount + n) (hsize : q'.m_knownSize = q.m_knownSize + m) : KnownCounted q' := by
  refine ⟨fun hb => ?_, fun hb => ?_, fun hb => ?_⟩
  · rw [hcount, hlen, hq.count (hbad ▸ hb)]
  · rw [hsize, hbytes, hq.size (hbad ▸ hb)]
  · rw [hcount, hlen]
    have := hq.surplus (hbad ▸ hb)
    omega

/-- A step that neither changes the deques nor these counters. -/
theorem KnownCounted.congr {q q' : BlockQueue} (hq : KnownCounted q) (hbad : q'.badKnown = q.badKnown)
    (hblocks : q'.blocks = q.blocks) (hcount : q'.m_knownCount = q.m_knownCount) (hsize : q'.m_knownSize = q.m_knownSize) :
    KnownCounted q' :=
  hq.shift 0 0 hbad (by rw [hblocks, Int.add_zero]) (by rw [hblocks, Int.add_zero]) (by rw [hcount, Int.add_zero])
    (by rw [hsize, Int.add_zero])

/-- A block that is found bad is not counted wrongly, because from then on nothing is said. -/
theorem KnownCounted.updateBad {q : BlockQueue} (hq : KnownCounted q) (h : H256) :
    KnownCounted (updateBad_WITH_LOCK L q h) := by
  have hp := (updateBad_spec (L := L) q h).1
  refine hq.fewer (congrArg Core.knownCount hp.core) (congrArg Core.knownSize hp.core) (updateBad_fewer q h) fun hb => ?_
  obtain ⟨h1, h2, h3⟩ := hp.same hb
  exact ⟨hp.badKnown_eq_false hb, blocks_congr h1 h2 h3⟩

/-- Blocks are put into `m_unverified`. -/
theorem blocks_push {q q' : BlockQueue} {l : List UnverifiedBlock} (hverified : q'.m_verified = q.m_verified)
    (hverifying : q'.m_verifying = q.m_verifying) (hunverified : q'.m_unverified = q.m_unverified ++ l) :
    q'.blocks = q.blocks ++ l := by
  rw [blocks, blocks, hverified, hverifying, hunverified, List.append_assoc _ q.m_unverified]

/-- Blocks that are pushed to the back are counted. -/
theorem KnownCounted.push {q q' : BlockQueue} (hq : KnownCounted q) {l : List UnverifiedBlock} (hbad : q'.badKnown = q.badKnown)
    (hblocks : q'.blocks = q.blocks ++ l) (hcount : q'.m_knownCount = q.m_knownCount + l.length)
    (hsize : q'.m_knownSize = q.m_knownSize + blockBytes l) : KnownCounted q' := by
  refine hq.shift l.length (blockBytes l) hbad ?_ ?_ hcount hsize
  · rw [hblocks, List.length_append]
    push_cast
    rfl
  · rw [hblocks, blockBytes_append]

/-- Blocks that become ready are counted. -/
theorem KnownCounted.readyTurn {q : BlockQueue} (hq : KnownCounted q) (h : H256) : KnownCounted (readyTurn L q h) := by
  rw [BlockQueue.readyTurn, foldl_unknownIsReady]
  refine hq.push (l := (q.equalRange L h).map UnknownBlock.job) rfl (blocks_push rfl rfl rfl) ?_ ?_
  · rw [List.length_map]
    rfl
  · rw [blockBytes_map_job]
    rfl

/-- An imported block is counted if it is ready at once. -/
theorem KnownCounted.imported {q q' : BlockQueue} (hq : KnownCounted q) {bi : QueuedHeader} {b : Bytes}
    {parentInChain : Bool} (h : Imported L q bi b parentInChain q') : KnownCounted q' := by
  cases h with
  | future => exact hq.congr rfl rfl rfl rfl
  | bad _ =>
    have hbad : KnownCounted (q.enterBad bi.hash) := hq.congr rfl rfl rfl rfl
    exact hbad.updateBad bi.hash
  | unknown _ _ => exact hq.congr rfl rfl rfl rfl
  | ready _ _ =>
    refine noteReady_induct (I := KnownCounted) (fun q h hq _ => hq.readyTurn h) ?_ (Finset.mem_insert_self _ _)
    refine hq.push (l := [⟨bi.hash, bi.parentHash, b, parentInChain⟩]) rfl (blocks_push rfl rfl rfl) rfl ?_
    simp [enterReady, blockBytes]

/-- An import counts what it makes ready. -/
theorem KnownCounted.import {q : BlockQueue} (hq : KnownCounted q) (b : Bytes) (isOurs : Bool) (now : Nat)
    (inChain parentInChain : Bool) : KnownCounted (q.import L b isOurs now inChain parentInChain).2 := by
  rcases import_cases (L := L) b isOurs now inChain parentInChain q with h | ⟨bi, -, -, -, h⟩
  · rw [h]
    exact hq
  · exact hq.imported h

/-- A job that is taken stays among the blocks. -/
theorem blocks_takeJob (q : BlockQueue) : q.takeJob.blocks = q.blocks := by
  rw [takeJob]
  cases hw : q.m_unverified with
  | nil => rfl
  | cons work l => simp [blocks, hw, placeholder]

/-- To take a job changes no counter. -/
theorem KnownCounted.takeJob {q : BlockQueue} (hq : KnownCounted q) : KnownCounted q.takeJob := by
  refine hq.congr ?_ (blocks_takeJob q) ?_ ?_
  all_goals
    rw [BlockQueue.takeJob]
    split <;> rfl

/-- A good block stays among the blocks when it moves on. -/
theorem blocks_popGood {q : BlockQueue} {b : VerifiedBlock} {l : List VerifiedBlock} (h : q.m_verifying = b :: l) :
    (q.popGood b l).blocks = q.blocks := by
  simp [blocks, popGood, h]

/-- To drain what is verified changes no counter, unless a block is bad. -/
theorem KnownCounted.drainVerified {q : BlockQueue} (hq : KnownCounted q) : KnownCounted q.drainVerified_WITH_BOTH_LOCKS := by
  refine drainVerified_induct (I := KnownCounted) ?_ ?_ hq
  · intro q b l hq hl _ _
    refine hq.fewer rfl rfl ⟨?_, fun _ => .inr ?_⟩ nofun
    · simp only [dequeLength, popBad, markBad, hl, List.length_cons]
      omega
    · simp only [dequeLength, popBad, markBad, hl, List.length_cons]
      omega
  · intro q b l hq hl _ _
    exact hq.congr rfl (blocks_popGood hl) rfl rfl

/-- A job that fails is bad, and nothing is said from then on. -/
theorem KnownCounted.failJob {q : BlockQueue} (hq : KnownCounted q) (work : UnverifiedBlock) : KnownCounted (q.failJob work) := by
  refine hq.fewer rfl rfl ⟨?_, ?_⟩ ?_
  · have := (List.eraseP_sublist (p := fun b : VerifiedBlock => b.info.sha3Uncles = work.hash) (l := q.m_verifying)).length_le
    simp only [dequeLength, BlockQueue.failJob]
    omega
  · intro hb
    rcases Bool.or_eq_true_iff.mp hb with hb | hb
    · exact .inl hb
    · obtain ⟨v, hv, hp⟩ := List.any_eq_true.mp hb
      refine .inr ?_
      have hlen := List.length_eraseP_of_mem (p := fun b : VerifiedBlock => b.info.sha3Uncles = work.hash) hv hp
      have hpos := List.length_pos_of_mem hv
      simp only [dequeLength, BlockQueue.failJob, hlen]
      omega
  · intro hb
    obtain ⟨hb, hany⟩ := Bool.or_eq_false_iff.mp hb
    refine ⟨hb, blocks_congr rfl ?_ rfl⟩
    refine List.eraseP_of_forall_not fun v hv hp => ?_
    exact absurd (List.any_eq_true.mpr ⟨v, hv, hp⟩) (Bool.eq_false_iff.mp hany)

/-- A block that takes the place of one of its length changes neither how many there are nor their bytes. -/
theorem replaceFirst_bytes {p : VerifiedBlock → Bool} {b : VerifiedBlock} {l : List VerifiedBlock}
    (h : ∀ v ∈ l, p v = true → v.work.block.length = b.work.block.length) :
    (replaceFirst p b l).length = l.length ∧
      blockBytes ((replaceFirst p b l).map VerifiedBlock.work) = blockBytes (l.map VerifiedBlock.work) := by
  induction l with
  | nil => exact ⟨rfl, rfl⟩
  | cons v l ih =>
    rw [replaceFirst]
    split
    · rename_i hp
      refine ⟨rfl, ?_⟩
      simp only [blockBytes, List.map_cons, List.sum_cons, h v List.mem_cons_self hp]
    · obtain ⟨h1, h2⟩ := ih fun v hv => h v (List.mem_cons_of_mem _ hv)
      refine ⟨congrArg (· + 1) h1, ?_⟩
      simp only [blockBytes, List.map_cons, List.sum_cons] at h2 ⊢
      rw [h2]

/-- A placeholder is filled with a block of the same length. -/
theorem KnownCounted.fill {q : BlockQueue} (hq : KnownCounted q) {work : UnverifiedBlock} {info : QueuedHeader}
    (h : ∀ v ∈ q.m_verifying, v.info.sha3Uncles = work.hash → v.work.block.length = work.block.length) :
    KnownCounted (q.fill work info) := by
  obtain ⟨hlen, hbytes⟩ := replaceFirst_bytes (p := fun b => b.info.sha3Uncles = work.hash) (b := ⟨info, work.block, work⟩)
    (l := q.m_verifying) fun v hv hp => h v hv (of_decide_eq_true hp)
  refine hq.shift 0 0 rfl ?_ ?_ (Int.add_zero _).symm (Int.add_zero _).symm
  · simp only [blocks, BlockQueue.fill, List.length_append, List.length_map, hlen, Int.add_zero]
  · simp only [blocks, BlockQueue.fill, blockBytes_append, hbytes, Int.add_zero]

/-- The conditions under which a step keeps the counters of known blocks right, if no block is bad: `retryAllUnknown` finds no
block of the future, and a good report finds no placeholder of a block of another length. -/
def CountsWell (q : BlockQueue) (s : Step) : Prop :=
  (s = .retryAllUnknown → q.m_future = []) ∧
    ∀ i work, s = .report i true → q.working[i]? = some work →
      ∀ v ∈ q.m_verifying, v.info.sha3Uncles = work.hash → v.work.block.length = work.block.length

/-- A report counts well under its condition. -/
theorem KnownCounted.report {q : BlockQueue} (hs : Shaped L q) (hq : KnownCounted q) (i : Nat) (good : Bool)
    (hs' : CountsWell q (.report i good)) : KnownCounted (next L q (.report i good)) := by
  rcases report_cases hs i good with h | ⟨work, hwork, h⟩
  · rw [h]
    exact hq
  · have hdrop : KnownCounted (q.dropJob i) := hq.congr rfl rfl rfl rfl
    generalize next L q (.report i good) = q' at h ⊢
    cases h with
    | failure _ => exact (hdrop.failJob work).drainVerified
    | filled info hgood _ => exact hdrop.fill (hs'.2 i work (hgood ▸ rfl) hwork)
    | success info hgood _ => exact (hdrop.fill (hs'.2 i work (hgood ▸ rfl) hwork)).drainVerified

/-- The blocks that `drain` hands out come first. -/
theorem blocks_eq_take_append (q : BlockQueue) (max : Nat) :
    q.blocks = (q.m_verified.take max).map VerifiedBlock.work ++
      ((q.m_verified.drop max).map VerifiedBlock.work ++ q.m_verifying.map VerifiedBlock.work ++ q.m_unverified) := by
  have hsplit := congrArg (List.map VerifiedBlock.work) (List.take_append_drop max q.m_verified)
  rw [List.map_append] at hsplit
  rw [blocks, ← hsplit]
  simp only [List.append_assoc]

/-- What is drained is no longer counted. -/
theorem KnownCounted.drain {q : BlockQueue} (hs : Shaped L q) (hq : KnownCounted q) (max : Nat) : KnownCounted (q.drain max) := by
  rw [BlockQueue.drain]
  split
  · rw [foldl_drainOne]
    have hbytes : verifiedBytes (q.m_verified.take max) = blockBytes ((q.m_verified.take max).map VerifiedBlock.work) := by
      rw [verifiedBytes, blockBytes, List.map_map]
      refine congrArg List.sum (List.map_congr_left fun v hv => ?_)
      rw [(hs.verified v (List.mem_of_mem_take hv)).data]
      rfl
    have hsplit := blocks_eq_take_append q max
    refine hq.shift (-(q.m_verified.take max).length) (-verifiedBytes (q.m_verified.take max)) rfl ?_ ?_ rfl rfl
    · rw [hsplit, List.length_append, List.length_map]
      simp only [blocks]
      push_cast
      omega
    · rw [hsplit, blockBytes_append, hbytes]
      simp only [blocks]
      omega
  · exact hq

/-- A retry without blocks of the future moves the counters over with the blocks. -/
theorem KnownCounted.retryAllUnknown {q : BlockQueue} (hq : KnownCounted q) (hu : UnknownCounted q) (hfuture : q.m_future = []) :
    KnownCounted (q.retryAllUnknown L) := by
  have hperm := L.order_perm q.m_unknown
  have hsize := hu.size
  rw [hfuture] at hsize
  rw [BlockQueue.retryAllUnknown, foldl_retryUnknown]
  refine hq.push (l := (L.order q.m_unknown).map UnknownBlock.job) rfl (blocks_push rfl rfl rfl) ?_ ?_
  · rw [List.length_map]
  · rw [blockBytes_map_job, unknownBytes_perm hperm]
    simp only [hsize, futureBytes, List.map_nil, List.sum_nil, Int.add_zero]

/-- Every step counts well under its condition. -/
theorem KnownCounted.next {q : BlockQueue} (hs : Shaped L q) (hu : UnknownCounted q) (hq : KnownCounted q) (s : Step)
    (hs' : CountsWell q s) : KnownCounted (next L q s) := by
  cases s with
  | «import» b isOurs now inChain parentInChain => exact hq.import b isOurs now inChain parentInChain
  | tick now => exact hq.congr rfl rfl rfl rfl
  | tickImport i now inChain parentInChain =>
    rw [BlockQueue.next]
    split
    · exact hq
    · have hdrop : KnownCounted (q.dropTodo i) := hq.congr rfl rfl rfl rfl
      exact hdrop.import _ _ _ _ _
  | takeJob => exact hq.takeJob
  | report i good => exact hq.report hs i good hs'
  | drain max => exact hq.drain hs max
  | doneDrain bad =>
    refine foldl_updateBad_induct (I := KnownCounted) (fun q h hq => hq.updateBad (L := L) h) bad ?_
    exact hq.congr rfl rfl rfl rfl
  | retryAllUnknown => exact hq.retryAllUnknown hu (hs'.1 rfl)
  | clear => exact ⟨fun _ => rfl, fun _ => rfl, fun h => absurd h Bool.false_ne_true⟩

/-- So do runs of such steps. -/
theorem KnownCounted.of_reach {q : BlockQueue} (h : Reach (BlockQueue.next L) CountsWell BlockQueue.new q) : KnownCounted q := by
  have hnew : KnownCounted BlockQueue.new := ⟨fun _ => rfl, fun _ => rfl, nofun⟩
  refine (Reach.invariant (P := fun q => Shaped L q ∧ UnknownCounted q ∧ KnownCounted q) ⟨Shaped.new, ⟨rfl, rfl⟩, hnew⟩ ?_ h).2.2
  rintro q s ⟨hs, hu, hq⟩ hallowed
  exact ⟨hs.next s, hu.next hs s hallowed.1, hq.next hs hu s hallowed⟩

end BlockQueue

end Webthree
