import Webthree.Lemmas.BlockQueueHeld

/-!
# The sets of the block queue

`m_readySet`, `m_drainingSet`, `m_unknownSet` and `m_knownBad` against the containers.
-/

namespace Webthree

namespace BlockQueue

variable {L : Library}

/-- The sets are right for the blocks `S` of the deques, each of which is there once, and disjoint, but for hashes in `B` that may
be both ready and bad. -/
structure Filed (B : Finset H256) (S : List UnverifiedBlock) (q : BlockQueue) : Prop where
  nodup : (S.map UnverifiedBlock.hash).Nodup
  ready : ∀ h, h ∈ q.m_readySet ↔ h ∈ S.map UnverifiedBlock.hash
  unknownNodup : (q.m_unknown.map UnknownBlock.hash).Nodup
  unknown : ∀ h, h ∈ q.m_unknownSet ↔ h ∈ q.m_unknown.map UnknownBlock.hash
  readyDraining : ∀ h ∈ q.m_readySet, h ∉ q.m_drainingSet
  readyUnknown : ∀ h ∈ q.m_readySet, h ∉ q.m_unknownSet
  readyBad : ∀ h ∈ q.m_readySet, h ∈ q.m_knownBad → h ∈ B
  drainingUnknown : ∀ h ∈ q.m_drainingSet, h ∉ q.m_unknownSet
  drainingBad : ∀ h ∈ q.m_drainingSet, h ∉ q.m_knownBad
  unknownBad : ∀ h ∈ q.m_unknownSet, h ∉ q.m_knownBad

variable {B : Finset H256} {S S' : List UnverifiedBlock} {q q' : BlockQueue}

/-- The sets see the hashes only. -/
theorem Filed.congr (hq : Filed B S q) (hS : S'.map UnverifiedBlock.hash = S.map UnverifiedBlock.hash)
    (hready : q'.m_readySet = q.m_readySet) (hunknownSet : q'.m_unknownSet = q.m_unknownSet)
    (hunknown : q'.m_unknown = q.m_unknown) (hdraining : q'.m_drainingSet = q.m_drainingSet)
    (hbad : q'.m_knownBad = q.m_knownBad) : Filed B S' q' := by
  constructor
  case nodup => rw [hS]; exact hq.nodup
  case ready => rw [hS, hready]; exact hq.ready
  case unknownNodup => rw [hunknown]; exact hq.unknownNodup
  case unknown => rw [hunknown, hunknownSet]; exact hq.unknown
  case readyDraining => rw [hready, hdraining]; exact hq.readyDraining
  case readyUnknown => rw [hready, hunknownSet]; exact hq.readyUnknown
  case readyBad => rw [hready, hbad]; exact hq.readyBad
  case drainingUnknown => rw [hdraining, hunknownSet]; exact hq.drainingUnknown
  case drainingBad => rw [hdraining, hbad]; exact hq.drainingBad
  case unknownBad => rw [hunknownSet, hbad]; exact hq.unknownBad

/-- Entries leave `m_unknown` and `m_unknownSet` together. -/
theorem Filed.unknown_split (hq : Filed B S q) {r rest : List UnknownBlock} (hperm : (r ++ rest).Perm q.m_unknown) :
    (rest.map UnknownBlock.hash).Nodup ∧
      ∀ h, h ∈ q.m_unknownSet \ (r.map UnknownBlock.hash).toFinset ↔ h ∈ rest.map UnknownBlock.hash := by
  have hhashes := hperm.map UnknownBlock.hash
  rw [List.map_append] at hhashes
  have hnodup := hhashes.nodup_iff.mpr hq.unknownNodup
  obtain ⟨-, hrest, hne⟩ := List.nodup_append.mp hnodup
  refine ⟨hrest, fun h => ?_⟩
  rw [Finset.mem_sdiff, hq.unknown h, ← hhashes.mem_iff, List.mem_append, List.mem_toFinset]
  refine ⟨fun ⟨h1, h2⟩ => h1.resolve_left h2, fun h1 => ⟨.inr h1, fun h2 => hne h h2 h h1 rfl⟩⟩

/-- One turn of the loop of `collectUnknownBad_WITH_BOTH_LOCKS`. -/
theorem Filed.badTurn (hq : Filed B S q) (h : H256) :
    Filed B S (eraseRange ((q.equalRange L h).foldl unknownIsBad q) h) := by
  have hperm := equalRange_perm (L := L) q h
  obtain ⟨hnodup, hunknown⟩ := hq.unknown_split hperm
  have hmem : ∀ h' ∈ ((q.equalRange L h).map UnknownBlock.hash).toFinset, h' ∈ q.m_unknownSet := by
    intro h' hh'
    rw [hq.unknown h', ← (hperm.map UnknownBlock.hash).mem_iff, List.map_append]
    exact List.mem_append_left _ (List.mem_toFinset.mp hh')
  rw [foldl_unknownIsBad]
  constructor
  case nodup => exact hq.nodup
  case ready => exact hq.ready
  case unknownNodup => exact hnodup
  case unknown => exact hunknown
  case readyDraining => exact hq.readyDraining
  case readyUnknown => exact fun h' hh' hu => hq.readyUnknown h' hh' (Finset.mem_sdiff.mp hu).1
  case readyBad =>
    intro h' hh' hbad
    rcases Finset.mem_union.mp hbad with hbad | hbad
    · exact hq.readyBad h' hh' hbad
    · exact absurd (hmem h' hbad) (hq.readyUnknown h' hh')
  case drainingUnknown => exact fun h' hh' hu => hq.drainingUnknown h' hh' (Finset.mem_sdiff.mp hu).1
  case drainingBad =>
    intro h' hh' hbad
    rcases Finset.mem_union.mp hbad with hbad | hbad
    · exact hq.drainingBad h' hh' hbad
    · exact hq.drainingUnknown h' hh' (hmem h' hbad)
  case unknownBad =>
    intro h' hh' hbad
    obtain ⟨hh', hr⟩ := Finset.mem_sdiff.mp hh'
    rcases Finset.mem_union.mp hbad with hbad | hbad
    · exact hq.unknownBad h' hh' hbad
    · exact hr hbad

/-- To collect unknown blocks files them among the bad. -/
theorem Filed.collectBadTurns (hq : Filed B S q) (turns : Nat) (l : List H256) : Filed B S (collectBadTurns L turns l q) := by
  induction turns generalizing l q with
  | zero => exact hq
  | succ turns ih =>
    cases l with
    | nil => exact hq
    | cons h l => exact ih (hq.badTurn h) _

/-- A block leaves the deques as bad. -/
theorem Filed.remove {pre post : List UnverifiedBlock} {w : UnverifiedBlock} (hq : Filed B (pre ++ w :: post) q)
    (hready : q'.m_readySet = q.m_readySet.erase w.hash) (hunknownSet : q'.m_unknownSet = q.m_unknownSet)
    (hunknown : q'.m_unknown = q.m_unknown) (hdraining : q'.m_drainingSet = q.m_drainingSet)
    (hbad : q'.m_knownBad = insert w.hash q.m_knownBad) : Filed B (pre ++ post) q' := by
  have hperm : ((pre ++ w :: post).map UnverifiedBlock.hash).Perm (w.hash :: (pre ++ post).map UnverifiedBlock.hash) := by
    rw [← List.map_cons (f := UnverifiedBlock.hash)]
    exact List.perm_middle.map _
  obtain ⟨hout, hnodup⟩ := List.nodup_cons.mp (hperm.nodup_iff.mp hq.nodup)
  have hin : w.hash ∈ q.m_readySet := (hq.ready _).mpr (hperm.mem_iff.mpr List.mem_cons_self)
  constructor
  case nodup => exact hnodup
  case ready =>
    intro h
    rw [hready, Finset.mem_erase, hq.ready h, hperm.mem_iff, List.mem_cons]
    refine ⟨fun ⟨h1, h2⟩ => h2.resolve_left h1, fun h1 => ⟨?_, .inr h1⟩⟩
    rintro rfl
    exact hout h1
  case unknownNodup => rw [hunknown]; exact hq.unknownNodup
  case unknown => rw [hunknown, hunknownSet]; exact hq.unknown
  case readyDraining =>
    rw [hready, hdraining]
    exact fun h hh => hq.readyDraining h (Finset.mem_of_mem_erase hh)
  case readyUnknown =>
    rw [hready, hunknownSet]
    exact fun h hh => hq.readyUnknown h (Finset.mem_of_mem_erase hh)
  case readyBad =>
    rw [hready, hbad]
    intro h hh hb
    obtain ⟨hne, hh⟩ := Finset.mem_erase.mp hh
    exact hq.readyBad h hh ((Finset.mem_insert.mp hb).resolve_left hne)
  case drainingUnknown => rw [hdraining, hunknownSet]; exact hq.drainingUnknown
  case drainingBad =>
    rw [hdraining, hbad]
    intro h hh hb
    rcases Finset.mem_insert.mp hb with rfl | hb
    · exact hq.readyDraining _ hin hh
    · exact hq.drainingBad h hh hb
  case unknownBad =>
    rw [hunknownSet, hbad]
    intro h hh hb
    rcases Finset.mem_insert.mp hb with rfl | hb
    · exact hq.readyUnknown _ hin hh
    · exact hq.unknownBad h hh hb

/-- A sweep over a part of the deques. -/
theorem Filed.sweep {α : Type} (parent own hash : α → H256) (work : α → UnverifiedBlock) (old : List α)
    (pre post : List UnverifiedBlock) (hhash : ∀ b ∈ old, hash b = (work b).hash) (hq : Filed B (pre ++ old.map work ++ post) q) :
    Filed B (pre ++ (sweep L parent own hash old q).1.map work ++ post) (sweep L parent own hash old q).2.2 := by
  induction old generalizing pre q with
  | nil => exact hq
  | cons b old ih =>
    have hold : ∀ b ∈ old, hash b = (work b).hash := fun b hb => hhash b (List.mem_cons_of_mem _ hb)
    rw [BlockQueue.sweep]
    split
    · refine ih pre hold ?_
      rw [List.map_cons, List.append_assoc, List.cons_append] at hq
      rw [List.append_assoc, hhash b List.mem_cons_self]
      have hmark : Filed B (pre ++ (old.map work ++ post)) (q.markBad (work b).hash) := hq.remove rfl rfl rfl rfl rfl
      exact hmark.collectBadTurns _ _
    · have hsplit : ∀ l : List UnverifiedBlock, pre ++ (work b :: l) ++ post = pre ++ [work b] ++ l ++ post := by simp
      rw [List.map_cons, hsplit] at hq
      simp only [List.map_cons, hsplit]
      exact ih (pre ++ [work b]) hold hq

/-- What is swept out of the verified blocks is filed among the bad. -/
theorem Filed.sweepVerified (hs : Shaped L q) (hq : Filed B q.blocks q) :
    Filed B (q.sweepVerified L).2.blocks (q.sweepVerified L).2 := by
  have hd := sameDeques_sweep (L := L) (fun b : VerifiedBlock => b.info.parentHash) (fun b => b.info.hash)
    (fun b => b.info.hash) q.m_verified q
  have hfiled := Filed.sweep (L := L) (fun b : VerifiedBlock => b.info.parentHash) (fun b => b.info.hash)
    (fun b => b.info.hash) VerifiedBlock.work q.m_verified [] (q.m_verifying.map VerifiedBlock.work ++ q.m_unverified)
    (fun v hv => (hs.verified v hv).hash) (by rw [List.nil_append, ← List.append_assoc]; exact hq)
  refine hfiled.congr ?_ rfl rfl rfl rfl rfl
  simp only [BlockQueue.sweepVerified, blocks, hd.verifying, hd.unverified, List.nil_append, List.append_assoc]

/-- So is what is swept out of the unverified ones. -/
theorem Filed.sweepUnverified (hq : Filed B q.blocks q) : Filed B (q.sweepUnverified L).2.blocks (q.sweepUnverified L).2 := by
  have hd := sameDeques_sweep (L := L) (fun b : UnverifiedBlock => b.parentHash) (fun b => b.hash) (fun b => b.hash)
    q.m_unverified q
  have hfiled := Filed.sweep (L := L) (fun b : UnverifiedBlock => b.parentHash) (fun b => b.hash) (fun b => b.hash) id
    q.m_unverified (q.m_verified.map VerifiedBlock.work ++ q.m_verifying.map VerifiedBlock.work) []
    (fun _ _ => rfl) (by rw [List.map_id, List.append_nil]; exact hq)
  refine hfiled.congr ?_ rfl rfl rfl rfl rfl
  simp only [BlockQueue.sweepUnverified, blocks, hd.verified, hd.verifying, List.map_id, List.append_nil]

/-- A block that waits has the hash of its job. -/
theorem verifyingHash_eq {v : VerifiedBlock} (h : Complete L v ∨ Pending L v) : verifyingHash v = v.work.hash := by
  rw [verifyingHash]
  rcases h with h | h
  · rw [if_pos h.data_ne_nil, h.hash]
  · rw [if_neg (not_not.mpr h.data), h.sha3Uncles]

/-- So is what is swept out of those that wait. -/
theorem Filed.sweepVerifying (hs : Shaped L q) (hq : Filed B q.blocks q) :
    Filed B (q.sweepVerifying L).2.blocks (q.sweepVerifying L).2 := by
  have hd := sameDeques_sweep (L := L) (fun b : VerifiedBlock => b.info.parentHash) (fun b => b.info.sha3Uncles)
    verifyingHash q.m_verifying q
  have hfiled := Filed.sweep (L := L) (fun b : VerifiedBlock => b.info.parentHash) (fun b => b.info.sha3Uncles)
    verifyingHash VerifiedBlock.work q.m_verifying (q.m_verified.map VerifiedBlock.work) q.m_unverified
    (fun v hv => verifyingHash_eq (hs.verifying v hv)) hq
  refine hfiled.congr ?_ rfl rfl rfl rfl rfl
  simp only [BlockQueue.sweepVerifying, blocks, hd.verified, hd.unverified]

/-- One turn files what it sweeps out. -/
theorem Filed.updateBadTurn (hs : Shaped L q) (hq : Filed B q.blocks q) :
    Filed B (q.updateBadTurn L).2.blocks (q.updateBadTurn L).2 := by
  have h₁ := hq.sweepVerified hs
  have hs₁ := hs.purged (stage_verified (L := L) q).purged
  have h₂ := h₁.sweepUnverified (L := L)
  have hs₂ := hs₁.purged (stage_unverified (L := L) _).purged
  exact h₂.sweepVerifying hs₂

/-- So do all turns. -/
theorem Filed.updateBadTurns (hs : Shaped L q) (hq : Filed B q.blocks q) (turns : Nat) :
    Filed B (updateBadTurns L turns q).blocks (updateBadTurns L turns q) := by
  induction turns generalizing q with
  | zero => exact hq
  | succ turns ih =>
    have hturn := hq.updateBadTurn hs
    have hs' := hs.purged (stage_updateBadTurn (L := L) q).purged
    simp only [BlockQueue.updateBadTurns]
    split
    · exact ih hs' hturn
    · exact hturn

/-- A purge files what it finds bad. -/
theorem Filed.updateBad (hs : Shaped L q) (hq : Filed B q.blocks q) (h : H256) :
    Filed B (updateBad_WITH_LOCK L q h).blocks (updateBad_WITH_LOCK L q h) := by
  have hd := sameDeques_collectBadTurns (L := L) (q.m_unknown.length + 1) [h] q
  have hcollect : Filed B (collectUnknownBad_WITH_BOTH_LOCKS L h q).blocks (collectUnknownBad_WITH_BOTH_LOCKS L h q) := by
    rw [collectUnknownBad_WITH_BOTH_LOCKS, blocks_congr (q := q) hd.verified hd.verifying hd.unverified]
    exact hq.collectBadTurns _ _
  exact hcollect.updateBadTurns (hs.purged (purged_collect (L := L) h q)) _

/-! ## Steps -/

/-- The sets are right. -/
def Kept (q : BlockQueue) : Prop := Filed ∅ q.blocks q

/-- Blocks with unknown parents go into `m_unverified`. -/
theorem Kept.unknown_to_blocks (hq : Kept q) {r rest : List UnknownBlock} (hperm : (r ++ rest).Perm q.m_unknown)
    (hunknown : q'.m_unknown = rest) (hblocks : q'.blocks = q.blocks ++ r.map UnknownBlock.job)
    (hunknownSet : q'.m_unknownSet = q.m_unknownSet \ (r.map UnknownBlock.hash).toFinset)
    (hready : q'.m_readySet = q.m_readySet ∪ (r.map UnknownBlock.hash).toFinset)
    (hdraining : q'.m_drainingSet = q.m_drainingSet) (hbad : q'.m_knownBad = q.m_knownBad) : Kept q' := by
  obtain ⟨hnodup, hrest⟩ := hq.unknown_split hperm
  have hhashes := hperm.map UnknownBlock.hash
  rw [List.map_append] at hhashes
  have hjob : (r.map UnknownBlock.job).map UnverifiedBlock.hash = r.map UnknownBlock.hash := by
    rw [List.map_map]
    rfl
  have hmem : ∀ h ∈ r.map UnknownBlock.hash, h ∈ q.m_unknownSet := fun h hh =>
    (hq.unknown h).mpr (hhashes.mem_iff.mp (List.mem_append_left _ hh))
  have hin : ∀ h ∈ q'.m_readySet, h ∈ q.m_readySet ∨ h ∈ q.m_unknownSet ∧ h ∈ r.map UnknownBlock.hash := by
    intro h hh
    rw [hready, Finset.mem_union, List.mem_toFinset] at hh
    exact hh.imp id fun hr => ⟨hmem h hr, hr⟩
  constructor
  case nodup =>
    rw [hblocks, List.map_append, hjob]
    refine List.nodup_append.mpr ⟨hq.nodup, (List.nodup_append.mp (hhashes.nodup_iff.mpr hq.unknownNodup)).1, ?_⟩
    rintro h hh h' hh' rfl
    exact hq.readyUnknown h ((hq.ready h).mpr hh) (hmem h hh')
  case ready =>
    intro h
    rw [hready, hblocks, List.map_append, hjob, Finset.mem_union, List.mem_toFinset, hq.ready h, List.mem_append]
  case unknownNodup => rw [hunknown]; exact hnodup
  case unknown => rw [hunknown, hunknownSet]; exact hrest
  case readyDraining =>
    rw [hdraining]
    intro h hh hd
    rcases hin h hh with hh | ⟨hh, -⟩
    · exact hq.readyDraining h hh hd
    · exact hq.drainingUnknown h hd hh
  case readyUnknown =>
    rw [hunknownSet]
    intro h hh hu
    obtain ⟨hu, hr⟩ := Finset.mem_sdiff.mp hu
    rcases hin h hh with hh | ⟨-, hh⟩
    · exact hq.readyUnknown h hh hu
    · exact hr (List.mem_toFinset.mpr hh)
  case readyBad =>
    rw [hbad]
    intro h hh hb
    rcases hin h hh with hh | ⟨hh, -⟩
    · exact hq.readyBad h hh hb
    · exact absurd hb (hq.unknownBad h hh)
  case drainingUnknown =>
    rw [hdraining, hunknownSet]
    exact fun h hd hu => hq.drainingUnknown h hd (Finset.mem_sdiff.mp hu).1
  case drainingBad => rw [hdraining, hbad]; exact hq.drainingBad
  case unknownBad =>
    rw [hunknownSet, hbad]
    exact fun h hu => hq.unknownBad h (Finset.mem_sdiff.mp hu).1

/-- Blocks that become ready move from one set to the other. -/
theorem Kept.readyTurn (hq : Kept q) (h : H256) : Kept (readyTurn L q h) := by
  rw [BlockQueue.readyTurn, foldl_unknownIsReady]
  exact hq.unknown_to_blocks (equalRange_perm (L := L) q h) rfl (blocks_push rfl rfl rfl) rfl rfl rfl rfl

/-- A retry moves all unknown blocks over. -/
theorem Kept.retryAllUnknown (hq : Kept q) : Kept (q.retryAllUnknown L) := by
  have hperm : (L.order q.m_unknown ++ []).Perm q.m_unknown := by
    rw [List.append_nil]
    exact L.order_perm _
  rw [BlockQueue.retryAllUnknown, foldl_retryUnknown]
  exact hq.unknown_to_blocks hperm rfl (blocks_push rfl rfl rfl) rfl rfl rfl rfl

/-- A block of unknown parent is new to the sets. -/
theorem Kept.enterUnknown (hq : Kept q) {bi : QueuedHeader} (b : Bytes) (hnew : q.Unheard bi.hash) : Kept (q.enterUnknown bi b) := by
  constructor
  case nodup => exact hq.nodup
  case ready => exact hq.ready
  case unknownNodup =>
    rw [BlockQueue.enterUnknown, List.map_append]
    refine List.nodup_append.mpr ⟨hq.unknownNodup, List.nodup_singleton _, ?_⟩
    rintro h hh h' hh' rfl
    rw [List.mem_singleton.mp hh', ← hq.unknown] at hh
    exact hnew.unknown hh
  case unknown =>
    intro h
    simp only [BlockQueue.enterUnknown, Finset.mem_insert, List.map_append, List.mem_append, hq.unknown h, List.map_singleton,
      List.mem_singleton]
    exact or_comm
  case readyDraining => exact hq.readyDraining
  case readyUnknown =>
    intro h hh hu
    rcases Finset.mem_insert.mp hu with rfl | hu
    · exact hnew.ready hh
    · exact hq.readyUnknown h hh hu
  case readyBad => exact hq.readyBad
  case drainingUnknown =>
    intro h hh hu
    rcases Finset.mem_insert.mp hu with rfl | hu
    · exact hnew.draining hh
    · exact hq.drainingUnknown h hh hu
  case drainingBad => exact hq.drainingBad
  case unknownBad =>
    intro h hu hb
    rcases Finset.mem_insert.mp hu with rfl | hu
    · exact hnew.bad hb
    · exact hq.unknownBad h hu hb

/-- A block that is ready is new to the sets. -/
theorem Kept.enterReady (hq : Kept q) {bi : QueuedHeader} (b : Bytes) (parentInChain : Bool) (hnew : q.Unheard bi.hash) :
    Kept (q.enterReady bi b parentInChain) := by
  have hblocks : (q.enterReady bi b parentInChain).blocks = q.blocks ++ [⟨bi.hash, bi.parentHash, b, parentInChain⟩] :=
    blocks_push rfl rfl rfl
  have hin : ∀ h ∈ (q.enterReady bi b parentInChain).m_readySet, h = bi.hash ∨ h ∈ q.m_readySet := fun h hh =>
    Finset.mem_insert.mp hh
  constructor
  case nodup =>
    rw [hblocks, List.map_append]
    refine List.nodup_append.mpr ⟨hq.nodup, List.nodup_singleton _, ?_⟩
    rintro h hh h' hh' rfl
    rw [List.mem_singleton.mp hh', ← hq.ready] at hh
    exact hnew.ready hh
  case ready =>
    intro h
    rw [hblocks, List.map_append, List.mem_append, ← hq.ready h, List.map_singleton, List.mem_singleton]
    exact Finset.mem_insert.trans or_comm
  case unknownNodup => exact hq.unknownNodup
  case unknown => exact hq.unknown
  case readyDraining =>
    intro h hh hd
    rcases hin h hh with rfl | hh
    · exact hnew.draining hd
    · exact hq.readyDraining h hh hd
  case readyUnknown =>
    intro h hh hu
    rcases hin h hh with rfl | hh
    · exact hnew.unknown hu
    · exact hq.readyUnknown h hh hu
  case readyBad =>
    intro h hh hb
    rcases hin h hh with rfl | hh
    · exact absurd hb hnew.bad
    · exact hq.readyBad h hh hb
  case drainingUnknown => exact hq.drainingUnknown
  case drainingBad => exact hq.drainingBad
  case unknownBad => exact hq.unknownBad

/-- A hash that the queue holds nowhere becomes bad. -/
theorem Filed.insertBad (hq : Filed B S q) {h : H256} (hready : h ∉ q.m_readySet) (hdraining : h ∉ q.m_drainingSet)
    (hunknown : h ∉ q.m_unknownSet) : Filed B S (q.enterBad h) := by
  constructor
  case nodup => exact hq.nodup
  case ready => exact hq.ready
  case unknownNodup => exact hq.unknownNodup
  case unknown => exact hq.unknown
  case readyDraining => exact hq.readyDraining
  case readyUnknown => exact hq.readyUnknown
  case readyBad =>
    intro h' hh hb
    rcases Finset.mem_insert.mp hb with rfl | hb
    · exact absurd hh hready
    · exact hq.readyBad h' hh hb
  case drainingUnknown => exact hq.drainingUnknown
  case drainingBad =>
    intro h' hh hb
    rcases Finset.mem_insert.mp hb with rfl | hb
    · exact hdraining hh
    · exact hq.drainingBad h' hh hb
  case unknownBad =>
    intro h' hh hb
    rcases Finset.mem_insert.mp hb with rfl | hb
    · exact hunknown hh
    · exact hq.unknownBad h' hh hb

/-- An imported block is new to the sets. -/
theorem Kept.imported (hs : Shaped L q) (hq : Kept q) {bi : QueuedHeader} {b : Bytes} {parentInChain : Bool}
    (hnew : q.Unheard bi.hash) (h : Imported L q bi b parentInChain q') : Kept q' := by
  cases h with
  | future => exact hq.congr rfl rfl rfl rfl rfl rfl
  | bad _ =>
    have hs' : Shaped L (q.enterBad bi.hash) :=
      ⟨hs.verified, hs.verifying, hs.unverified, hs.working, hs.unknown, hs.draining⟩
    have hbad : Kept (q.enterBad bi.hash) := hq.insertBad hnew.ready hnew.draining hnew.unknown
    exact hbad.updateBad hs' bi.hash
  | unknown _ _ => exact hq.enterUnknown b hnew
  | ready _ _ =>
    refine noteReady_induct (I := Kept) (fun q h hq _ => hq.readyTurn h) ?_ (Finset.mem_insert_self _ _)
    exact hq.enterReady b parentInChain hnew

/-- An import keeps the bookkeeping. -/
theorem Kept.import (hs : Shaped L q) (hq : Kept q) (b : Bytes) (isOurs : Bool) (now : Nat) (inChain parentInChain : Bool) :
    Kept (q.import L b isOurs now inChain parentInChain).2 := by
  rcases import_cases (L := L) b isOurs now inChain parentInChain q with h | ⟨bi, -, -, hnew, h⟩
  · rw [h]
    exact hq
  · exact hq.imported hs hnew h

/-- To take a job changes no set. -/
theorem Kept.takeJob (hq : Kept q) : Kept q.takeJob := by
  have hblocks := blocks_takeJob q
  rw [Kept, hblocks]
  rw [BlockQueue.takeJob]
  cases q.m_unverified with
  | nil => exact hq
  | cons work l => exact hq.congr rfl rfl rfl rfl rfl rfl

/-- A bad block that is dropped leaves its set. -/
theorem Kept.popBad (hs : Shaped L q) (hq : Kept q) {b : VerifiedBlock} {l : List VerifiedBlock} (hl : q.m_verifying = b :: l)
    (hb : b.blockData ≠ []) : Kept (q.popBad b l) := by
  have hhash : b.info.hash = b.work.hash := by
    rcases hs.verifying b (hl ▸ List.mem_cons_self) with hc | hp
    · exact hc.hash
    · exact absurd hp.data hb
  have hblocks : q.blocks = q.m_verified.map VerifiedBlock.work ++ b.work :: (l.map VerifiedBlock.work ++ q.m_unverified) := by
    rw [blocks, hl, List.map_cons, List.append_assoc, List.cons_append]
  have hblocks' : (q.popBad b l).blocks = q.m_verified.map VerifiedBlock.work ++ (l.map VerifiedBlock.work ++ q.m_unverified) :=
    List.append_assoc _ _ _
  rw [Kept, hblocks] at hq
  rw [Kept, hblocks']
  refine hq.remove ?_ rfl rfl rfl ?_
  · rw [← hhash]
    rfl
  · rw [← hhash]
    rfl

/-- A good block stays in its set. -/
theorem Kept.popGood (hq : Kept q) {b : VerifiedBlock} {l : List VerifiedBlock} (hl : q.m_verifying = b :: l) :
    Kept (q.popGood b l) := by
  rw [Kept, blocks_popGood hl]
  exact hq.congr rfl rfl rfl rfl rfl rfl

/-- To drain what is verified keeps the bookkeeping. -/
theorem Kept.drainVerified (hs : Shaped L q) (hq : Kept q) : Kept q.drainVerified_WITH_BOTH_LOCKS := by
  refine (drainVerified_induct (I := fun q => Shaped L q ∧ Kept q) ?_ ?_ ⟨hs, hq⟩).2
  · exact fun q b l ⟨hs, hq⟩ hl hb _ => ⟨hs.popBad hl, hq.popBad hs hl hb⟩
  · exact fun q b l ⟨hs, hq⟩ hl hb _ => ⟨hs.popGood hl hb, hq.popGood hl⟩

/-- A verifier reports that the block of its job is bad. Either the block is still in `m_verifying`, or the queue holds no block
with its hash. -/
theorem Kept.failJob (hs : Shaped L q) (hq : Kept q) {work : UnverifiedBlock} (hwork : IsJob L work)
    (hfresh : (∃ v ∈ q.m_verifying, v.info.sha3Uncles = work.hash) ∨
      work.hash ∉ q.m_readySet ∧ work.hash ∉ q.m_drainingSet ∧ work.hash ∉ q.m_unknownSet) : Kept (q.failJob work) := by
  by_cases hfound : ∃ v ∈ q.m_verifying, v.info.sha3Uncles = work.hash
  · obtain ⟨v, hv, hhash⟩ := hfound
    obtain ⟨v, l₁, l₂, -, hp, heq, herase⟩ :=
      List.exists_of_eraseP (p := fun b : VerifiedBlock => b.info.sha3Uncles = work.hash) hv (decide_eq_true hhash)
    have hv : v ∈ q.m_verifying := heq ▸ List.mem_append_right _ List.mem_cons_self
    have hsame := (hs.hash_of_sha3Uncles hv hwork (of_decide_eq_true hp)).2
    have hblocks : q.blocks = q.m_verified.map VerifiedBlock.work ++ l₁.map VerifiedBlock.work ++
        v.work :: (l₂.map VerifiedBlock.work ++ q.m_unverified) := by
      simp only [blocks, heq, List.map_append, List.map_cons, List.append_assoc, List.cons_append]
    have hblocks' : (q.failJob work).blocks = q.m_verified.map VerifiedBlock.work ++ l₁.map VerifiedBlock.work ++
        (l₂.map VerifiedBlock.work ++ q.m_unverified) := by
      simp only [blocks, BlockQueue.failJob, herase, List.map_append, List.append_assoc]
    rw [Kept, hblocks] at hq
    rw [Kept, hblocks']
    refine hq.remove ?_ rfl rfl rfl ?_
    · rw [hsame]
      rfl
    · rw [hsame]
      rfl
  · obtain ⟨hready, hdraining, hunknown⟩ := hfresh.resolve_left hfound
    have herase : (q.failJob work).m_verifying = q.m_verifying :=
      List.eraseP_of_forall_not fun v hv hp => hfound ⟨v, hv, of_decide_eq_true hp⟩
    have hbad : Filed ∅ q.blocks (q.enterBad work.hash) := hq.insertBad hready hdraining hunknown
    have hblocks : (q.failJob work).blocks = q.blocks := blocks_congr rfl herase rfl
    rw [Kept, hblocks]
    exact hbad.congr rfl (Finset.erase_eq_of_notMem hready) rfl rfl rfl rfl

/-- A placeholder that is filled keeps its hash. -/
theorem Kept.fill (hs : Shaped L q) (hq : Kept q) {work : UnverifiedBlock} (info : QueuedHeader) (hwork : IsJob L work) :
    Kept (q.fill work info) := by
  have hhash := (replaceFirst_headers (L := L) (p := fun b => b.info.sha3Uncles = work.hash)
    (b := ⟨info, work.block, work⟩) (l := q.m_verifying) fun v hv hp => hs.same_header hwork hv (of_decide_eq_true hp)).1
  refine hq.congr ?_ rfl rfl rfl rfl rfl
  simp only [blocks, BlockQueue.fill, List.map_append, List.map_map, Function.comp_def, hhash]

/-- What is drained changes its set. -/
theorem Kept.drain (hs : Shaped L q) (hq : Kept q) (max : Nat) : Kept (q.drain max) := by
  rw [BlockQueue.drain]
  by_cases hempty : q.m_drainingSet = ∅
  · rw [if_pos hempty, foldl_drainOne]
    have hhash : (q.m_verified.take max).map (fun b => b.info.hash) =
        ((q.m_verified.take max).map VerifiedBlock.work).map UnverifiedBlock.hash := by
      rw [List.map_map]
      exact List.map_congr_left fun v hv => (hs.verified v (List.mem_of_mem_take hv)).hash
    have hsplit := congrArg (List.map UnverifiedBlock.hash) (blocks_eq_take_append q max)
    rw [List.map_append, ← hhash] at hsplit
    obtain ⟨-, hrest, hne⟩ := List.nodup_append.mp (hsplit ▸ hq.nodup)
    have hout : ∀ h ∈ ((q.m_verified.take max).map fun b => b.info.hash).toFinset, h ∈ q.m_readySet := by
      intro h hh
      rw [hq.ready h, hsplit]
      exact List.mem_append_left _ (List.mem_toFinset.mp hh)
    constructor
    case nodup => exact hrest
    case ready =>
      intro h
      rw [Finset.mem_sdiff, hq.ready h, hsplit, List.mem_append, List.mem_toFinset]
      exact ⟨fun hh => hh.1.resolve_left hh.2, fun h1 => ⟨.inr h1, fun h2 => hne h h2 h h1 rfl⟩⟩
    case unknownNodup => exact hq.unknownNodup
    case unknown => exact hq.unknown
    case readyDraining =>
      intro h hh hd
      rw [hempty, Finset.empty_union] at hd
      exact (Finset.mem_sdiff.mp hh).2 hd
    case readyUnknown => exact fun h hh => hq.readyUnknown h (Finset.mem_sdiff.mp hh).1
    case readyBad => exact fun h hh => hq.readyBad h (Finset.mem_sdiff.mp hh).1
    case drainingUnknown =>
      intro h hd
      rw [hempty, Finset.empty_union] at hd
      exact hq.readyUnknown h (hout h hd)
    case drainingBad =>
      intro h hd hb
      rw [hempty, Finset.empty_union] at hd
      exact absurd (hq.readyBad h (hout h hd) hb) (Finset.notMem_empty h)
    case unknownBad => exact hq.unknownBad
  · rw [if_neg hempty]
    exact hq

/-- The state in which `doneDrain` starts to let bad blocks leave. -/
def settleDrain (q : BlockQueue) (bad : List H256) : BlockQueue :=
  { q with
    m_drainingSet := ∅
    m_difficulty := q.m_difficulty - q.m_drainingDifficulty
    m_drainingDifficulty := 0
    draining := []
    m_knownBad := q.m_knownBad ∪ bad.toFinset }

/-- What is done is settled, the bad among the bad. -/
theorem Kept.settleDrain (hq : Kept q) (bad : List H256) (hunknown : ∀ h ∈ bad, h ∉ q.m_unknownSet) :
    Filed bad.toFinset (q.settleDrain bad).blocks (q.settleDrain bad) := by
  constructor
  case nodup => exact hq.nodup
  case ready => exact hq.ready
  case unknownNodup => exact hq.unknownNodup
  case unknown => exact hq.unknown
  case readyDraining => exact fun h _ => Finset.notMem_empty h
  case readyUnknown => exact hq.readyUnknown
  case readyBad =>
    intro h hh hb
    rcases Finset.mem_union.mp hb with hb | hb
    · exact absurd (hq.readyBad h hh hb) (Finset.notMem_empty h)
    · exact hb
  case drainingUnknown => exact fun h hd => absurd hd (Finset.notMem_empty h)
  case drainingBad => exact fun h hd => absurd hd (Finset.notMem_empty h)
  case unknownBad =>
    intro h hu hb
    rcases Finset.mem_union.mp hb with hb | hb
    · exact hq.unknownBad h hu hb
    · exact hunknown h (List.mem_toFinset.mp hb) hu

/-- After `updateBad_WITH_LOCK` only a block that is verified and waits in `m_verifying` can be ready and bad. -/
theorem Filed.kept (hs : Shaped L q) (hq : Filed B q.blocks q) (hbad : NoBad q)
    (hwait : ∀ v ∈ q.m_verifying, v.blockData ≠ [] → v.info.hash ∉ B) : Kept q := by
  refine ⟨hq.nodup, hq.ready, hq.unknownNodup, hq.unknown, hq.readyDraining, hq.readyUnknown, ?_, hq.drainingUnknown,
    hq.drainingBad, hq.unknownBad⟩
  intro h hh hb
  exfalso
  obtain ⟨w, hw, rfl⟩ := List.mem_map.mp ((hq.ready h).mp hh)
  rcases List.mem_append.mp hw with hw | hw
  · rcases List.mem_append.mp hw with hw | hw
    · obtain ⟨v, hv, rfl⟩ := List.mem_map.mp hw
      exact (hbad.verified v hv).2 ((hs.verified v hv).hash ▸ hb)
    · obtain ⟨v, hv, rfl⟩ := List.mem_map.mp hw
      rcases hs.verifying v hv with hc | hp
      · refine hwait v hv hc.data_ne_nil ?_
        rw [hc.hash]
        exact hq.readyBad _ hh hb
      · exact (hbad.verifying v hv).2 (hp.sha3Uncles ▸ hb)
  · exact (hbad.unverified w hw).2 hb

/-- What `doneDrain` keeps, and that there is no bad block left if it was told of one. -/
theorem foldl_updateBad (hs : Shaped L q) (hq : Filed B q.blocks q) (bad : List H256) :
    Filed B (bad.foldl (updateBad_WITH_LOCK L) q).blocks (bad.foldl (updateBad_WITH_LOCK L) q) ∧
      Purged q (bad.foldl (updateBad_WITH_LOCK L) q) ∧ (bad ≠ [] → NoBad (bad.foldl (updateBad_WITH_LOCK L) q)) := by
  induction bad generalizing q with
  | nil => exact ⟨hq, Purged.refl q, fun h => absurd rfl h⟩
  | cons h bad ih =>
    obtain ⟨hpurged, hnobad⟩ := updateBad_spec (L := L) q h
    obtain ⟨h1, h2, h3⟩ := ih (hs.purged hpurged) (hq.updateBad hs h)
    refine ⟨h1, hpurged.trans h2, fun _ => ?_⟩
    cases bad with
    | nil => exact hnobad
    | cons h' bad => exact h3 (List.cons_ne_nil _ _)

theorem Kept.doneDrain (hs : Shaped L q) (hq : Kept q) {bad : List H256}
    (hfresh : ∀ h ∈ bad, h ∈ q.m_drainingSet ∨
      h ∉ q.m_unknownSet ∧ ∀ v ∈ q.m_verifying, v.blockData ≠ [] → v.info.hash ≠ h) : Kept (q.doneDrain L bad) := by
  have hs' : Shaped L (q.settleDrain bad) :=
    ⟨hs.verified, hs.verifying, hs.unverified, hs.working, hs.unknown, fun v hv => absurd hv List.not_mem_nil⟩
  have hfiled := hq.settleDrain bad fun h hh => by
    rcases hfresh h hh with hd | ⟨hu, -⟩
    · exact hq.drainingUnknown h hd
    · exact hu
  obtain ⟨h1, h2, h3⟩ := foldl_updateBad hs' hfiled bad
  change Kept (bad.foldl (updateBad_WITH_LOCK L) (q.settleDrain bad))
  cases bad with
  | nil => exact h1
  | cons h bad =>
    refine h1.kept (hs'.purged h2) (h3 (List.cons_ne_nil _ _)) ?_
    intro v hv hdata hB
    have hv : v ∈ q.m_verifying := h2.verifying.subset hv
    rcases hfresh v.info.hash (List.mem_toFinset.mp hB) with hd | ⟨-, hne⟩
    · refine hq.readyDraining _ ((hq.ready _).mpr ?_) hd
      rcases hs.verifying v hv with hc | hp
      · rw [hc.hash]
        exact List.mem_map_of_mem (List.mem_append_left _ (List.mem_append_right _ (List.mem_map_of_mem hv)))
      · exact absurd hp.data hdata
    · exact hne v hv hdata rfl

/-- The conditions under which a step keeps the sets right. A bad report is for a block that is still in `m_verifying`, or for one
of whose hash the queue holds no block; a hash reported to `doneDrain` is still being drained, or it is neither that of a block
with an unknown parent nor that of a verified block that waits in `m_verifying`. -/
def Fresh (q : BlockQueue) (s : Step) : Prop :=
  (∀ i work, s = .report i false → q.working[i]? = some work →
    (∃ v ∈ q.m_verifying, v.info.sha3Uncles = work.hash) ∨
      work.hash ∉ q.m_readySet ∧ work.hash ∉ q.m_drainingSet ∧ work.hash ∉ q.m_unknownSet) ∧
  ∀ bad, s = .doneDrain bad → ∀ h ∈ bad, h ∈ q.m_drainingSet ∨
    h ∉ q.m_unknownSet ∧ ∀ v ∈ q.m_verifying, v.blockData ≠ [] → v.info.hash ≠ h

/-- A report keeps the bookkeeping, if it is about what waits. -/
theorem Kept.report (hs : Shaped L q) (hq : Kept q) (i : Nat) (good : Bool) (hfresh : Fresh q (.report i good)) :
    Kept (next L q (.report i good)) := by
  rcases report_cases hs i good with h | ⟨work, hwork, h⟩
  · rw [h]
    exact hq
  · have hjob := hs.working work (List.mem_of_getElem? hwork)
    have hdrop : Kept (q.dropJob i) := hq.congr rfl rfl rfl rfl rfl rfl
    have hs' := hs.dropJob i
    generalize next L q (.report i good) = q' at h ⊢
    cases h with
    | failure hbad =>
      cases good with
      | true =>
        obtain ⟨bi, hbi, -, -⟩ := hjob
        exact absurd ⟨rfl, bi, hbi⟩ hbad
      | false => exact (hdrop.failJob hs' hjob (hfresh.1 i work rfl hwork)).drainVerified (hs'.failJob work)
    | filled info _ _ => exact hdrop.fill hs' info hjob
    | success info _ hinfo => exact (hdrop.fill hs' info hjob).drainVerified (hs'.fill hjob hinfo)

/-- Every step keeps the bookkeeping under its condition. -/
theorem Kept.next (hs : Shaped L q) (hq : Kept q) (s : Step) (hfresh : Fresh q s) : Kept (next L q s) := by
  cases s with
  | «import» b isOurs now inChain parentInChain => exact hq.import hs b isOurs now inChain parentInChain
  | tick now => exact hq.congr rfl rfl rfl rfl rfl rfl
  | tickImport i now inChain parentInChain =>
    rw [BlockQueue.next]
    split
    · exact hq
    · have hdrop : Kept (q.dropTodo i) := hq.congr rfl rfl rfl rfl rfl rfl
      refine Kept.import (L := L) ?_ hdrop _ _ _ _ _
      exact ⟨hs.verified, hs.verifying, hs.unverified, hs.working, hs.unknown, hs.draining⟩
  | takeJob => exact hq.takeJob
  | report i good => exact hq.report hs i good hfresh
  | drain max => exact hq.drain hs max
  | doneDrain bad => exact hq.doneDrain hs (hfresh.2 bad rfl)
  | retryAllUnknown => exact hq.retryAllUnknown
  | clear =>
    exact ⟨List.nodup_nil, fun h => by simp [BlockQueue.next, BlockQueue.clear, blocks], List.nodup_nil,
      fun h => by simp [BlockQueue.next, BlockQueue.clear], fun h _ => Finset.notMem_empty h, fun h _ => Finset.notMem_empty h,
      fun h hh => absurd hh (Finset.notMem_empty h), fun h _ => Finset.notMem_empty h,
      fun h hh => absurd hh (Finset.notMem_empty h), fun h hh => absurd hh (Finset.notMem_empty h)⟩

/-- In an empty queue all is kept. -/
theorem Kept.new : Kept new :=
  ⟨List.nodup_nil, fun h => by simp [BlockQueue.new, blocks], List.nodup_nil, fun h => by simp [BlockQueue.new],
    fun h _ => Finset.notMem_empty h, fun h _ => Finset.notMem_empty h, fun h hh => absurd hh (Finset.notMem_empty h),
    fun h _ => Finset.notMem_empty h, fun h _ => Finset.notMem_empty h, fun h _ => Finset.notMem_empty h⟩

/-- So do runs of such steps. -/
theorem Kept.of_reach (h : Reach (BlockQueue.next L) Fresh BlockQueue.new q) : Kept q := by
  refine (Reach.invariant (P := fun q => Shaped L q ∧ Kept q) ⟨Shaped.new, Kept.new⟩ ?_ h).2
  exact fun q s ⟨hs, hq⟩ hfresh => ⟨hs.next s, hq.next hs s hfresh⟩

end BlockQueue

end Webthree
