import Webthree.Lemmas.BlockQueueSets

/-!
# The order of the block queue

Without `clear` every verifier at work has its placeholder, unless its block has become bad. The blocks that have been handed out
and those of the deques are in the order in which they came, each behind its parent.
-/

namespace Webthree

namespace BlockQueue

variable {L : Library} {q q' : BlockQueue}

/-! ## Jobs -/

/-- A verifier at work has its placeholder in `m_verifying`, unless its block has become bad, and a placeholder has its verifier. -/
structure Jobs (L : Library) (q : BlockQueue) : Prop where
  nodup : (q.working.map UnverifiedBlock.hash).Nodup
  placeholder : ∀ w ∈ q.working, (∃ v ∈ q.m_verifying, Pending L v ∧ v.work = w) ∨ w.hash ∈ q.m_knownBad
  working : ∀ v ∈ q.m_verifying, Pending L v → v.work ∈ q.working

/-- Placeholders leave only as bad. -/
theorem Jobs.mono (hq : Jobs L q) (hworking : q'.working = q.working) (hbad : q.m_knownBad ⊆ q'.m_knownBad)
    (hsub : q'.m_verifying ⊆ q.m_verifying)
    (hgone : ∀ v ∈ q.m_verifying, Pending L v → v ∈ q'.m_verifying ∨ v.work.hash ∈ q'.m_knownBad) : Jobs L q' := by
  refine ⟨?_, ?_, ?_⟩
  · rw [hworking]
    exact hq.nodup
  · rw [hworking]
    intro w hw
    rcases hq.placeholder w hw with ⟨v, hv, hp, rfl⟩ | hb
    · exact (hgone v hv hp).imp (fun hv => ⟨v, hv, hp, rfl⟩) id
    · exact .inr (hbad hb)
  · rw [hworking]
    exact fun v hv hp => hq.working v (hsub hv) hp

/-- Jobs are about what verifiers have and what waits for them. -/
theorem Jobs.congr (hq : Jobs L q) (hworking : q'.working = q.working) (hbad : q'.m_knownBad = q.m_knownBad)
    (hverifying : q'.m_verifying = q.m_verifying) : Jobs L q' := by
  refine hq.mono hworking (by rw [hbad]) (by rw [hverifying]; exact List.Subset.refl _) fun v hv _ => .inl ?_
  rw [hverifying]
  exact hv

/-- To purge bad blocks keeps the jobs. -/
theorem Jobs.purged (hq : Jobs L q) (h : Purged q q') : Jobs L q' := by
  refine hq.mono (congrArg Core.working h.core) h.bad h.verifying.subset fun v hv hp => ?_
  exact (h.goneVerifying v hv).imp id fun hb => verifyingHash_eq (.inr hp) ▸ hb

/-- An import keeps the jobs. -/
theorem Jobs.imported (hq : Jobs L q) {bi : QueuedHeader} {b : Bytes} {parentInChain : Bool}
    (h : Imported L q bi b parentInChain q') : Jobs L q' := by
  cases h with
  | future => exact hq.congr rfl rfl rfl
  | bad _ =>
    have hbad : Jobs L (q.enterBad bi.hash) :=
      hq.mono rfl (Finset.subset_insert _ _) (List.Subset.refl _) fun v hv _ => .inl hv
    exact hbad.purged (updateBad_spec _ _).1
  | unknown _ _ => exact hq.congr rfl rfl rfl
  | ready _ _ =>
    refine noteReady_induct (I := Jobs L) (fun q h hq _ => ?_) ?_ (Finset.mem_insert_self _ _)
    · rw [readyTurn, foldl_unknownIsReady]
      exact hq.congr rfl rfl rfl
    · exact hq.congr rfl rfl rfl

/-- A block of `m_verifying` and one of `m_unverified` have different hashes. -/
theorem Kept.hash_ne (hq : Kept q) {v : VerifiedBlock} (hv : v ∈ q.m_verifying) {w : UnverifiedBlock}
    (hw : w ∈ q.m_unverified) : v.work.hash ≠ w.hash := by
  intro heq
  have hnodup := hq.nodup
  rw [blocks, List.map_append] at hnodup
  refine (List.nodup_append.mp hnodup).2.2 v.work.hash (List.mem_map_of_mem ?_) w.hash (List.mem_map_of_mem hw) heq
  exact List.mem_append_right _ (List.mem_map_of_mem hv)

/-- A job that is taken is one that waits. -/
theorem Jobs.takeJob (hkept : Kept q) (hs : Shaped L q) (hq : Jobs L q) : Jobs L q.takeJob := by
  rw [BlockQueue.takeJob]
  cases hw : q.m_unverified with
  | nil => exact hq
  | cons work l =>
    have hmem : work ∈ q.m_unverified := hw ▸ List.mem_cons_self
    have hjob : IsJob L work := hs.unverified work hmem
    refine ⟨?_, ?_, ?_⟩
    · rw [List.map_append]
      refine List.nodup_append.mpr ⟨hq.nodup, List.nodup_singleton _, ?_⟩
      rintro h hh h' hh' rfl
      obtain ⟨w, hin, rfl⟩ := List.mem_map.mp hh
      have hhash : w.hash = work.hash := List.mem_singleton.mp hh'
      rcases hq.placeholder w hin with ⟨v, hv, -, rfl⟩ | hb
      · exact hkept.hash_ne hv hmem hhash
      · have hready : work.hash ∈ q.m_readySet := (hkept.ready _).mpr (List.mem_map_of_mem (List.mem_append_right _ hmem))
        exact absurd (hkept.readyBad _ hready (hhash ▸ hb)) (Finset.notMem_empty _)
    · intro w hin
      rcases List.mem_append.mp hin with hin | hin
      · rcases hq.placeholder w hin with ⟨v, hv, hp⟩ | hb
        · exact .inl ⟨v, List.mem_append_left _ hv, hp⟩
        · exact .inr hb
      · rw [List.mem_singleton.mp hin]
        exact .inl ⟨_, List.mem_append_right _ (List.mem_singleton_self _), ⟨hjob, rfl⟩, rfl⟩
    · intro v hv hp
      rcases List.mem_append.mp hv with hv | hv
      · exact List.mem_append_left _ (hq.working v hv hp)
      · rw [List.mem_singleton.mp hv]
        exact List.mem_append_right _ (List.mem_singleton_self _)

/-- To drain what is verified keeps the jobs. -/
theorem Jobs.drainVerified (hq : Jobs L q) : Jobs L q.drainVerified_WITH_BOTH_LOCKS := by
  refine drainVerified_induct (I := Jobs L) ?_ ?_ hq
  · intro q b l hq hl hb _
    refine hq.mono rfl (Finset.subset_insert _ _) (fun v hv => hl ▸ List.mem_cons_of_mem _ hv) fun v hv hp => .inl ?_
    rw [hl] at hv
    rcases List.mem_cons.mp hv with rfl | hv
    · exact absurd hp.data hb
    · exact hv
  · intro q b l hq hl hb _
    refine hq.mono rfl (Finset.Subset.refl _) (fun v hv => hl ▸ List.mem_cons_of_mem _ hv) fun v hv hp => .inl ?_
    rw [hl] at hv
    rcases List.mem_cons.mp hv with rfl | hv
    · exact absurd hp.data hb
    · exact hv

/-- The verifier with the job at place `i` is done with it, and its placeholder, if there is one, is one no more. -/
theorem Jobs.finish (hq : Jobs L q) {i : Nat} {work : UnverifiedBlock} (hwork : q.working[i]? = some work)
    (hworking : q'.working = q.working.eraseIdx i) (hbad : q.m_knownBad ⊆ q'.m_knownBad)
    (hstay : ∀ v ∈ q.m_verifying, Pending L v → v.work.hash ≠ work.hash → v ∈ q'.m_verifying)
    (hgone : ∀ v ∈ q'.m_verifying, Pending L v → v ∈ q.m_verifying ∧ v.work.hash ≠ work.hash) : Jobs L q' := by
  obtain ⟨hi, heq⟩ := List.getElem?_eq_some_iff.mp hwork
  have hsplit : q.working = q.working.take i ++ work :: q.working.drop (i + 1) := by
    rw [← heq, List.getElem_cons_drop, List.take_append_drop]
  have herase : q'.working = q.working.take i ++ q.working.drop (i + 1) := by
    rw [hworking, List.eraseIdx_eq_take_drop_succ]
  have hperm : q.working.Perm (work :: q'.working) := by
    rw [herase]
    exact (List.Perm.of_eq hsplit).trans List.perm_middle
  have hnodup := (hperm.map UnverifiedBlock.hash).nodup_iff.mp hq.nodup
  rw [List.map_cons, List.nodup_cons] at hnodup
  refine ⟨hnodup.2, ?_, ?_⟩
  · intro w hw
    rcases hq.placeholder w (hperm.mem_iff.mpr (List.mem_cons_of_mem _ hw)) with ⟨v, hv, hp, rfl⟩ | hb
    · refine .inl ⟨v, hstay v hv hp ?_, hp, rfl⟩
      intro hhash
      exact hnodup.1 (hhash ▸ List.mem_map_of_mem hw)
    · exact .inr (hbad hb)
  · intro v hv hp
    obtain ⟨hv, hne⟩ := hgone v hv hp
    rcases List.mem_cons.mp (hperm.mem_iff.mp (hq.working v hv hp)) with heq | hin
    · exact absurd (congrArg UnverifiedBlock.hash heq) hne
    · exact hin

/-- The blocks of `m_verifying` have different hashes. -/
theorem Kept.nodup_verifying (hq : Kept q) : (q.m_verifying.map fun v => v.work.hash).Nodup := by
  have hnodup := hq.nodup
  rw [blocks, List.map_append, List.map_append] at hnodup
  have h := (List.nodup_append.mp (List.nodup_append.mp hnodup).1).2.1
  rwa [List.map_map] at h

/-- The first block for which `p` holds, and what `replaceFirst` puts there. -/
theorem replaceFirst_cases (p : VerifiedBlock → Bool) (b : VerifiedBlock) (l : List VerifiedBlock) :
    (∀ v ∈ l, p v = false) ∧ replaceFirst p b l = l ∨
      ∃ l₁ a l₂, l = l₁ ++ a :: l₂ ∧ p a = true ∧ replaceFirst p b l = l₁ ++ b :: l₂ := by
  induction l with
  | nil => exact .inl ⟨nofun, rfl⟩
  | cons v l ih =>
    rw [replaceFirst]
    by_cases hp : p v = true
    · rw [if_pos hp]
      exact .inr ⟨[], v, l, rfl, hp, rfl⟩
    · rw [if_neg hp]
      rcases ih with ⟨hnone, heq⟩ | ⟨l₁, a, l₂, heq, ha, hrepl⟩
      · refine .inl ⟨fun v' hv' => ?_, by rw [heq]⟩
        rcases List.mem_cons.mp hv' with rfl | hv'
        · exact Bool.eq_false_iff.mpr hp
        · exact hnone v' hv'
      · exact .inr ⟨v :: l₁, a, l₂, by rw [heq, List.cons_append], ha, by rw [hrepl, List.cons_append]⟩

/-- In a list with different hashes, the others have other hashes. -/
theorem hash_ne_of_middle {l₁ l₂ : List VerifiedBlock} {a v : VerifiedBlock}
    (hnodup : ((l₁ ++ a :: l₂).map fun v => v.work.hash).Nodup) (hv : v ∈ l₁ ++ l₂) : v.work.hash ≠ a.work.hash := by
  have hperm : (l₁ ++ a :: l₂).Perm (a :: (l₁ ++ l₂)) := List.perm_middle
  have h := (hperm.map fun v => v.work.hash).nodup_iff.mp hnodup
  rw [List.map_cons, List.nodup_cons] at h
  intro heq
  exact h.1 (heq ▸ List.mem_map_of_mem (f := fun v : VerifiedBlock => v.work.hash) hv)

/-- A job that fails goes with its placeholder. -/
theorem Jobs.failJob (hkept : Kept q) (hs : Shaped L q) (hq : Jobs L q) {i : Nat} {work : UnverifiedBlock}
    (hwork : q.working[i]? = some work) : Jobs L ((q.dropJob i).failJob work) := by
  have hjob := hs.working work (List.mem_of_getElem? hwork)
  refine hq.finish hwork rfl (Finset.subset_insert _ _) ?_ ?_
  · intro v hv hp hne
    refine (List.mem_eraseP_of_neg ?_).mpr hv
    rw [hp.sha3Uncles]
    exact fun h => hne (of_decide_eq_true h)
  · intro v hv hp
    have hin : v ∈ q.m_verifying := List.mem_of_mem_eraseP hv
    refine ⟨hin, fun hhash => ?_⟩
    obtain ⟨a, l₁, l₂, -, ha, heq, herase⟩ := List.exists_of_eraseP (p := fun b : VerifiedBlock => b.info.sha3Uncles = work.hash)
      hin (decide_eq_true (hp.sha3Uncles.trans hhash))
    have ha' : a ∈ q.m_verifying := heq ▸ List.mem_append_right _ List.mem_cons_self
    have hsame := (hs.hash_of_sha3Uncles ha' hjob (of_decide_eq_true ha)).2
    have hnodup := hkept.nodup_verifying
    rw [heq] at hnodup
    refine hash_ne_of_middle hnodup ?_ (hhash.trans hsame.symm)
    exact herase ▸ hv

/-- A job that succeeds fills its placeholder. -/
theorem Jobs.fill (hkept : Kept q) (hs : Shaped L q) (hq : Jobs L q) {i : Nat} {work : UnverifiedBlock} {info : QueuedHeader}
    (hwork : q.working[i]? = some work) : Jobs L ((q.dropJob i).fill work info) := by
  have hjob := hs.working work (List.mem_of_getElem? hwork)
  have hcases := replaceFirst_cases (fun b => b.info.sha3Uncles = work.hash) ⟨info, work.block, work⟩ q.m_verifying
  refine hq.finish hwork rfl (Finset.Subset.refl _) ?_ ?_
  · intro v hv hp hne
    change v ∈ replaceFirst _ _ q.m_verifying
    rcases hcases with ⟨-, heq⟩ | ⟨l₁, a, l₂, heq, ha, hrepl⟩
    · rw [heq]
      exact hv
    · rw [hrepl]
      rw [heq] at hv
      rcases List.mem_append.mp hv with hv | hv
      · exact List.mem_append_left _ hv
      · rcases List.mem_cons.mp hv with rfl | hv
        · exact absurd (hp.sha3Uncles.symm.trans (of_decide_eq_true ha)) hne
        · exact List.mem_append_right _ (List.mem_cons_of_mem _ hv)
  · intro v hv hp
    rcases hcases with ⟨hnone, heq⟩ | ⟨l₁, a, l₂, heq, ha, hrepl⟩
    · have hin : v ∈ q.m_verifying := heq ▸ hv
      refine ⟨hin, fun hhash => ?_⟩
      exact absurd (hp.sha3Uncles.trans hhash) (of_decide_eq_false (hnone v hin))
    · have ha' : a ∈ q.m_verifying := heq ▸ List.mem_append_right _ List.mem_cons_self
      have hsame := (hs.hash_of_sha3Uncles ha' hjob (of_decide_eq_true ha)).2
      have hnodup := hkept.nodup_verifying
      rw [heq] at hnodup
      have hv : v ∈ l₁ ++ ⟨info, work.block, work⟩ :: l₂ := hrepl ▸ hv
      have hrest : v ∈ l₁ ++ l₂ := by
        rcases List.mem_append.mp hv with hv | hv
        · exact List.mem_append_left _ hv
        · rcases List.mem_cons.mp hv with rfl | hv
          · exact absurd hp.data hjob.block_ne_nil
          · exact List.mem_append_right _ hv
      refine ⟨?_, fun hhash => hash_ne_of_middle hnodup hrest (hhash.trans hsame.symm)⟩
      rw [heq]
      rcases List.mem_append.mp hrest with h | h
      · exact List.mem_append_left _ h
      · exact List.mem_append_right _ (List.mem_cons_of_mem _ h)

/-- A report keeps the jobs. -/
theorem Jobs.report (hkept : Kept q) (hs : Shaped L q) (hq : Jobs L q) (i : Nat) (good : Bool) :
    Jobs L (next L q (.report i good)) := by
  rcases report_cases hs i good with h | ⟨work, hwork, h⟩
  · rw [h]
    exact hq
  · generalize next L q (.report i good) = q' at h ⊢
    cases h with
    | failure _ => exact (hq.failJob hkept hs hwork).drainVerified
    | filled info _ _ => exact hq.fill hkept hs hwork
    | success info _ _ => exact (hq.fill hkept hs hwork).drainVerified

/-- No `clear`, and only hashes that are being drained are reported as bad. -/
def Unbroken (q : BlockQueue) (s : Step) : Prop :=
  s ≠ .clear ∧ ∀ bad, s = .doneDrain bad → ∀ h ∈ bad, h ∈ q.m_drainingSet

/-- Such a step keeps the sets right. -/
theorem Jobs.fresh (hkept : Kept q) (hq : Jobs L q) {s : Step} (hs : Unbroken q s) : Fresh q s := by
  refine ⟨fun i work _ hwork => ?_, fun bad h h' hh' => .inl (hs.2 bad h h' hh')⟩
  rcases hq.placeholder work (List.mem_of_getElem? hwork) with ⟨v, hv, hp, rfl⟩ | hb
  · exact .inl ⟨v, hv, hp.sha3Uncles⟩
  · refine .inr ⟨fun hready => ?_, fun hd => hkept.drainingBad _ hd hb, fun hu => hkept.unknownBad _ hu hb⟩
    exact absurd (hkept.readyBad _ hready hb) (Finset.notMem_empty _)

/-- Every step but a clear keeps the jobs. -/
theorem Jobs.next (hkept : Kept q) (hs : Shaped L q) (hq : Jobs L q) {s : Step} (hclear : s ≠ .clear) :
    Jobs L (next L q s) := by
  cases s with
  | «import» b isOurs now inChain parentInChain =>
    rw [BlockQueue.next]
    rcases import_cases (L := L) b isOurs now inChain parentInChain q with h | ⟨bi, -, -, -, h⟩
    · rw [h]
      exact hq
    · exact hq.imported h
  | tick now => exact hq.congr rfl rfl rfl
  | tickImport i now inChain parentInChain =>
    rw [BlockQueue.next]
    split
    · exact hq
    · have hdrop : Jobs L (q.dropTodo i) := hq.congr rfl rfl rfl
      rcases import_cases (L := L) _ false now inChain parentInChain (q.dropTodo i) with h | ⟨bi, -, -, -, h⟩
      · exact h.symm ▸ hdrop
      · exact hdrop.imported h
  | takeJob => exact hq.takeJob hkept hs
  | report i good => exact hq.report hkept hs i good
  | drain max =>
    rw [BlockQueue.next, BlockQueue.drain]
    split
    · rw [foldl_drainOne]
      exact hq.congr rfl rfl rfl
    · exact hq
  | doneDrain bad =>
    refine foldl_updateBad_induct (I := Jobs L) (fun q h hq => hq.purged (updateBad_spec (L := L) q h).1) bad ?_
    exact hq.mono rfl Finset.subset_union_left (List.Subset.refl _) fun v hv _ => .inl hv
  | retryAllUnknown =>
    rw [BlockQueue.next, BlockQueue.retryAllUnknown, foldl_retryUnknown]
    exact hq.congr rfl rfl rfl
  | clear => exact absurd rfl hclear

/-- In a run without `clear` the sets are right. -/
theorem Kept.of_unbroken (h : Reach (BlockQueue.next L) Unbroken BlockQueue.new q) : Kept q := by
  refine (Reach.invariant (P := fun q => Shaped L q ∧ Kept q ∧ Jobs L q) ?_ ?_ h).2.1
  · exact ⟨Shaped.new, Kept.new, List.nodup_nil, nofun, nofun⟩
  · rintro q s ⟨hs, hkept, hq⟩ hunbroken
    exact ⟨hs.next s, hkept.next hs s (hq.fresh hkept hunbroken), hq.next hkept hs hunbroken.1⟩

/-! ## Parents -/

/-- Every block is behind its parent, or the chain knew the parent, or `base` holds of it. -/
def Supported : (base : H256 → Prop) → List UnverifiedBlock → Prop
  | _, [] => True
  | base, w :: l => (w.parentInChain = true ∨ base w.parentHash) ∧ Supported (fun h => base h ∨ h = w.hash) l

variable {base base' : H256 → Prop} {l l' : List UnverifiedBlock}

/-- What is supported by less is supported by more. -/
theorem Supported.mono (h : Supported base l) (hbase : ∀ h, base h → base' h) : Supported base' l := by
  induction l generalizing base base' with
  | nil => exact trivial
  | cons w l ih => exact ⟨h.1.imp id (hbase _), ih h.2 fun h' => Or.imp (hbase h') id⟩

/-- A row is supported if its first part is, and its second by that. -/
theorem supported_append :
    Supported base (l ++ l') ↔ Supported base l ∧ Supported (fun h => base h ∨ h ∈ l.map UnverifiedBlock.hash) l' := by
  induction l generalizing base with
  | nil =>
    refine ⟨fun h => ⟨trivial, h.mono fun _ => .inl⟩, fun h => h.2.mono fun h' hh => ?_⟩
    exact hh.resolve_right List.not_mem_nil
  | cons w l ih =>
    rw [List.cons_append, Supported, Supported, ih, and_assoc]
    have hiff : ∀ h', ((base h' ∨ h' = w.hash) ∨ h' ∈ l.map UnverifiedBlock.hash) ↔
        (base h' ∨ h' ∈ (w :: l).map UnverifiedBlock.hash) := by
      intro h'
      rw [List.map_cons, List.mem_cons, or_assoc]
    refine ⟨fun ⟨h1, h2, h3⟩ => ⟨h1, h2, h3.mono fun h' => (hiff h').mp⟩, fun ⟨h1, h2, h3⟩ => ⟨h1, h2, h3.mono fun h' => (hiff h').mpr⟩⟩

/-- What has its parents outside is supported. -/
theorem supported_of_forall (h : ∀ w ∈ l, w.parentInChain = true ∨ base w.parentHash) : Supported base l := by
  induction l generalizing base with
  | nil => exact trivial
  | cons w l ih =>
    refine ⟨h w List.mem_cons_self, ih fun w' hw' => ?_⟩
    exact (h w' (List.mem_cons_of_mem _ hw')).imp id .inl

/-- A base that no parent is in can go. -/
theorem Supported.drop (base' : H256 → Prop) (h : Supported (fun h => base h ∨ base' h) l) (hnone : ∀ w ∈ l, ¬base' w.parentHash) :
    Supported base l := by
  induction l generalizing base with
  | nil => exact trivial
  | cons w l ih =>
    have hfirst := hnone w List.mem_cons_self
    refine ⟨h.1.imp id fun hb => hb.resolve_right hfirst, ih (h.2.mono fun h' => ?_) fun w' hw' =>
      hnone w' (List.mem_cons_of_mem _ hw')⟩
    rintro ((hb | hb) | rfl)
    · exact .inl (.inl hb)
    · exact .inr hb
    · exact .inl (.inr rfl)

/-- Blocks leave whose hashes the base takes in. -/
theorem Supported.sublist (h : Supported base l) (hsub : l'.Sublist l) (hnodup : (l.map UnverifiedBlock.hash).Nodup)
    (hbase : ∀ h, base h → base' h) (hgone : ∀ w ∈ l, w ∈ l' ∨ base' w.hash) : Supported base' l' := by
  induction hsub generalizing base base' with
  | slnil => exact trivial
  | cons w hsub ih =>
    rw [List.map_cons, List.nodup_cons] at hnodup
    have hw : base' w.hash := by
      rcases hgone w List.mem_cons_self with hw | hw
      · exact absurd (List.mem_map_of_mem (hsub.subset hw)) hnodup.1
      · exact hw
    refine ih h.2 hnodup.2 ?_ fun w' hw' => hgone w' (List.mem_cons_of_mem _ hw')
    rintro h' (hb | rfl)
    · exact hbase h' hb
    · exact hw
  | cons_cons w hsub ih =>
    rw [List.map_cons, List.nodup_cons] at hnodup
    refine ⟨h.1.imp id (hbase _), ih h.2 hnodup.2 (fun h' => Or.imp (hbase h') id) fun w' hw' => ?_⟩
    rcases hgone w' (List.mem_cons_of_mem _ hw') with hin | hb
    · rcases List.mem_cons.mp hin with rfl | hin
      · exact .inr (.inr rfl)
      · exact .inl hin
    · exact .inr (.inl hb)

/-- What it says of one block. -/
theorem Supported.at {l₁ l₂ : List UnverifiedBlock} {w : UnverifiedBlock} (h : Supported base (l₁ ++ w :: l₂)) :
    w.parentInChain = true ∨ base w.parentHash ∨ ∃ w' ∈ l₁, w'.hash = w.parentHash := by
  rcases (supported_append.mp h).2.1 with h | h | h
  · exact .inl h
  · exact .inr (.inl h)
  · exact .inr (.inr (List.mem_map.mp h))

/-! ## Order -/

/-- The blocks handed out and those of the deques are in the order in which they came, and each is behind its parent. -/
structure InOrder (q : BlockQueue) : Prop where
  sub : (q.drained ++ q.blocks).Sublist q.entered
  draining : ∀ h ∈ q.m_drainingSet, h ∈ q.drained.map UnverifiedBlock.hash
  drained : Supported (fun _ => False) q.drained
  verified : Supported (fun h => h ∈ q.drained.map UnverifiedBlock.hash) (q.m_verified.map VerifiedBlock.work)
  blocks : Supported (fun h => h ∈ q.drained.map UnverifiedBlock.hash ∨ h ∈ q.m_knownBad) q.blocks

/-- Blocks leave as bad. -/
theorem InOrder.leave (hq : InOrder q) (hnodup : (q.blocks.map UnverifiedBlock.hash).Nodup) (hdrained : q'.drained = q.drained)
    (hentered : q'.entered = q.entered) (hdraining : q'.m_drainingSet ⊆ q.m_drainingSet) (hsub : q'.blocks.Sublist q.blocks)
    (hbad : q.m_knownBad ⊆ q'.m_knownBad) (hgone : ∀ w ∈ q.blocks, w ∈ q'.blocks ∨ w.hash ∈ q'.m_knownBad)
    (hverified : Supported (fun h => h ∈ q.drained.map UnverifiedBlock.hash) (q'.m_verified.map VerifiedBlock.work)) :
    InOrder q' := by
  refine ⟨?_, ?_, ?_, ?_, ?_⟩
  · rw [hdrained, hentered]
    exact (hsub.append_left _).trans hq.sub
  · rw [hdrained]
    exact fun h hh => hq.draining h (hdraining hh)
  · rw [hdrained]
    exact hq.drained
  · rw [hdrained]
    exact hverified
  · rw [hdrained]
    exact hq.blocks.sublist hsub hnodup (fun h => Or.imp id fun hb => hbad hb) fun w hw => (hgone w hw).imp id .inr

/-- What is left after a purge is in order. -/
theorem Purged.blocks_sublist (h : Purged q q') : q'.blocks.Sublist q.blocks :=
  ((h.verified.map _).append (h.verifying.map _)).append h.unverified

/-- What is purged is bad. -/
theorem Purged.gone (hs : Shaped L q) (h : Purged q q') : ∀ w ∈ q.blocks, w ∈ q'.blocks ∨ w.hash ∈ q'.m_knownBad := by
  intro w hw
  rcases List.mem_append.mp hw with hw | hw
  · rcases List.mem_append.mp hw with hw | hw
    · obtain ⟨v, hv, rfl⟩ := List.mem_map.mp hw
      refine (h.goneVerified v hv).imp (fun hv => ?_) fun hb => (hs.verified v hv).hash ▸ hb
      exact List.mem_append_left _ (List.mem_append_left _ (List.mem_map_of_mem hv))
    · obtain ⟨v, hv, rfl⟩ := List.mem_map.mp hw
      refine (h.goneVerifying v hv).imp (fun hv => ?_) fun hb => verifyingHash_eq (hs.verifying v hv) ▸ hb
      exact List.mem_append_left _ (List.mem_append_right _ (List.mem_map_of_mem hv))
  · exact (h.goneUnverified w hw).imp (List.mem_append_right _) id

/-- The order stays when bad blocks are purged, with what builds on them. -/
theorem InOrder.purged (hs : Shaped L q) (hq : InOrder q) (hnodup : (q.blocks.map UnverifiedBlock.hash).Nodup)
    (h : Purged q q') (hnobad : NoBad q') : InOrder q' := by
  have hset : q'.m_drainingSet = q.m_drainingSet := congrArg Core.drainingSet h.core
  refine hq.leave hnodup (congrArg Core.drained h.core) (congrArg Core.entered h.core) (by rw [hset]) h.blocks_sublist h.bad
    (h.gone hs) ?_
  have hnodup' : ((q.m_verified.map VerifiedBlock.work).map UnverifiedBlock.hash).Nodup := by
    rw [BlockQueue.blocks, List.append_assoc, List.map_append] at hnodup
    exact (List.nodup_append.mp hnodup).1
  have hs' := hs.purged h
  -- what leaves `m_verified` is bad, and no block stays whose parent is
  refine Supported.drop (fun h => h ∈ q'.m_knownBad) ?_ ?_
  · refine hq.verified.sublist (h.verified.map _) hnodup' (fun _ => .inl) fun w hw => ?_
    obtain ⟨v, hv, rfl⟩ := List.mem_map.mp hw
    exact (h.goneVerified v hv).imp List.mem_map_of_mem fun hb => .inr ((hs.verified v hv).hash ▸ hb)
  · intro w hw
    obtain ⟨v, hv, rfl⟩ := List.mem_map.mp hw
    rw [← (hs'.verified v hv).parentHash]
    exact (hnobad.verified v hv).1

/-- The order is about what is drained, what has come in and what waits. -/
theorem InOrder.congr (hq : InOrder q) (hdrained : q'.drained = q.drained) (hentered : q'.entered = q.entered)
    (hdraining : q'.m_drainingSet ⊆ q.m_drainingSet) (hblocks : q'.blocks = q.blocks)
    (hverified : q'.m_verified = q.m_verified) (hbad : q.m_knownBad ⊆ q'.m_knownBad) : InOrder q' := by
  refine ⟨?_, ?_, ?_, ?_, ?_⟩
  · rw [hdrained, hentered, hblocks]
    exact hq.sub
  · rw [hdrained]
    exact fun h hh => hq.draining h (hdraining hh)
  · rw [hdrained]
    exact hq.drained
  · rw [hdrained, hverified]
    exact hq.verified
  · rw [hdrained, hblocks]
    exact hq.blocks.mono fun h => Or.imp id fun hb => hbad hb

/-- Blocks come behind their parents. -/
theorem InOrder.push (hq : InOrder q) {r : List UnverifiedBlock} (hdrained : q'.drained = q.drained)
    (hentered : q'.entered = q.entered ++ r) (hdraining : q'.m_drainingSet = q.m_drainingSet)
    (hblocks : q'.blocks = q.blocks ++ r) (hverified : q'.m_verified = q.m_verified) (hbad : q'.m_knownBad = q.m_knownBad)
    (hparent : ∀ w ∈ r, w.parentInChain = true ∨ w.parentHash ∈ q.drained.map UnverifiedBlock.hash ∨
      w.parentHash ∈ q.blocks.map UnverifiedBlock.hash) : InOrder q' := by
  refine ⟨?_, ?_, ?_, ?_, ?_⟩
  · rw [hdrained, hentered, hblocks, ← List.append_assoc]
    exact hq.sub.append_right _
  · rw [hdrained, hdraining]
    exact hq.draining
  · rw [hdrained]
    exact hq.drained
  · rw [hdrained, hverified]
    exact hq.verified
  · rw [hdrained, hblocks, hbad]
    refine supported_append.mpr ⟨hq.blocks, supported_of_forall fun w hw => ?_⟩
    exact (hparent w hw).imp id (Or.imp .inl id)

/-- A block that becomes ready has its parent before it. -/
theorem InOrder.readyTurn (hkept : Kept q) (hq : InOrder q) {h : H256} (hh : h ∈ q.m_readySet) : InOrder (readyTurn L q h) := by
  rw [BlockQueue.readyTurn, foldl_unknownIsReady]
  refine hq.push (r := (q.equalRange L h).map UnknownBlock.job) rfl rfl rfl (blocks_push rfl rfl rfl) rfl rfl fun w hw => ?_
  obtain ⟨e, he, rfl⟩ := List.mem_map.mp hw
  have hparent : e.parentHash = h := by
    have hin := (L.order_perm _).subset he
    exact of_decide_eq_true (List.mem_filter.mp hin).2
  refine .inr (.inr ?_)
  rw [← hkept.ready]
  exact (show (UnknownBlock.job e).parentHash = h from hparent) ▸ hh

/-- A block comes in behind its parent. -/
theorem InOrder.imported (hkept : Kept q) (hs : Shaped L q) (hq : InOrder q) {bi : QueuedHeader} {b : Bytes} {parentInChain : Bool}
    (hnew : q.Unheard bi.hash) (h : Imported L q bi b parentInChain q') : InOrder q' := by
  cases h with
  | future => exact hq.congr rfl rfl (Finset.Subset.refl _) rfl rfl (Finset.Subset.refl _)
  | bad _ =>
    have hs' : Shaped L (q.enterBad bi.hash) :=
      ⟨hs.verified, hs.verifying, hs.unverified, hs.working, hs.unknown, hs.draining⟩
    have hbad : InOrder (q.enterBad bi.hash) :=
      hq.congr rfl rfl (Finset.Subset.refl _) rfl rfl (Finset.subset_insert _ _)
    obtain ⟨hpurged, hnobad⟩ := updateBad_spec (L := L) (q.enterBad bi.hash) bi.hash
    exact hbad.purged hs' hkept.nodup hpurged hnobad
  | unknown _ _ => exact hq.congr rfl rfl (Finset.Subset.refl _) rfl rfl (Finset.Subset.refl _)
  | ready _ hparent =>
    refine (noteReady_induct (I := fun q => Kept q ∧ InOrder q) ?_ ?_ (Finset.mem_insert_self _ _)).2
    · exact fun q h hq hh => ⟨hq.1.readyTurn h, hq.2.readyTurn hq.1 hh⟩
    · refine ⟨hkept.enterReady b parentInChain hnew, ?_⟩
      refine hq.push (r := [⟨bi.hash, bi.parentHash, b, parentInChain⟩]) rfl rfl rfl (blocks_push rfl rfl rfl) rfl rfl ?_
      intro w hw
      rw [List.mem_singleton.mp hw]
      rcases hparent with h | h | h
      · exact .inr (.inr ((hkept.ready _).mp h))
      · exact .inr (.inl (hq.draining _ h))
      · exact .inl h

/-- To take a job changes no order. -/
theorem InOrder.takeJob (hq : InOrder q) : InOrder q.takeJob := by
  have hblocks := blocks_takeJob q
  rw [BlockQueue.takeJob] at hblocks ⊢
  cases hw : q.m_unverified with
  | nil => exact hq
  | cons work l =>
    rw [hw] at hblocks
    exact hq.congr rfl rfl (Finset.Subset.refl _) hblocks rfl (Finset.Subset.refl _)

/-- A bad block that is dropped takes those on it along. -/
theorem InOrder.popBad (hkept : Kept q) (hs : Shaped L q) (hq : InOrder q) {b : VerifiedBlock} {l : List VerifiedBlock}
    (hl : q.m_verifying = b :: l) (hb : b.blockData ≠ []) : InOrder (q.popBad b l) := by
  have hhash : b.info.hash = b.work.hash := by
    rcases hs.verifying b (hl ▸ List.mem_cons_self) with hc | hp
    · exact hc.hash
    · exact absurd hp.data hb
  refine hq.leave hkept.nodup rfl rfl (Finset.Subset.refl _) ?_ (Finset.subset_insert _ _) ?_ hq.verified
  · simp only [BlockQueue.blocks, BlockQueue.popBad, markBad, hl, List.map_cons]
    exact ((List.sublist_cons_self _ _).append_left _).append_right _
  · intro w hw
    simp only [BlockQueue.blocks, hl, List.map_cons, List.mem_append, List.mem_cons] at hw
    rcases hw with (hw | rfl | hw) | hw
    · exact .inl (List.mem_append_left _ (List.mem_append_left _ hw))
    · exact .inr (hhash ▸ Finset.mem_insert_self _ _)
    · exact .inl (List.mem_append_left _ (List.mem_append_right _ hw))
    · exact .inl (List.mem_append_right _ hw)

/-- A good block moves on behind those before it. -/
theorem InOrder.popGood (hs : Shaped L q) (hq : InOrder q) {b : VerifiedBlock} {l : List VerifiedBlock}
    (hl : q.m_verifying = b :: l) (hparent : b.info.parentHash ∉ q.m_knownBad) : InOrder (q.popGood b l) := by
  have hblocks := blocks_popGood hl
  refine ⟨hblocks.symm ▸ hq.sub, hq.draining, hq.drained, ?_, hblocks.symm ▸ hq.blocks⟩
  change Supported _ ((q.m_verified ++ [b]).map VerifiedBlock.work)
  rw [List.map_append]
  refine supported_append.mpr ⟨hq.verified, ?_, trivial⟩
  have hb := hq.blocks
  rw [BlockQueue.blocks, hl, List.map_cons, List.append_assoc, List.cons_append] at hb
  rw [hs.parentHash (hl ▸ List.mem_cons_self)] at hparent
  rcases (supported_append.mp hb).2.1 with h | (h | h) | h
  · exact .inl h
  · exact .inr (.inl h)
  · exact absurd h hparent
  · exact .inr (.inr h)

/-- What is verified is drained in order. -/
theorem InOrder.drainVerified (hkept : Kept q) (hs : Shaped L q) (hq : InOrder q) : InOrder q.drainVerified_WITH_BOTH_LOCKS := by
  refine (drainVerified_induct (I := fun q => Shaped L q ∧ Kept q ∧ InOrder q) ?_ ?_ ⟨hs, hkept, hq⟩).2.2
  · rintro q b l ⟨hs, hkept, hq⟩ hl hb _
    exact ⟨hs.popBad hl, hkept.popBad hs hl hb, hq.popBad hkept hs hl hb⟩
  · rintro q b l ⟨hs, hkept, hq⟩ hl hb hparent
    exact ⟨hs.popGood hl hb, hkept.popGood hl, hq.popGood hs hl hparent⟩

/-- A job that fails takes the blocks on it along. -/
theorem InOrder.failJob (hkept : Kept q) (hs : Shaped L q) (hq : InOrder q) {work : UnverifiedBlock} (hwork : IsJob L work) :
    InOrder (q.failJob work) := by
  refine hq.leave hkept.nodup rfl rfl (Finset.Subset.refl _) ?_ (Finset.subset_insert _ _) ?_ hq.verified
  · exact ((List.eraseP_sublist.map _).append_left _).append_right _
  · intro w hw
    rcases List.mem_append.mp hw with hw | hw
    · rcases List.mem_append.mp hw with hw | hw
      · exact .inl (List.mem_append_left _ (List.mem_append_left _ hw))
      · obtain ⟨v, hv, rfl⟩ := List.mem_map.mp hw
        by_cases hhash : v.info.sha3Uncles = work.hash
        · rw [(hs.hash_of_sha3Uncles hv hwork hhash).2]
          exact .inr (Finset.mem_insert_self _ _)
        · refine .inl (List.mem_append_left _ (List.mem_append_right _ (List.mem_map_of_mem ?_)))
          exact (List.mem_eraseP_of_neg (by simpa using hhash)).mpr hv
    · exact .inl (List.mem_append_right _ hw)

/-- A verifier puts its block where the placeholder of its job is. -/
theorem Jobs.blocks_fill (hs : Shaped L q) (hq : Jobs L q) {work : UnverifiedBlock} (info : QueuedHeader)
    (hwork : work ∈ q.working) : (q.fill work info).blocks = q.blocks := by
  have hjob := hs.working work hwork
  rcases replaceFirst_cases (fun b => b.info.sha3Uncles = work.hash) ⟨info, work.block, work⟩ q.m_verifying with
    ⟨-, heq⟩ | ⟨l₁, a, l₂, heq, ha, hrepl⟩
  · exact blocks_congr rfl heq rfl
  · have ha' : a ∈ q.m_verifying := heq ▸ List.mem_append_right _ List.mem_cons_self
    obtain ⟨hp, hhash⟩ := hs.hash_of_sha3Uncles ha' hjob (of_decide_eq_true ha)
    have hsame : a.work = work := List.inj_on_of_nodup_map hq.nodup (hq.working a ha' hp) hwork hhash
    have hfill : (q.fill work info).m_verifying = l₁ ++ ⟨info, work.block, work⟩ :: l₂ := hrepl
    rw [blocks, blocks, hfill, heq]
    simp only [List.map_append, List.map_cons, hsame]
    rfl

/-- What is drained goes on the end of what was drained before. -/
theorem InOrder.drain (hq : InOrder q) (hs : Shaped L q) (max : Nat) : InOrder (q.drain max) := by
  rw [BlockQueue.drain]
  split
  · rename_i hempty
    rw [foldl_drainOne]
    have hblocks := hq.blocks
    have hverified := hq.verified
    have hsub := hq.sub
    rw [← List.take_append_drop max q.m_verified, List.map_append, supported_append] at hverified
    rw [blocks_eq_take_append q max] at hblocks hsub
    refine ⟨?_, ?_, ?_, ?_, ?_⟩
    · rw [← List.append_assoc] at hsub
      exact hsub
    · intro h hh
      rw [hempty, Finset.empty_union, List.mem_toFinset] at hh
      obtain ⟨v, hv, rfl⟩ := List.mem_map.mp hh
      rw [List.map_append]
      refine List.mem_append_right _ ?_
      rw [(hs.verified v (List.mem_of_mem_take hv)).hash]
      exact List.mem_map_of_mem (List.mem_map_of_mem hv)
    · refine supported_append.mpr ⟨hq.drained, hverified.1.mono fun h => .inr⟩
    · refine hverified.2.mono fun h hh => ?_
      rw [List.map_append]
      exact List.mem_append.mpr hh
    · refine (supported_append.mp hblocks).2.mono fun h hh => ?_
      rw [List.map_append, List.mem_append]
      rcases hh with (hh | hh) | hh
      · exact .inl (.inl hh)
      · exact .inr hh
      · exact .inl (.inr hh)
  · exact hq

/-! ## The chain and the verdicts -/

section

variable (V ok : H256 → Prop)

/-- A hash whose block has been in the chain, or has been handed out. -/
def Passed (q : BlockQueue) (h : H256) : Prop := V h ∨ h ∈ q.drained.map UnverifiedBlock.hash

/-- What follows from what the chain knows and from the verdicts of `verifyBlock`: `V` are the hashes of blocks that are in the
chain at some time, `ok` those of blocks that pass. No block of the deques has a bad parent that has passed. -/
structure Sound (q : BlockQueue) : Prop where
  parent : ∀ w ∈ q.blocks, Passed V q w.parentHash → w.parentHash ∉ q.m_knownBad
  drained : ∀ w ∈ q.drained, IsJob L w ∧ ok w.hash ∧ Passed V q w.parentHash
  verified : ∀ v ∈ q.m_verified, ok v.work.hash
  verifying : ∀ v ∈ q.m_verifying, v.blockData ≠ [] → ok v.work.hash
  chain : ∀ w ∈ q.blocks, w.parentInChain = true → V w.parentHash
  known : ∀ w ∈ q.blocks, V w.hash → ok w.hash ∧ V w.parentHash
  working : ∀ w ∈ q.working, V w.hash → ok w.hash
  unknown : ∀ e ∈ q.m_unknown, V e.hash → ok e.hash ∧ V e.parentHash

end

variable {V ok : H256 → Prop}

/-- Blocks leave, and what has become bad is no parent that has passed. -/
theorem Sound.leave (hq : Sound (L := L) V ok q) (hdrained : q'.drained = q.drained) (hblocks : q'.blocks ⊆ q.blocks)
    (hverified : q'.m_verified ⊆ q.m_verified) (hverifying : q'.m_verifying ⊆ q.m_verifying) (hworking : q'.working ⊆ q.working)
    (hunknown : q'.m_unknown ⊆ q.m_unknown)
    (hparent : ∀ w ∈ q'.blocks, Passed V q w.parentHash → w.parentHash ∉ q'.m_knownBad) : Sound (L := L) V ok q' := by
  have hpassed : ∀ h, Passed V q' h ↔ Passed V q h := by
    intro h
    rw [Passed, Passed, hdrained]
  refine ⟨fun w hw hp => hparent w hw ((hpassed _).mp hp), ?_, fun v hv => hq.verified v (hverified hv),
    fun v hv => hq.verifying v (hverifying hv), fun w hw => hq.chain w (hblocks hw), fun w hw => hq.known w (hblocks hw),
    fun w hw => hq.working w (hworking hw), fun e he => hq.unknown e (hunknown he)⟩
  rw [hdrained]
  intro w hw
  obtain ⟨h1, h2, h3⟩ := hq.drained w hw
  exact ⟨h1, h2, (hpassed _).mpr h3⟩

/-- No block of the deques has a bad parent. -/
theorem NoBad.parent (hs : Shaped L q) (h : NoBad q) : ∀ w ∈ q.blocks, w.parentHash ∉ q.m_knownBad := by
  intro w hw
  rcases List.mem_append.mp hw with hw | hw
  · rcases List.mem_append.mp hw with hw | hw
    · obtain ⟨v, hv, rfl⟩ := List.mem_map.mp hw
      rw [← (hs.verified v hv).parentHash]
      exact (h.verified v hv).1
    · obtain ⟨v, hv, rfl⟩ := List.mem_map.mp hw
      rw [← hs.parentHash hv]
      exact (h.verifying v hv).1
  · exact (h.unverified w hw).1

/-- To purge bad blocks leaves what is sound. -/
theorem Sound.purged (hs : Shaped L q) (hq : Sound (L := L) V ok q) (h : Purged q q') (hnobad : NoBad q') :
    Sound (L := L) V ok q' := by
  have hworking : q'.working = q.working := congrArg Core.working h.core
  refine hq.leave (congrArg Core.drained h.core) h.blocks_sublist.subset h.verified.subset h.verifying.subset ?_
    h.unknown.subset fun w hw _ => hnobad.parent (hs.purged h) w hw
  rw [hworking]
  exact List.Subset.refl _

/-- Badness does not reach a parent that has passed. -/
theorem Sound.popBad (hs : Shaped L q) (hq : Sound (L := L) V ok q) {b : VerifiedBlock} {l : List VerifiedBlock}
    (hl : q.m_verifying = b :: l) (hb : b.blockData ≠ []) (hbad : b.info.parentHash ∈ q.m_knownBad) :
    Sound (L := L) V ok (q.popBad b l) := by
  have hmem : b ∈ q.m_verifying := hl ▸ List.mem_cons_self
  have hwork : b.work ∈ q.blocks := List.mem_append_left _ (List.mem_append_right _ (List.mem_map_of_mem hmem))
  have hhash : b.info.hash = b.work.hash := by
    rcases hs.verifying b hmem with hc | hp
    · exact hc.hash
    · exact absurd hp.data hb
  have hsub : (q.popBad b l).blocks ⊆ q.blocks := by
    simp only [blocks, BlockQueue.popBad, markBad, hl, List.map_cons]
    exact (((List.sublist_cons_self _ _).append_left _).append_right _).subset
  refine hq.leave rfl hsub (List.Subset.refl _) (fun v hv => hl ▸ List.mem_cons_of_mem _ hv)
    (List.Subset.refl _) (List.Subset.refl _) fun w hw hp hin => ?_
  rcases Finset.mem_insert.mp hin with heq | hin
  · -- the parent is this block, so its own parent has passed too, and is not bad
    rw [heq, hhash] at hp
    rw [hs.parentHash hmem] at hbad
    refine hq.parent b.work hwork ?_ hbad
    rcases hp with hV | hd
    · exact .inl (hq.known b.work hwork hV).2
    · obtain ⟨w', hw', hsame⟩ := List.mem_map.mp hd
      obtain ⟨⟨bi', hbi', hh', hp'⟩, -, hpassed⟩ := hq.drained w' hw'
      obtain ⟨bi, hbi, hh, hp⟩ := hs.isJob hwork
      have heq := L.header_eq _ _ bi bi' hbi hbi' (by rw [hh, hh', hsame])
      rw [← hp, heq, hp']
      exact hpassed
  · exact hq.parent w (hsub hw) hp hin

theorem Sound.popGood (hq : Sound (L := L) V ok q) {b : VerifiedBlock} {l : List VerifiedBlock}
    (hl : q.m_verifying = b :: l) (hb : b.blockData ≠ []) : Sound (L := L) V ok (q.popGood b l) := by
  have hblocks := blocks_popGood hl
  refine ⟨hblocks.symm ▸ hq.parent, hq.drained, ?_, fun v hv => hq.verifying v (hl ▸ List.mem_cons_of_mem _ hv),
    hblocks.symm ▸ hq.chain, hblocks.symm ▸ hq.known, hq.working, hq.unknown⟩
  intro v hv
  rcases List.mem_append.mp hv with hv | hv
  · exact hq.verified v hv
  · rw [List.mem_singleton.mp hv]
    exact hq.verifying b (hl ▸ List.mem_cons_self) hb

theorem Sound.drainVerified (hs : Shaped L q) (hq : Sound (L := L) V ok q) :
    Sound (L := L) V ok q.drainVerified_WITH_BOTH_LOCKS := by
  refine (drainVerified_induct (I := fun q => Shaped L q ∧ Sound (L := L) V ok q) ?_ ?_ ⟨hs, hq⟩).2
  · exact fun q b l ⟨hs, hq⟩ hl hb hbad => ⟨hs.popBad hl, hq.popBad hs hl hb hbad⟩
  · exact fun q b l ⟨hs, hq⟩ hl hb _ => ⟨hs.popGood hl hb, hq.popGood hl hb⟩

/-- A block that does not pass is no parent that has passed. -/
theorem Sound.failJob (hq : Sound (L := L) V ok q) {work : UnverifiedBlock} (hwork : work ∈ q.working) (hok : ¬ok work.hash) :
    Sound (L := L) V ok (q.failJob work) := by
  have hsub : (q.failJob work).blocks ⊆ q.blocks := (((List.eraseP_sublist.map _).append_left _).append_right _).subset
  refine hq.leave rfl hsub (List.Subset.refl _) (fun v hv => List.mem_of_mem_eraseP hv) (List.Subset.refl _)
    (List.Subset.refl _) fun w hw hp hin => ?_
  rcases Finset.mem_insert.mp hin with heq | hin
  · rw [heq] at hp
    rcases hp with hV | hd
    · exact hok (hq.working work hwork hV)
    · obtain ⟨w', hw', hsame⟩ := List.mem_map.mp hd
      exact hok (hsame ▸ (hq.drained w' hw').2.1)
  · exact hq.parent w (hsub hw) hp hin

theorem Sound.fill (hs : Shaped L q) (hjobs : Jobs L q) (hq : Sound (L := L) V ok q) {work : UnverifiedBlock}
    (info : QueuedHeader) (hwork : work ∈ q.working) (hok : ok work.hash) : Sound (L := L) V ok (q.fill work info) := by
  have hblocks := hjobs.blocks_fill hs info hwork
  refine ⟨hblocks.symm ▸ hq.parent, hq.drained, hq.verified, ?_, hblocks.symm ▸ hq.chain, hblocks.symm ▸ hq.known, hq.working,
    hq.unknown⟩
  intro v hv hdata
  rcases mem_replaceFirst hv with rfl | hv
  · exact hok
  · exact hq.verifying v hv hdata

theorem Sound.drain (hs : Shaped L q) (hkept : Kept q) (horder : InOrder q) (hq : Sound (L := L) V ok q) (max : Nat) :
    Sound (L := L) V ok (q.drain max) := by
  rw [BlockQueue.drain]
  split
  · rw [foldl_drainOne]
    have hsplit := blocks_eq_take_append q max
    have hrest : ∀ w, w ∈ (q.m_verified.drop max).map VerifiedBlock.work ++ q.m_verifying.map VerifiedBlock.work ++
        q.m_unverified → w ∈ q.blocks := fun w hw => hsplit ▸ List.mem_append_right _ hw
    have htake : ∀ w ∈ (q.m_verified.take max).map VerifiedBlock.work, w ∈ q.blocks := fun w hw =>
      hsplit ▸ List.mem_append_left _ hw
    have hverified := horder.verified
    rw [← List.take_append_drop max q.m_verified, List.map_append, supported_append] at hverified
    refine ⟨?_, ?_, fun v hv => hq.verified v (List.mem_of_mem_drop hv), hq.verifying, fun w hw => hq.chain w (hrest w hw),
      fun w hw => hq.known w (hrest w hw), hq.working, hq.unknown⟩
    · rintro w hw hp hbad
      rw [Passed, List.map_append, List.mem_append, ← or_assoc] at hp
      rcases hp with hp | hp
      · exact hq.parent w (hrest w hw) hp hbad
      · obtain ⟨w', hw', hsame⟩ := List.mem_map.mp hp
        have hready : w'.hash ∈ q.m_readySet := (hkept.ready _).mpr (List.mem_map_of_mem (htake w' hw'))
        exact absurd (hkept.readyBad _ hready (hsame ▸ hbad)) (Finset.notMem_empty _)
    · intro w hw
      have hmono : ∀ h, Passed V q h → V h ∨ h ∈ (q.drained ++ (q.m_verified.take max).map VerifiedBlock.work).map
          UnverifiedBlock.hash := by
        rintro h (hh | hh)
        · exact .inl hh
        · rw [List.map_append]
          exact .inr (List.mem_append_left _ hh)
      rcases List.mem_append.mp hw with hw | hw
      · obtain ⟨h1, h2, h3⟩ := hq.drained w hw
        exact ⟨h1, h2, hmono _ h3⟩
      · obtain ⟨v, hv, rfl⟩ := List.mem_map.mp hw
        have hin := List.mem_of_mem_take hv
        refine ⟨(hs.verified v hin).job, hq.verified v hin, ?_⟩
        obtain ⟨l₁, l₂, hl⟩ := List.append_of_mem hw
        rw [hl] at hverified
        rcases hverified.1.at with h | h | ⟨w', hw', hsame⟩
        · exact .inl (hq.chain v.work (htake _ hw) h)
        · exact hmono _ (.inr h)
        · refine .inr ?_
          rw [List.map_append, ← hsame, hl]
          exact List.mem_append_right _ (List.mem_map_of_mem (List.mem_append_left _ hw'))
  · exact hq

/-- Nothing that matters changes. -/
theorem Sound.congr (hq : Sound (L := L) V ok q) (hdrained : q'.drained = q.drained) (hblocks : q'.blocks = q.blocks)
    (hverified : q'.m_verified = q.m_verified) (hverifying : q'.m_verifying = q.m_verifying) (hworking : q'.working ⊆ q.working)
    (hunknown : q'.m_unknown = q.m_unknown) (hbad : q'.m_knownBad = q.m_knownBad) : Sound (L := L) V ok q' := by
  refine hq.leave hdrained ?_ ?_ ?_ hworking ?_ ?_
  · rw [hblocks]
    exact List.Subset.refl _
  · rw [hverified]
    exact List.Subset.refl _
  · rw [hverifying]
    exact List.Subset.refl _
  · rw [hunknown]
    exact List.Subset.refl _
  · rw [hblocks, hbad]
    exact hq.parent

/-- Blocks come whose parents are not bad. -/
theorem Sound.push (hq : Sound (L := L) V ok q) {r : List UnverifiedBlock} (hdrained : q'.drained = q.drained)
    (hblocks : q'.blocks = q.blocks ++ r) (hverified : q'.m_verified = q.m_verified) (hverifying : q'.m_verifying = q.m_verifying)
    (hworking : q'.working = q.working) (hunknown : q'.m_unknown ⊆ q.m_unknown) (hbad : q'.m_knownBad = q.m_knownBad)
    (hr : ∀ w ∈ r, w.parentHash ∉ q.m_knownBad ∧ (w.parentInChain = true → V w.parentHash) ∧
      (V w.hash → ok w.hash ∧ V w.parentHash)) : Sound (L := L) V ok q' := by
  have hpassed : ∀ h, Passed V q' h ↔ Passed V q h := by
    intro h
    rw [Passed, Passed, hdrained]
  refine ⟨?_, ?_, by rw [hverified]; exact hq.verified, by rw [hverifying]; exact hq.verifying, ?_, ?_,
    by rw [hworking]; exact hq.working, fun e he => hq.unknown e (hunknown he)⟩
  · rw [hblocks, hbad]
    intro w hw hp
    rcases List.mem_append.mp hw with hw | hw
    · exact hq.parent w hw ((hpassed _).mp hp)
    · exact (hr w hw).1
  · rw [hdrained]
    intro w hw
    obtain ⟨h1, h2, h3⟩ := hq.drained w hw
    exact ⟨h1, h2, (hpassed _).mpr h3⟩
  · rw [hblocks]
    intro w hw
    exact (List.mem_append.mp hw).elim (hq.chain w) fun hw => (hr w hw).2.1
  · rw [hblocks]
    intro w hw
    exact (List.mem_append.mp hw).elim (hq.known w) fun hw => (hr w hw).2.2

/-- A block that becomes ready is sound. -/
theorem Sound.readyTurn (hkept : Kept q) (hq : Sound (L := L) V ok q) {h : H256} (hh : h ∈ q.m_readySet) :
    Sound (L := L) V ok (readyTurn L q h) := by
  rw [BlockQueue.readyTurn, foldl_unknownIsReady]
  refine hq.push (r := (q.equalRange L h).map UnknownBlock.job) rfl (blocks_push rfl rfl rfl) rfl rfl rfl
    (fun e he => (List.mem_filter.mp he).1) rfl fun w hw => ?_
  obtain ⟨e, he, rfl⟩ := List.mem_map.mp hw
  obtain ⟨hin, hparent⟩ := List.mem_filter.mp ((L.order_perm _).subset he)
  refine ⟨fun hbad => ?_, fun h => absurd h Bool.false_ne_true, hq.unknown e hin⟩
  have hbad : h ∈ q.m_knownBad := of_decide_eq_true hparent ▸ hbad
  exact absurd (hkept.readyBad h hh hbad) (Finset.notMem_empty h)

theorem Sound.imported (hs : Shaped L q) (hkept : Kept q) (hq : Sound (L := L) V ok q) {bi : QueuedHeader} {b : Bytes}
    {parentInChain : Bool} (hnew : q.Unheard bi.hash) (hchain : parentInChain = true → V bi.parentHash)
    (hknown : V bi.hash → ok bi.hash ∧ V bi.parentHash) (h : Imported L q bi b parentInChain q') : Sound (L := L) V ok q' := by
  cases h with
  | future => exact hq.congr rfl rfl rfl rfl (List.Subset.refl _) rfl rfl
  | bad _ =>
    have hs' : Shaped L (q.enterBad bi.hash) :=
      ⟨hs.verified, hs.verifying, hs.unverified, hs.working, hs.unknown, hs.draining⟩
    obtain ⟨hpurged, hnobad⟩ := updateBad_spec (L := L) (q.enterBad bi.hash) bi.hash
    have hworking : (updateBad_WITH_LOCK L (q.enterBad bi.hash) bi.hash).working = q.working :=
      congrArg Core.working hpurged.core
    refine hq.leave (congrArg Core.drained hpurged.core) hpurged.blocks_sublist.subset hpurged.verified.subset
      hpurged.verifying.subset (by rw [hworking]; exact List.Subset.refl _) hpurged.unknown.subset
      fun w hw _ => hnobad.parent (hs'.purged hpurged) w hw
  | unknown _ _ =>
    refine ⟨hq.parent, hq.drained, hq.verified, hq.verifying, hq.chain, hq.known, hq.working, fun e he => ?_⟩
    rcases List.mem_append.mp he with he | he
    · exact hq.unknown e he
    · rw [List.mem_singleton.mp he]
      exact hknown
  | ready hparent _ =>
    refine (noteReady_induct (I := fun q => Kept q ∧ Sound (L := L) V ok q) ?_ ?_ (Finset.mem_insert_self _ _)).2
    · exact fun q h hq hh => ⟨hq.1.readyTurn h, hq.2.readyTurn hq.1 hh⟩
    · refine ⟨hkept.enterReady b parentInChain hnew, ?_⟩
      refine hq.push (r := [⟨bi.hash, bi.parentHash, b, parentInChain⟩]) rfl (blocks_push rfl rfl rfl) rfl rfl rfl
        (List.Subset.refl _) rfl ?_
      intro w hw
      rw [List.mem_singleton.mp hw]
      exact ⟨hparent, hchain, hknown⟩

/-- To take a job keeps what is sound. -/
theorem Sound.takeJob (hq : Sound (L := L) V ok q) : Sound (L := L) V ok q.takeJob := by
  have hblocks := blocks_takeJob q
  rw [BlockQueue.takeJob] at hblocks ⊢
  cases hw : q.m_unverified with
  | nil => exact hq
  | cons work l =>
    rw [hw] at hblocks
    have hmem : work ∈ q.blocks := List.mem_append_right _ (hw ▸ List.mem_cons_self)
    refine ⟨hblocks.symm ▸ hq.parent, hq.drained, hq.verified, ?_, hblocks.symm ▸ hq.chain, hblocks.symm ▸ hq.known, ?_,
      hq.unknown⟩
    · intro v hv hdata
      rcases List.mem_append.mp hv with hv | hv
      · exact hq.verifying v hv hdata
      · rw [List.mem_singleton.mp hv] at hdata
        exact absurd rfl hdata
    · intro w hin
      rcases List.mem_append.mp hin with hin | hin
      · exact hq.working w hin
      · rw [List.mem_singleton.mp hin]
        exact fun hV => (hq.known work hmem hV).1

/-! ## Runs -/

/-- What the chain and `verifyBlock` do, and what a run without `retryAllUnknown` and `clear` is. `V` are the hashes of blocks that
are in the chain at some time, `ok` those of blocks that pass. A block of the chain has passed, and its parent is in the chain. -/
def Faithful (L : Library) (V ok : H256 → Prop) (q : BlockQueue) : Step → Prop
  | .import b _ _ inChain parentInChain => ∀ bi, L.verifyBlock b = some bi →
    (parentInChain = true → V bi.parentHash) ∧ (inChain = false → V bi.hash → ok bi.hash ∧ V bi.parentHash)
  | .tickImport i _ inChain parentInChain => ∀ b bi, q.todo[i]? = some b → L.verifyBlock b = some bi →
    (parentInChain = true → V bi.parentHash) ∧ (inChain = false → V bi.hash → ok bi.hash ∧ V bi.parentHash)
  | .report i good => ∀ work, q.working[i]? = some work → (good = true ↔ ok work.hash)
  | .doneDrain bad => ∀ h ∈ bad, h ∈ q.m_drainingSet
  | .retryAllUnknown => False
  | .clear => False
  | _ => True

/-- A faithful step does not break the bookkeeping. -/
theorem Faithful.unbroken {s : Step} (h : Faithful L V ok q s) : Unbroken q s := by
  refine ⟨?_, ?_⟩
  · rintro rfl
    exact h
  · rintro bad rfl
    exact h

/-- All that holds in such a run. -/
structure RunsWell (L : Library) (V ok : H256 → Prop) (q : BlockQueue) : Prop where
  shaped : Shaped L q
  kept : Kept q
  jobs : Jobs L q
  order : InOrder q
  sound : Sound (L := L) V ok q

/-- An import keeps a run well. -/
theorem RunsWell.imported (hq : RunsWell L V ok q) {b : Bytes} {isOurs : Bool} {now : Nat}
    {inChain parentInChain : Bool} (h : ∀ bi, L.verifyBlock b = some bi →
      (parentInChain = true → V bi.parentHash) ∧ (inChain = false → V bi.hash → ok bi.hash ∧ V bi.parentHash)) :
    InOrder (q.import L b isOurs now inChain parentInChain).2 ∧
      Sound (L := L) V ok (q.import L b isOurs now inChain parentInChain).2 := by
  rcases import_cases (L := L) b isOurs now inChain parentInChain q with heq | ⟨bi, hbi, hin, hnew, himp⟩
  · rw [heq]
    exact ⟨hq.order, hq.sound⟩
  · obtain ⟨hchain, hknown⟩ := h bi hbi
    exact ⟨hq.order.imported hq.kept hq.shaped hnew himp, hq.sound.imported hq.shaped hq.kept hnew hchain (hknown hin) himp⟩

/-- A job that succeeds keeps a run well. -/
theorem RunsWell.filled (hq : RunsWell L V ok q) {i : Nat} {work : UnverifiedBlock} (info : QueuedHeader)
    (hwork : work ∈ q.working) (hok : ok work.hash) :
    InOrder ((q.dropJob i).fill work info) ∧ Sound (L := L) V ok ((q.dropJob i).fill work info) := by
  have hblocks := hq.jobs.blocks_fill hq.shaped info hwork
  refine ⟨hq.order.congr rfl rfl (Finset.Subset.refl _) hblocks rfl (Finset.Subset.refl _), ?_⟩
  exact (hq.sound.fill hq.shaped hq.jobs info hwork hok).congr rfl rfl rfl rfl (fun w hw => List.mem_of_mem_eraseIdx hw) rfl rfl

/-- `doneDrain`, if the hashes it is given are being drained. -/
theorem RunsWell.drained (hq : RunsWell L V ok q) {bad : List H256} (h : ∀ h ∈ bad, h ∈ q.m_drainingSet) :
    InOrder (q.doneDrain L bad) ∧ Sound (L := L) V ok (q.doneDrain L bad) := by
  have hs : Shaped L (q.settleDrain bad) :=
    ⟨hq.shaped.verified, hq.shaped.verifying, hq.shaped.unverified, hq.shaped.working, hq.shaped.unknown, nofun⟩
  have hfiled := hq.kept.settleDrain bad fun h' hh' => hq.kept.drainingUnknown h' (h h' hh')
  have horder : InOrder (q.settleDrain bad) :=
    hq.order.congr rfl rfl (Finset.empty_subset _) rfl rfl Finset.subset_union_left
  obtain ⟨h1, h2, h3⟩ := foldl_updateBad hs hfiled bad
  change InOrder (bad.foldl (updateBad_WITH_LOCK L) (q.settleDrain bad)) ∧
    Sound (L := L) V ok (bad.foldl (updateBad_WITH_LOCK L) (q.settleDrain bad))
  cases bad with
  | nil => exact ⟨horder, hq.sound.congr rfl rfl rfl rfl (List.Subset.refl _) rfl (Finset.union_empty _)⟩
  | cons b bad =>
    have hnobad := h3 (List.cons_ne_nil _ _)
    have hworking : (List.foldl (updateBad_WITH_LOCK L) (q.settleDrain (b :: bad)) (b :: bad)).working = q.working :=
      congrArg Core.working h2.core
    refine ⟨horder.purged hs hq.kept.nodup h2 hnobad, ?_⟩
    refine hq.sound.leave (congrArg Core.drained h2.core) h2.blocks_sublist.subset h2.verified.subset h2.verifying.subset
      (by rw [hworking]; exact List.Subset.refl _) h2.unknown.subset fun w hw _ => hnobad.parent (hs.purged h2) w hw

/-- `tick` takes a block of what it has found. -/
theorem RunsWell.dropTodo (hq : RunsWell L V ok q) (i : Nat) : RunsWell L V ok (q.dropTodo i) where
  shaped := ⟨hq.shaped.verified, hq.shaped.verifying, hq.shaped.unverified, hq.shaped.working, hq.shaped.unknown,
    hq.shaped.draining⟩
  kept := hq.kept.congr rfl rfl rfl rfl rfl rfl
  jobs := hq.jobs.congr rfl rfl rfl
  order := hq.order.congr rfl rfl (Finset.Subset.refl _) rfl rfl (Finset.Subset.refl _)
  sound := hq.sound.congr rfl rfl rfl rfl (List.Subset.refl _) rfl rfl

/-- A report keeps a run well. -/
theorem RunsWell.reported (hq : RunsWell L V ok q) {i : Nat} {good : Bool} (h : Faithful L V ok q (.report i good)) :
    InOrder (next L q (.report i good)) ∧ Sound (L := L) V ok (next L q (.report i good)) := by
  rcases report_cases hq.shaped i good with heq | ⟨work, hwork, hrep⟩
  · rw [heq]
    exact ⟨hq.order, hq.sound⟩
  · have hmem := List.mem_of_getElem? hwork
    have hjob := hq.shaped.working work hmem
    have hverdict := h work hwork
    have hfresh := hq.jobs.fresh hq.kept h.unbroken
    have hsub : q.working.eraseIdx i ⊆ q.working := fun w hw => List.mem_of_mem_eraseIdx hw
    generalize next L q (.report i good) = q' at hrep ⊢
    cases hrep with
    | failure hbad =>
      cases good with
      | true =>
        obtain ⟨bi, hbi, -, -⟩ := hjob
        exact absurd ⟨rfl, bi, hbi⟩ hbad
      | false =>
        have hok : ¬ok work.hash := fun hok => Bool.false_ne_true (hverdict.mpr hok)
        have hkept : Kept (q.failJob work) := hq.kept.failJob hq.shaped hjob (hfresh.1 i work rfl hwork)
        have horder := hq.order.failJob hq.kept hq.shaped hjob
        have hsound := hq.sound.failJob hmem hok
        have hs := (hq.shaped.dropJob i).failJob work
        refine ⟨InOrder.drainVerified (L := L) ?_ hs ?_, Sound.drainVerified hs ?_⟩
        · exact hkept.congr rfl rfl rfl rfl rfl rfl
        · exact horder.congr rfl rfl (Finset.Subset.refl _) rfl rfl (Finset.Subset.refl _)
        · exact hsound.congr rfl rfl rfl rfl hsub rfl rfl
    | filled info hgood hinfo => exact hq.filled info hmem (hverdict.mp hgood)
    | success info hgood hinfo =>
      have hs := (hq.shaped.dropJob i).fill hjob hinfo
      obtain ⟨horder, hsound⟩ := hq.filled (i := i) info hmem (hverdict.mp hgood)
      refine ⟨InOrder.drainVerified (L := L) ?_ hs horder, hsound.drainVerified hs⟩
      exact (hq.kept.fill hq.shaped info hjob).congr rfl rfl rfl rfl rfl rfl

/-- A faithful step keeps a run well. -/
theorem RunsWell.next (hq : RunsWell L V ok q) {s : Step} (h : Faithful L V ok q s) : RunsWell L V ok (next L q s) := by
  have hfresh := hq.jobs.fresh hq.kept h.unbroken
  have hstep : InOrder (BlockQueue.next L q s) ∧ Sound (L := L) V ok (BlockQueue.next L q s) := by
    cases s with
    | «import» b isOurs now inChain parentInChain => exact hq.imported h
    | tick now =>
      exact ⟨hq.order.congr rfl rfl (Finset.Subset.refl _) rfl rfl (Finset.Subset.refl _),
        hq.sound.congr rfl rfl rfl rfl (List.Subset.refl _) rfl rfl⟩
    | tickImport i now inChain parentInChain =>
      rw [BlockQueue.next]
      split
      · exact ⟨hq.order, hq.sound⟩
      · rename_i b hb
        refine RunsWell.imported (q := q.dropTodo i) (hq.dropTodo i) ?_
        exact fun bi hbi => h b bi hb hbi
    | takeJob => exact ⟨hq.order.takeJob, hq.sound.takeJob⟩
    | report i good => exact hq.reported h
    | drain max => exact ⟨hq.order.drain hq.shaped max, hq.sound.drain hq.shaped hq.kept hq.order max⟩
    | doneDrain bad => exact hq.drained h
    | retryAllUnknown => exact absurd h id
    | clear => exact absurd h id
  exact ⟨hq.shaped.next s, hq.kept.next hq.shaped s hfresh, hq.jobs.next hq.kept hq.shaped h.unbroken.1, hstep.1, hstep.2⟩

/-- Faithful runs are well. -/
theorem RunsWell.of_reach (h : Reach (BlockQueue.next L) (Faithful L V ok) new q) : RunsWell L V ok q := by
  refine Reach.invariant (P := RunsWell L V ok) ?_ (fun q s hq hs => hq.next hs) h
  refine ⟨Shaped.new, Kept.new, ⟨List.nodup_nil, nofun, nofun⟩, ⟨List.Sublist.refl _, nofun, trivial, trivial, trivial⟩, ?_⟩
  exact ⟨nofun, nofun, nofun, nofun, nofun, nofun, nofun, nofun⟩

end BlockQueue

end Webthree
