import Webthree.Lemmas.ChainImport
import Webthree.Lib.Transition

/-!
# Runs of the block chain

The one inversion of `import` that everything else is derived from, and that every operation keeps the chain sound.
-/

namespace Webthree

namespace BlockTree

/-- Every block has some difficulty. -/
def Positive {P : ChainParams} (T : BlockTree P) : Prop := ∀ h, 0 < (T.block h).info.difficulty.toNat

end BlockTree

namespace BlockChain

variable {P : ChainParams} {T : BlockTree P} {E : ChainError → BlockChain → Prop}

/-- The details of the parent are in the memo, with the new child. -/
structure Pushed (P : ChainParams) (c : BlockChain) (b : VerifiedBlockRef) (c' : BlockChain) : Prop where
  eq : c' = { c with m_details := c'.m_details }
  parent : c'.m_details b.info.parentHash = some (parentDetails P c b)
  others : ∀ h ≠ b.info.parentHash, ∀ d, c'.m_details h = some d → c.m_details h = some d ∨ c.m_extrasDB.details h = some d

theorem Fits.children {h : H256} {d : BlockDetails} (hd : Fits T h d) (l : List H256) : Fits T h { d with children := l } :=
  ⟨hd.number, hd.totalDifficulty, hd.parent⟩

theorem Pushed.sound {c c' : BlockChain} {b : VerifiedBlockRef} (h : Pushed P c b c') (hc : Sound T c)
    (hp : Stored P c b.info.parentHash) : Sound T c' := by
  have hmemo : ∀ x d, c'.m_details x = some d → Stored P c x ∧ Fits T x d := by
    intro x d hx
    by_cases hxp : x = b.info.parentHash
    · rw [hxp, h.parent] at hx
      cases hx
      rw [hxp]
      exact ⟨hp, (hc.detailsOf hp).children _⟩
    · rcases h.others x hxp d hx with hx | hx
      · exact hc.memo_fits x d hx
      · exact hc.fits x d hx
  have heq := h.eq
  generalize c'.m_details = m at hmemo heq
  subst heq
  exact ⟨hc.block, hc.rooted, hc.bounded, hc.numbers, hc.details, hc.fits, hmemo, hc.head_stored, hc.head_number, hc.head_best,
    hc.checked⟩

/-- The memo gets more entries, and is changed only where it has none. -/
theorem Pushed.filled {c c₁ c₂ : BlockChain} {b : VerifiedBlockRef} (h : Pushed P c b c₁)
    (hf : Filled c.m_extrasDB.details c₁.m_details c₂.m_details) :
    c₂.m_details b.info.parentHash = some (parentDetails P c b) ∧
      ∀ h ≠ b.info.parentHash, ∀ d, c₂.m_details h = some d → c.m_details h = some d ∨ c.m_extrasDB.details h = some d := by
  refine ⟨?_, fun x hx d hd => ?_⟩
  · rcases hf b.info.parentHash with heq | ⟨hnone, -⟩
    · rw [heq]
      exact h.parent
    · rw [h.parent] at hnone
      cases hnone
  · rcases hf.of_some hd with hd | hd
    · exact h.others x hx d hd
    · exact Or.inr hd

theorem Pushed.trans {c c₁ c₂ : BlockChain} {b : VerifiedBlockRef} (h : Pushed P c b c₁) (hr : DetailsOnly c₁ c₂) : Pushed P c b c₂ := by
  have hf := hr.details
  rw [h.eq] at hf
  obtain ⟨hparent, hothers⟩ := h.filled hf
  refine ⟨?_, hparent, hothers⟩
  rw [hr.eq, h.eq]

/-- The memo has what the query for the details has found. -/
theorem details_memo (c : BlockChain) (h : H256) :
    Runs (details h) c (fun _ c' => c'.m_details h = (c.m_details h).or (c.m_extrasDB.details h)) E := by
  rw [details, queryExtras, runs_bind, runs_get]
  cases hm : c.m_details h with
  | some d => exact hm
  | none =>
    cases hdb : c.m_extrasDB.details h with
    | none => exact hm
    | some d => exact Function.update_self _ _ _

theorem push_runs {c c₁ : BlockChain} {b : VerifiedBlockRef} (hr : DetailsOnly c c₁) :
    Runs (do
      let _ ← details b.info.parentHash
      modify (pushChild b.info.parentHash (P.hash b.info))) c₁ (fun _ c' => Pushed P c b c') E := by
  rw [runs_bind]
  refine ((details_runs (E := E) c₁ _).and (details_memo (E := E) c₁ _)).mono ?_ fun _ _ he => he.1
  intro d c₂ h₂
  obtain ⟨⟨-, hr₂⟩, hmemo⟩ := h₂
  have hr' := hr.trans hr₂
  have hget : (c₂.m_details b.info.parentHash).getD NullBlockDetails = c.detailsOf b.info.parentHash := by
    rw [hmemo, ← detailsOf, hr.detailsOf]
  refine ⟨?_, ?_, ?_⟩
  · rw [pushChild, hr'.eq]
  · simp only [pushChild, Function.update_self, parentDetails, hget]
  · intro h hh d hd
    simp only [pushChild, Function.update_of_ne hh] at hd
    exact hr'.details.of_some hd

/-- A block that is accepted as new, or has some difficulty, and is better than the head is not below the head, if the number of the
head is its height. -/
theorem Sound.notMem_chain {c : BlockChain} (hc : Sound T c) {b : VerifiedBlockRef} (hb : T.Has b) {o : Attempt} {mustBeNew : Bool}
    (hacc : Accepted T c b o mustBeNew) (hnew : mustBeNew = true ∨ T.Positive)
    (hnumber : T.number c.m_lastBlockHash = T.height c.m_lastBlockHash) (hbest : Overtakes T c b) :
    P.hash b.info ∉ T.chain c.m_lastBlockHash := by
  intro hmem
  obtain ⟨hstored, hheight, -⟩ := hc.rooted.mem_of_mem_lineage hc.head_stored hmem
  rcases hnew with hnew | hpos
  · have := hacc.new hnew hstored
    rw [hc.head_number] at this
    omega
  · have hle := hc.totalDifficulty_le hc.head_stored hmem
    rcases hbest with hbest | ⟨-, heq, hgas⟩
    · omega
    · -- with the same total difficulty the two are one block
      obtain ⟨a, ha⟩ := hc.rooted.exists_append hc.head_stored hmem
      cases a with
      | nil =>
        obtain ⟨t, ht⟩ := @IsTree.exists_lineage_eq _ T.parent T.height c.m_lastBlockHash
        obtain ⟨t', ht'⟩ := @IsTree.exists_lineage_eq _ T.parent T.height (P.hash b.info)
        rw [List.nil_append, ht, ht'] at ha
        rw [(List.cons.inj ha).1, hb.1] at hgas
        exact absurd hgas (Nat.lt_irrefl _)
      | cons x a =>
        rw [BlockTree.totalDifficulty, BlockTree.totalDifficulty, BlockTree.chain, BlockTree.chain, ha, List.cons_append,
          List.map_cons, List.sum_cons, List.map_append, List.sum_append] at heq
        have := hpos x
        omega

/-- The head stays. -/
theorem kept_of_commit {c c₁ : BlockChain} {b : VerifiedBlockRef} (h : Pushed P c b c₁)
    (hle : T.totalDifficulty (P.hash b.info) ≤ T.totalDifficulty c.m_lastBlockHash) (r : ImportRoute) (hroute : r = ⟨[], []⟩)
    {own : BlockDetails} (hown : own = ownDetails T b) :
    Imported T c b (commit P b [.details b.info.parentHash (parentDetails P c b), .details (P.hash b.info) own] c₁) ∧
      Kept T c b r (commit P b [.details b.info.parentHash (parentDetails P c b), .details (P.hash b.info) own] c₁) := by
  have heq := h.eq
  have hparent := h.parent
  have hothers := h.others
  generalize c₁.m_details = m at heq hparent hothers
  subst heq hown
  exact ⟨⟨rfl, rfl, hparent, hothers⟩, rfl, rfl, hle, hroute, ⟨rfl, rfl, rfl⟩, rfl, rfl, rfl⟩

/-- The databases are written after the blooms have got into the memo: a query reads what it read before. -/
theorem bloomsOf_of_write {c c' : BlockChain} {e : Extras} {live : List H256}
    (hsome : ∀ h ∈ live, ∀ id ∈ chunksOf (T.number h), e.blocksBlooms id = c.m_blocksBlooms id)
    (hrest : ∀ id, (∀ h ∈ live, id ∉ chunksOf (T.number h)) → e.blocksBlooms id = c.m_extrasDB.blocksBlooms id)
    (hmemo : ∀ h ∈ live, ∀ id ∈ chunksOf (T.number h), (c.m_blocksBlooms id).isSome = true)
    (hb : c'.m_blocksBlooms = c.m_blocksBlooms) (he : c'.m_extrasDB = e) : c'.bloomsOf = c.bloomsOf := by
  funext id
  rw [bloomsOf, bloomsOf, hb, he]
  by_cases hid : ∃ h ∈ live, id ∈ chunksOf (T.number h)
  · obtain ⟨h, hh, hid⟩ := hid
    obtain ⟨bb, hbb⟩ := Option.isSome_iff_exists.mp (hmemo h hh id hid)
    rw [hsome h hh id hid, hbb]
    rfl
  · rw [hrest id fun h hh hin => hid ⟨h, hh, hin⟩]

/-- The block becomes the head. -/
theorem switched_of_commit {c c₁ c₂ : BlockChain} {b : VerifiedBlockRef} (h : Pushed P c b c₁) (hb : T.Has b)
    (hbest : Overtakes T c b) {cm : H256} {dead live : List H256}
    {puts : List Put} (hadopt : Adopted T c₁ b cm dead live c₂ puts) {own : BlockDetails} (hown : own = ownDetails T b)
    {c' : BlockChain} (hc' : c' = { commit P b ([.details b.info.parentHash (parentDetails P c b), .details (P.hash b.info) own] ++ puts) c₂
      with m_lastBlockHash := P.hash b.info, m_lastBlockNumber := b.info.number.toNat }) :
    Imported T c b c' ∧ Switched T c b cm dead live ⟨dead, live.reverse⟩ c' := by
  obtain ⟨hforks, hapart, c₃, hrev, hcan⟩ := hadopt
  have hlast : c₁.m_lastBlockHash = c.m_lastBlockHash := by rw [h.eq]
  have hextras : c₂.m_extrasDB = c.m_extrasDB := by rw [hcan.only.extrasDB, hrev.extrasDB, h.eq]
  rw [hlast] at hforks hapart
  generalize he : c.m_extrasDB.write [.details b.info.parentHash (parentDetails P c b), .details (P.hash b.info) own] = e
  have hc'extras : c'.m_extrasDB = e.write puts := by rw [hc', ← he, ← write_append, ← hextras]; rfl
  have hsame : e.blockHash = c.m_extrasDB.blockHash ∧ e.transactionAddress = c.m_extrasDB.transactionAddress ∧
      e.blocksBlooms = c.m_extrasDB.blocksBlooms := by
    rw [← he]
    exact ⟨rfl, rfl, rfl⟩
  have hfilled : Filled c.m_extrasDB.details c₁.m_details c₂.m_details := by
    rw [hcan.only.details]
    have := hrev.details
    rwa [show c₁.m_extrasDB = c.m_extrasDB by rw [h.eq]] at this
  have hmemo := h.filled hfilled
  have hbloomsOf : c'.bloomsOf = c₂.bloomsOf := by
    refine bloomsOf_of_write (hcan.blooms e) (fun id hid => ?_) hcan.memo (by rw [hc']; rfl) hc'extras
    rw [hcan.bloomsRest e id hid, hsame.2.2, hextras]
  refine ⟨⟨?_, ?_, ?_, ?_⟩, ⟨?_, ?_, hbest, hforks, hapart, rfl, ?_, ?_, ?_, ?_, ?_, ?_, ?_, ?_, ?_⟩⟩
  · rw [hc']
    change Function.update c₂.m_blocksDB _ _ = _
    rw [hcan.only.blocksDB, hrev.blocksDB, h.eq]
  · rw [hc'extras, hcan.details, ← he, hown]
    rfl
  · rw [hc']
    exact hmemo.1
  · rw [hc']
    exact hmemo.2
  · rw [hc']
  · rw [hc', BlockTree.number, hb.1]
  · rw [hc']
    change c₂.m_blockHashes = _
    rw [hcan.only.hashes, hrev.hashes, hlast, h.eq]
  · intro hnodup x hx
    rw [hc'extras]
    exact hcan.hashes hnodup e x hx
  · intro n hn
    rw [hc'extras, hcan.hashesRest e n hn, hsame.1]
  · have haddr := hrev.addresses
    rw [← hcan.only.addresses, h.eq] at haddr
    rw [hc']
    exact haddr
  · intro t
    have haddr := hcan.addresses e t
    rw [hsame.2.1] at haddr
    rw [hc'extras]
    exact haddr
  · exact fun x hx => (hcan.covers x hx).congr hbloomsOf
  · intro n hn bits hcov
    refine Covers.congr (fun p hp => hcan.grows _ _ _ (hrev.blooms n hn bits (hcov.congr ?_) p hp)) hbloomsOf
    rw [h.eq]
    rfl
  · intro x hx id hid
    rw [hc'extras, hcan.blooms e x hx id hid, hc']
    rfl
  · intro id hid
    rw [hc'extras, hcan.bloomsRest e id hid, hsame.2.2]

/-- What an import does. -/
theorem import_runs {c : BlockChain} (hc : Sound T c) {b : VerifiedBlockRef} (hb : T.Has b) (o : Attempt) (mustBeNew : Bool) :
    Runs (BlockChain.import P b o mustBeNew) c
      (fun r c' => Accepted T c b o mustBeNew ∧ Imported T c b c' ∧
        (Kept T c b r c' ∨ ∃ cm dead live, Switched T c b cm dead live r c'))
      fun e c' => DetailsOnly c c' ∧ Reason T c b o e ∧ ¬Accepted T c b o mustBeNew := by
  rw [BlockChain.import, runs_bind]
  refine (checks_runs hc hb o mustBeNew).mono ?_ fun _ _ he => he
  intro pd c₁ h₁
  obtain ⟨hr₁, rfl, hacc⟩ := h₁
  have hp := hacc.parent
  have hfits := hc.detailsOf hp
  have htd := hc.totalDifficulty hb hp hacc.height
  have hpush := push_runs (P := P) (E := fun e c' => DetailsOnly c c' ∧ Reason T c b o e ∧ ¬Accepted T c b o mustBeNew) (b := b) hr₁
  rw [runs_bind] at hpush
  rw [runs_bind]
  refine hpush.mono ?_ fun _ _ he => he
  intro _ c₂ h₂
  rw [runs_modify] at h₂
  rw [runs_bind, runs_modify]
  generalize pushChild b.info.parentHash (P.hash b.info) c₂ = c₃ at h₂ ⊢
  have hs₃ := h₂.sound hc hp
  have hlast₃ : c₃.m_lastBlockHash = c.m_lastBlockHash := by rw [h₂.eq]
  have hown : ({ number := T.height b.info.parentHash + 1, totalDifficulty := T.totalDifficulty (P.hash b.info)
                 parent := b.info.parentHash, children := [] } : BlockDetails) = ownDetails T b := by rw [ownDetails, htd]
  rw [runs_bind, runs_get, h₂.parent, Option.getD_some, hfits.number, hfits.totalDifficulty, ← htd, runs_bind]
  refine (isBest_runs (E := fun e c' => DetailsOnly c c' ∧ Reason T c b o e ∧ ¬Accepted T c b o mustBeNew) hs₃ b _).mono ?_ fun _ _ he => he
  intro k c₄ h₄
  obtain ⟨hr₄, hbest, hnot⟩ := h₄
  have h₄ := h₂.trans hr₄
  rw [hlast₃] at hbest hnot
  cases k with
  | false =>
    rw [if_neg Bool.false_ne_true, runs_bind, runs_modify, runs_pure]
    have hkept := kept_of_commit h₄ (hnot rfl) (splitRoute [] nullHash) rfl hown
    exact ⟨hacc, hkept.1, Or.inl hkept.2⟩
  | true =>
    have hs₄ := hr₄.sound hs₃
    have hstored₄ : Stored P c₄ b.info.parentHash := by
      rw [Stored, h₄.eq]
      exact hp
    rw [if_pos rfl, runs_bind]
    refine (adopt_runs hs₄ hb hstored₄ hacc.height).mono ?_ fun _ _ he => he
    intro r c₅ h₅
    obtain ⟨route, cm, puts⟩ := r
    obtain ⟨dead, live, hadopt, hsplit⟩ := h₅
    dsimp only at hadopt hsplit ⊢
    rw [runs_bind, runs_modify, runs_pure, hsplit]
    have hsw := switched_of_commit h₄ hb (hbest rfl) hadopt hown rfl
    exact ⟨hacc, hsw.1, Or.inr ⟨cm, dead, live, hsw.2⟩⟩

/-! ## Steps -/

theorem Imported.stored {c c' : BlockChain} {b : VerifiedBlockRef} (h : Imported T c b c') :
    Stored P c' = fun x => x = P.hash b.info ∨ Stored P c x := by
  funext x
  rw [Stored, Stored, h.blocksDB]
  by_cases hx : x = P.hash b.info
  · simp [hx]
  · simp [hx]

/-- A sound chain stays sound when a block is imported. -/
theorem Imported.sound {c c' : BlockChain} {b : VerifiedBlockRef} (h : Imported T c b c') (hc : Sound T c) (hb : T.Has b)
    {o : Attempt} {mustBeNew : Bool} (hacc : Accepted T c b o mustBeNew)
    (hhead : c'.m_lastBlockHash = c.m_lastBlockHash ∧ c'.m_lastBlockNumber = c.m_lastBlockNumber ∧
        T.totalDifficulty (P.hash b.info) ≤ T.totalDifficulty c.m_lastBlockHash ∨
      c'.m_lastBlockHash = P.hash b.info ∧ c'.m_lastBlockNumber = T.number (P.hash b.info) ∧
        T.totalDifficulty c.m_lastBlockHash ≤ T.totalDifficulty (P.hash b.info)) : Sound T c' := by
  have hstored := h.stored
  have hparent : T.parent (P.hash b.info) = b.info.parentHash := by rw [BlockTree.parent, hb.1]
  have htd := hc.totalDifficulty hb hacc.parent hacc.height
  have hown : Fits T (P.hash b.info) (ownDetails T b) := ⟨hacc.height.symm, htd.symm, fun _ => hparent.symm⟩
  have hup : Fits T b.info.parentHash (parentDetails P c b) := (hc.detailsOf hacc.parent).children _
  refine ⟨?_, ?_, ?_, ?_, ?_, ?_, ?_, ?_, ?_, ?_, ?_⟩
  · intro x y hxy
    rw [h.blocksDB] at hxy
    by_cases hx : x = P.hash b.info
    · rw [hx, Function.update_self] at hxy
      cases hxy
      rw [hx]
      exact ⟨hb.1.symm, rfl, hb.2⟩
    · rw [Function.update_of_ne hx] at hxy
      exact hc.block x y hxy
  · rw [hstored]
    exact hc.rooted.insert (hparent ▸ hacc.parent) (by rw [hparent, hacc.height])
  · rw [hstored]
    intro x hx
    rcases hx with rfl | hx
    · exact hacc.bounded
    · exact hc.bounded x hx
  · rw [hstored]
    intro x hx
    rcases hx with rfl | hx
    · exact hacc.number
    · exact hc.numbers x hx
  · rw [hstored, h.details]
    intro x hx
    by_cases hxb : x = P.hash b.info
    · rw [hxb, Function.update_self]
      exact ⟨_, rfl⟩
    · rw [Function.update_of_ne hxb]
      by_cases hxp : x = b.info.parentHash
      · rw [hxp, Function.update_self]
        exact ⟨_, rfl⟩
      · rw [Function.update_of_ne hxp]
        exact hc.details x (hx.resolve_left hxb)
  · rw [hstored, h.details]
    intro x d hd
    by_cases hxb : x = P.hash b.info
    · rw [hxb, Function.update_self] at hd
      cases hd
      exact ⟨Or.inl hxb, hxb ▸ hown⟩
    · rw [Function.update_of_ne hxb] at hd
      by_cases hxp : x = b.info.parentHash
      · rw [hxp, Function.update_self] at hd
        cases hd
        exact ⟨Or.inr (hxp ▸ hacc.parent), hxp ▸ hup⟩
      · rw [Function.update_of_ne hxp] at hd
        exact ⟨Or.inr (hc.fits x d hd).1, (hc.fits x d hd).2⟩
  · rw [hstored]
    intro x d hd
    by_cases hxp : x = b.info.parentHash
    · rw [hxp, h.memo_parent] at hd
      cases hd
      exact ⟨Or.inr (hxp ▸ hacc.parent), hxp ▸ hup⟩
    · rcases h.memo x hxp d hd with hd | hd
      · exact ⟨Or.inr (hc.memo_fits x d hd).1, (hc.memo_fits x d hd).2⟩
      · exact ⟨Or.inr (hc.fits x d hd).1, (hc.fits x d hd).2⟩
  · rw [hstored]
    rcases hhead with hhead | hhead
    · exact Or.inr (hhead.1 ▸ hc.head_stored)
    · exact Or.inl hhead.1
  · rcases hhead with hhead | hhead
    · rw [hhead.1, hhead.2.1]
      exact hc.head_number
    · rw [hhead.1, hhead.2.1]
  · rw [hstored]
    intro x hx
    rcases hhead with hhead | hhead
    · rw [hhead.1]
      rcases hx with rfl | hx
      · exact hhead.2.2
      · exact hc.head_best x hx
    · rw [hhead.1]
      rcases hx with rfl | hx
      · exact Nat.le_refl _
      · exact Nat.le_trans (hc.head_best x hx) hhead.2.2
  · rw [hstored]
    intro x hx hg
    rcases hx with rfl | hx
    · rw [hparent, hb.1]
      exact hacc.follows
    · exact hc.checked x hx hg

theorem Imported.sound_of_head {c c' : BlockChain} {b : VerifiedBlockRef} (h : Imported T c b c') (hc : Sound T c) (hb : T.Has b)
    {o : Attempt} {mustBeNew : Bool} (hacc : Accepted T c b o mustBeNew) {r : ImportRoute}
    (hhead : Kept T c b r c' ∨ ∃ cm dead live, Switched T c b cm dead live r c') : Sound T c' := by
  refine h.sound hc hb hacc ?_
  rcases hhead with hk | ⟨cm, dead, live, hs⟩
  · exact Or.inl ⟨hk.lastHash, hk.lastNumber, hk.notBetter⟩
  · exact Or.inr ⟨hs.lastHash, hs.lastNumber, hs.better.le⟩

theorem sound_new : Sound T (new P) := by
  have hstored : ∀ h, Stored P (new P) h ↔ h = P.genesisHash := by
    intro h
    rw [Stored, new]
    simp
  have hfits : ∀ h d, (new P).m_details h = some d → Stored P (new P) h ∧ Fits T h d := by
    intro h d hd
    by_cases hg : h = P.genesisHash
    · simp only [hg, new, Function.update_self] at hd
      cases hd
      refine ⟨Or.inl hg, ?_, ?_, fun hne => absurd hg hne⟩
      · rw [hg, T.height_genesis]
        rfl
      · rw [hg, BlockTree.totalDifficulty, BlockTree.chain, lineage, T.height_genesis]
        simp [T.block_genesis, genesisDetails]
    · simp only [new, Function.update_of_ne hg] at hd
      cases hd
  refine ⟨?_, ?_, ?_, ?_, ?_, hfits, hfits, Or.inl rfl, T.number_genesis.symm, ?_, fun h hh hne => absurd ((hstored h).mp hh) hne⟩
  · intro h b hb
    cases hb
  · exact ⟨Or.inl rfl, T.height_genesis, fun x hx hne => absurd ((hstored x).mp hx) hne,
      fun x hx hne => absurd ((hstored x).mp hx) hne⟩
  · intro h hh
    rw [(hstored h).mp hh, T.height_genesis]
    norm_num
  · intro h hh
    rw [(hstored h).mp hh, T.number_genesis]
    norm_num
  · intro h hh
    rw [(hstored h).mp hh]
    refine ⟨genesisDetails P, ?_⟩
    simp only [new, Function.update_self]
  · intro h hh
    rw [(hstored h).mp hh]
    exact Nat.le_refl _

/-- The numbers of the stored blocks are their heights. -/
def Counted (T : BlockTree P) (c : BlockChain) : Prop := ∀ h, Stored P c h → T.number h = T.height h

theorem counted_new : Counted T (new P) := by
  intro h hh
  have hg : h = P.genesisHash := hh.resolve_right (by simp [new])
  rw [hg, T.number_genesis, T.height_genesis]

theorem Counted.head {c : BlockChain} (h : Counted T c) (hc : Sound T c) : c.m_lastBlockNumber = T.height c.m_lastBlockHash :=
  hc.head_number.trans (h _ hc.head_stored)

end BlockChain

namespace ChainOp

open BlockChain

variable {P : ChainParams} {T : BlockTree P}

/-- The block of an import is the one with its hash. -/
def Allowed (T : BlockTree P) : ChainOp → Prop
  | .import b _ _ => T.Has b
  | _ => True

theorem quiet_evict (c : BlockChain) (ids : List CacheID) :
    Quiet c (ids.foldl evict c) ∧ (ids.foldl evict c).m_blockHashes = c.m_blockHashes := by
  induction ids using List.reverseRecOn with
  | nil => exact ⟨(Recalled.refl c).quiet, rfl⟩
  | append_singleton ids id ih =>
    rw [List.foldl_append, List.foldl_cons, List.foldl_nil]
    generalize ids.foldl evict c = c₁ at ih
    obtain ⟨hq, hh⟩ := ih
    have hnone : ∀ {κ β : Type} [DecidableEq κ] (m : κ → Option β) (k k' : κ) (x : β),
        Function.update m k none k' = some x → m k' = some x := by
      intro κ β _ m k k' x hx
      by_cases hk : k' = k
      · rw [hk, Function.update_self] at hx
        cases hx
      · rwa [Function.update_of_ne hk] at hx
    cases id with
    | details h =>
      exact ⟨⟨hq.blocksDB, hq.extrasDB, hq.lastHash, hq.lastNumber, fun x d hd => hq.details x d (hnone _ _ _ _ hd), hq.addresses,
        hq.blooms⟩, hh⟩
    | transactionAddress t =>
      exact ⟨⟨hq.blocksDB, hq.extrasDB, hq.lastHash, hq.lastNumber, hq.details, fun x d hd => hq.addresses x d (hnone _ _ _ _ hd),
        hq.blooms⟩, hh⟩
    | blocksBlooms id =>
      exact ⟨⟨hq.blocksDB, hq.extrasDB, hq.lastHash, hq.lastNumber, hq.details, hq.addresses,
        fun x d hd => hq.blooms x d (hnone _ _ _ _ hd)⟩, hh⟩

/-- The state after a query, which does not throw. -/
theorem endState_query {β : Type} {m : ChainM β} {c : BlockChain} {R : BlockChain → Prop}
    (h : ∀ E : ChainError → BlockChain → Prop, Runs m c (fun _ c' => R c') E) : R (endState ((do let _ ← m : ChainM Unit) c)) := by
  refine Runs.endState (P := R) ?_
  rw [runs_bind]
  exact (h fun _ c' => R c').mono (fun _ _ hc' => hc') fun _ _ hc' => hc'

/-- What a step can do: import a block, or change nothing but memos. -/
theorem next_cases {c : BlockChain} (hc : Sound T c) {op : ChainOp} (hop : op.Allowed T) :
    (∃ b o mustBeNew r, op = .import b o mustBeNew ∧ BlockChain.import P b o mustBeNew c = .ok r (next P c op) ∧ T.Has b ∧
      Accepted T c b o mustBeNew ∧ Imported T c b (next P c op) ∧
      (Kept T c b r (next P c op) ∨ ∃ cm dead live, Switched T c b cm dead live r (next P c op))) ∨
    (Quiet c (next P c op) ∧ ∀ n h, (next P c op).m_blockHashes n = some h →
      c.m_blockHashes n = some h ∨ (op = .numberHash n ∧ n ≠ 0 ∧ c.m_extrasDB.blockHash n = some h)) := by
  cases op with
  | «import» b o mustBeNew =>
    have hruns := import_runs hc hop o mustBeNew
    have hnext : next P c (.import b o mustBeNew) = endState (BlockChain.import P b o mustBeNew c) := by
      rw [next, run]
      simp only [bind, EStateM.bind]
      cases BlockChain.import P b o mustBeNew c with
      | ok r c' => rfl
      | error e c' => rfl
    unfold Runs at hruns
    rw [hnext]
    cases hi : BlockChain.import P b o mustBeNew c with
    | ok r c' =>
      rw [hi] at hruns
      exact Or.inl ⟨b, o, mustBeNew, r, rfl, hi, hop, hruns⟩
    | error e c' =>
      rw [hi] at hruns
      refine Or.inr ⟨hruns.1.recalled.quiet, fun n h hn => Or.inl ?_⟩
      rw [endState, hruns.1.eq] at hn
      exact hn
  | isKnown h cur =>
    have hend : DetailsOnly c (next P c (.isKnown h cur)) :=
      endState_query fun _ => (isKnown_runs hc h cur).mono (fun _ _ h => h.1) fun _ _ h => h
    refine Or.inr ⟨hend.recalled.quiet, fun n x hn => Or.inl ?_⟩
    rw [hend.eq] at hn
    exact hn
  | details h =>
    have hend : DetailsOnly c (next P c (.details h)) :=
      endState_query fun _ => (details_runs c h).mono (fun _ _ h => h.2) fun _ _ h => h
    refine Or.inr ⟨hend.recalled.quiet, fun n x hn => Or.inl ?_⟩
    rw [hend.eq] at hn
    exact hn
  | numberHash i =>
    by_cases hi : i = 0
    · have hend : next P c (.numberHash i) = c := by
        rw [next, run, BlockChain.numberHash, if_pos hi]
        rfl
      rw [hend]
      exact Or.inr ⟨(Recalled.refl c).quiet, fun n x hn => Or.inl hn⟩
    · have hend : Recalled c (next P c (.numberHash i)) ∧ ∀ n h, (next P c (.numberHash i)).m_blockHashes n = some h →
          c.m_blockHashes n = some h ∨ (n = i ∧ c.m_extrasDB.blockHash n = some h) := by
        refine endState_query (R := fun c' => Recalled c c' ∧ ∀ n h, c'.m_blockHashes n = some h →
          c.m_blockHashes n = some h ∨ (n = i ∧ c.m_extrasDB.blockHash n = some h)) fun E => ?_
        rw [BlockChain.numberHash, if_neg hi]
        refine (queryExtras_runs ⟨Recalled.refl c, fun _ _ h => Or.inl h⟩ fun x hm hdb => ⟨?_, fun n h hn => ?_⟩).mono
          (fun _ _ h => h.2) fun _ _ h => h
        · exact ⟨rfl, rfl, rfl, rfl, Filled.refl _ _, Filled.update hm hdb, Filled.refl _ _, Filled.refl _ _⟩
        · by_cases hni : n = i
          · simp only [hni, Function.update_self] at hn
            exact Or.inr ⟨hni, by rw [hni, hdb, hn]⟩
          · simp only [Function.update_of_ne hni] at hn
            exact Or.inl hn
      refine Or.inr ⟨hend.1.quiet, fun n h hn => ?_⟩
      rcases hend.2 n h hn with hn | ⟨hni, hn⟩
      · exact Or.inl hn
      · exact Or.inr ⟨by rw [hni], hni ▸ hi, hn⟩
  | transactionAddress t =>
    have hend : Recalled c (next P c (.transactionAddress t)) ∧ (next P c (.transactionAddress t)).m_blockHashes = c.m_blockHashes := by
      refine endState_query (R := fun c' => Recalled c c' ∧ c'.m_blockHashes = c.m_blockHashes) fun E => ?_
      refine (queryExtras_runs ⟨Recalled.refl c, rfl⟩ fun x hm hdb => ⟨?_, rfl⟩).mono (fun _ _ h => h.2) fun _ _ h => h
      exact ⟨rfl, rfl, rfl, rfl, Filled.refl _ _, Filled.refl _ _, Filled.update hm hdb, Filled.refl _ _⟩
    exact Or.inr ⟨hend.1.quiet, fun n h hn => Or.inl (hend.2 ▸ hn)⟩
  | blocksBlooms id =>
    have hend : Recalled c (next P c (.blocksBlooms id)) ∧ (next P c (.blocksBlooms id)).m_blockHashes = c.m_blockHashes := by
      refine endState_query (R := fun c' => Recalled c c' ∧ c'.m_blockHashes = c.m_blockHashes) fun E => ?_
      refine (queryExtras_runs ⟨Recalled.refl c, rfl⟩ fun x hm hdb => ⟨?_, rfl⟩).mono (fun _ _ h => h.2) fun _ _ h => h
      exact ⟨rfl, rfl, rfl, rfl, Filled.refl _ _, Filled.refl _ _, Filled.refl _ _, Filled.update hm hdb⟩
    exact Or.inr ⟨hend.1.quiet, fun n h hn => Or.inl (hend.2 ▸ hn)⟩
  | garbageCollect ids =>
    have hq := quiet_evict c ids
    refine Or.inr ⟨hq.1, fun n h hn => Or.inl ?_⟩
    rw [← hq.2]
    exact hn

theorem next_sound {c : BlockChain} (hc : Sound T c) {op : ChainOp} (hop : op.Allowed T) : Sound T (next P c op) := by
  rcases next_cases hc hop with ⟨b, o, mustBeNew, r, -, -, hb, hacc, himp, hhead⟩ | ⟨hq, -⟩
  · exact himp.sound_of_head hc hb hacc hhead
  · exact hq.sound hc

/-- A block that is accepted has the number after that of its parent. `verify` looks only if the parent has a time. -/
def Counts (T : BlockTree P) (c : BlockChain) (op : ChainOp) : Prop :=
  op.Allowed T ∧ ∀ b o mustBeNew, op = .import b o mustBeNew → Accepted T c b o mustBeNew →
    T.number (P.hash b.info) = T.number b.info.parentHash + 1

theorem sound_of_reach {allowed : BlockChain → ChainOp → Prop} (hallowed : ∀ c op, allowed c op → op.Allowed T) {c : BlockChain}
    (hc : Reach (next P) allowed (new P) c) : Sound T c :=
  hc.invariant sound_new fun c op hs hop => next_sound hs (hallowed c op hop)

/-- The numbers of stored blocks stay their heights. -/
theorem next_counted {c : BlockChain} (hc : Sound T c) (hcount : Counted T c) {op : ChainOp} (hop : Counts T c op) :
    Counted T (next P c op) := by
  rcases next_cases hc hop.1 with ⟨b, o, mustBeNew, r, heq, -, -, hacc, himp, -⟩ | ⟨hq, -⟩
  · intro x hx
    rw [himp.stored] at hx
    rcases hx with rfl | hx
    · rw [hop.2 b o mustBeNew heq hacc, hacc.height, hcount _ hacc.parent]
    · exact hcount x hx
  · intro x hx
    rw [Stored, hq.blocksDB] at hx
    exact hcount x hx

theorem counted_of_reach {allowed : BlockChain → ChainOp → Prop} (hallowed : ∀ c op, allowed c op → Counts T c op) {c : BlockChain}
    (hc : Reach (next P) allowed (new P) c) : Sound T c ∧ Counted T c := by
  refine hc.invariant (P := fun c => Sound T c ∧ Counted T c) ⟨sound_new, counted_new⟩ fun c op hcc hop => ?_
  exact ⟨next_sound hcc.1 (hallowed c op hop).1, next_counted hcc.1 hcc.2 (hallowed c op hop)⟩

end ChainOp

end Webthree
