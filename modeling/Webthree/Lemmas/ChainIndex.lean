import Webthree.Lemmas.ChainStep

/-!
# The indices of the canonical chain

The index of numbers, that of transactions, the children of a block and the blooms: for each of them what a run keeps, and under
which condition on the steps.
-/

namespace Webthree

namespace BlockChain

variable {P : ChainParams} {T : BlockTree P}

/-! ## The new branch -/

section Switched

variable {c c' : BlockChain} {b : VerifiedBlockRef} {cm : H256} {dead live : List H256} {r : ImportRoute}

theorem Switched.common_mem (h : Switched T c b cm dead live r c') (hc : Sound T c) :
    Stored P c cm ∧ T.height cm ≤ T.height c.m_lastBlockHash := by
  obtain ⟨hs, hle, -⟩ := hc.rooted.mem_of_mem_lineage hc.head_stored h.forks.mem_left
  exact ⟨hs, hle⟩

theorem Switched.mem_chain (h : Switched T c b cm dead live r c') (x : H256) :
    x ∈ T.chain c'.m_lastBlockHash ↔ x ∈ live ∨ x ∈ T.chain cm := by
  rw [h.lastHash, BlockTree.chain, h.forks.right, List.mem_append]
  rfl

/-- What is not new was canonical before. -/
theorem Switched.mem_old (h : Switched T c b cm dead live r c') {x : H256} (hx : x ∈ T.chain cm) : x ∈ T.chain c.m_lastBlockHash := by
  rw [BlockTree.chain, h.forks.left]
  exact List.mem_append_right _ hx

theorem Switched.height_lt (h : Switched T c b cm dead live r c') (hc' : Sound T c') {x : H256} (hx : x ∈ live) :
    T.height cm < T.height x := by
  have hhead : Stored P c' (P.hash b.info) := h.lastHash ▸ hc'.head_stored
  exact h.forks.symm.height_lt hc'.rooted hhead hx

theorem Switched.ancestor_eq (h : Switched T c b cm dead live r c') (hc : Sound T c) (hc' : Sound T c') {n : Nat}
    (hn : n ≤ T.height cm) : T.ancestor c'.m_lastBlockHash n = T.ancestor c.m_lastBlockHash n := by
  have hhead : Stored P c' (P.hash b.info) := h.lastHash ▸ hc'.head_stored
  rw [h.lastHash, BlockTree.ancestor, BlockTree.ancestor, ← hc.rooted.ancestorAt_of_mem hc.head_stored h.forks.mem_left hn,
    ← hc'.rooted.ancestorAt_of_mem hhead h.forks.mem_right hn]

/-- The canonical block at a height above the common ancestor is new. -/
theorem Switched.ancestor_mem (h : Switched T c b cm dead live r c') (hc : Sound T c) (hc' : Sound T c') {n : Nat}
    (hcm : T.height cm < n) (hn : n ≤ T.height (P.hash b.info)) :
    T.ancestor c'.m_lastBlockHash n ∈ live ∧ T.height (T.ancestor c'.m_lastBlockHash n) = n := by
  have hhead : Stored P c' (P.hash b.info) := h.lastHash ▸ hc'.head_stored
  have hheight : T.height (T.ancestor c'.m_lastBlockHash n) = n := by
    rw [h.lastHash]
    exact hc'.rooted.height_ancestorAt hhead hn
  refine ⟨?_, hheight⟩
  rcases (h.mem_chain _).mp (IsTree.ancestorAt_mem_lineage n) with hmem | hmem
  · exact hmem
  · have hle := (hc.rooted.mem_of_mem_lineage (h.common_mem hc).1 hmem).2.1
    have heq : T.height (ancestorAt T.parent T.height c'.m_lastBlockHash n) = n := hheight
    omega

theorem Switched.dead_length (h : Switched T c b cm dead live r c') :
    dead.length + T.height cm = T.height c.m_lastBlockHash := by
  have hlen := congrArg List.length h.forks.left
  rw [List.length_append, lineage, lineage, List.length_map, List.length_map, List.length_range, List.length_range] at hlen
  omega

end Switched

/-! ## Numbers -/

/-- The database has the canonical block with each number, and the memo has nothing else. -/
structure Numbered (T : BlockTree P) (c : BlockChain) : Prop where
  db : ∀ n, n ≠ 0 → n ≤ c.m_lastBlockNumber → c.m_extrasDB.blockHash n = some (T.ancestor c.m_lastBlockHash n)
  memo : ∀ n h, c.m_blockHashes n = some h → n ≤ c.m_lastBlockNumber ∧ h = T.ancestor c.m_lastBlockHash n

theorem Numbered.switched {c c' : BlockChain} (hn : Numbered T c) (hc : Sound T c) (hc' : Sound T c') (hcount : Counted T c)
    (hcount' : Counted T c') {b : VerifiedBlockRef} {cm : H256} {dead live : List H256} {r : ImportRoute}
    (h : Switched T c b cm dead live r c') : Numbered T c' := by
  have hlen := h.dead_length
  have hhead : Stored P c' (P.hash b.info) := h.lastHash ▸ hc'.head_stored
  have hcm := (hc'.rooted.mem_of_mem_lineage hhead h.forks.mem_right).2.1
  have hnumber : ∀ x ∈ live, T.number x = T.height x := by
    intro x hx
    exact hcount' x (hc'.rooted.mem_of_mem_lineage hhead (h.forks.right ▸ List.mem_append_left _ hx)).1
  have hnodup : (live.map T.number).Nodup := by
    have hall := hc'.rooted.heights_nodup hhead
    rw [h.forks.right, List.map_append] at hall
    rw [List.map_congr_left hnumber]
    exact (List.nodup_append.mp hall).1
  have hold : ∀ n, n ≤ T.height cm → n ≤ c.m_lastBlockNumber := by
    intro n hle
    rw [hcount.head hc]
    omega
  refine ⟨fun n hn0 hle => ?_, fun n x hx => ?_⟩
  · rw [h.lastNumber, hcount' _ hhead] at hle
    by_cases hncm : n ≤ T.height cm
    · rw [h.ancestor_eq hc hc' hncm, h.hashesRest n, hn.db n hn0 (hold n hncm)]
      intro y hy heq
      have := h.height_lt hc' hy
      rw [hnumber y hy] at heq
      omega
    · obtain ⟨hmem, hheight⟩ := h.ancestor_mem hc hc' (Nat.lt_of_not_le hncm) hle
      have := h.hashes hnodup _ hmem
      rwa [hnumber _ hmem, hheight] at this
  · rw [h.hashes_memo, eraseHashes_apply (by omega)] at hx
    split at hx
    · cases hx
    · rename_i hout
      obtain ⟨hle, heq⟩ := hn.memo n x hx
      rw [hcount.head hc] at hle
      have hncm : n ≤ T.height cm := by omega
      rw [h.lastNumber, hcount' _ hhead, h.ancestor_eq hc hc' hncm]
      exact ⟨Nat.le_trans hncm hcm, heq⟩

end BlockChain

namespace ChainOp

open BlockChain

variable {P : ChainParams} {T : BlockTree P}

/-- Numbers are counted up, and one above that of the head is asked for only if the database has nothing under it. -/
def Within (T : BlockTree P) (c : BlockChain) (op : ChainOp) : Prop :=
  Counts T c op ∧ ∀ k, op = .numberHash k → k ≤ c.m_lastBlockNumber ∨ c.m_extrasDB.blockHash k = none

theorem numbered_of_reach {c : BlockChain} (h : Reach (next P) (Within T) (new P) c) :
    (Sound T c ∧ Counted T c) ∧ BlockChain.Numbered T c := by
  refine h.invariant (P := fun c => (Sound T c ∧ Counted T c) ∧ BlockChain.Numbered T c) ⟨⟨sound_new, counted_new⟩, ?_⟩ ?_
  · refine ⟨fun n hn0 hle => absurd (Nat.le_zero.mp hle) hn0, fun n x hx => ?_⟩
    cases hx
  · intro c op hc hop
    obtain ⟨⟨hs, hcount⟩, hn⟩ := hc
    have hs' := next_sound hs hop.1.1
    have hcount' := next_counted hs hcount hop.1
    refine ⟨⟨hs', hcount'⟩, ?_⟩
    rcases next_cases hs hop.1.1 with ⟨b, o, mustBeNew, r, -, -, hb, hacc, himp, hhead⟩ | ⟨hq, hmemo⟩
    · rcases hhead with hk | ⟨cm, dead, live, hsw⟩
      · refine ⟨?_, ?_⟩
        · rw [hk.extras.1, hk.lastHash, hk.lastNumber]
          exact hn.db
        · rw [hk.memos.1, hk.lastHash, hk.lastNumber]
          exact hn.memo
      · exact hn.switched hs hs' hcount hcount' hsw
    · refine ⟨?_, fun n x hx => ?_⟩
      · rw [hq.extrasDB, hq.lastHash, hq.lastNumber]
        exact hn.db
      · rw [hq.lastHash, hq.lastNumber]
        rcases hmemo n x hx with hx | ⟨hnumber, hn0, hdb⟩
        · exact hn.memo n x hx
        · rcases hop.2 n hnumber with hle | hnone
          · rw [hn.db n hn0 hle] at hdb
            exact ⟨hle, (Option.some.inj hdb).symm⟩
          · rw [hnone] at hdb
            cases hdb

end ChainOp

/-! ## Transactions -/

namespace BlockChain

variable {P : ChainParams} {T : BlockTree P}

/-- The entry names a canonical block, and the position of the transaction in it. -/
def Located (T : BlockTree P) (c : BlockChain) (t : H256) (ta : TransactionAddress) : Prop :=
  ta.blockHash ∈ T.chain c.m_lastBlockHash ∧ ∃ x, (T.block ta.blockHash).transactions[ta.index]? = some x ∧ P.sha3 x = t

/-- A canonical block has the transaction. -/
def Contained (T : BlockTree P) (c : BlockChain) (t : H256) : Prop :=
  ∃ h ∈ T.chain c.m_lastBlockHash, ∃ x ∈ (T.block h).transactions, P.sha3 x = t

/-- The database has an entry for each transaction of the canonical chain, and every entry names such a block. -/
structure Indexed (T : BlockTree P) (c : BlockChain) : Prop where
  db : ∀ t ta, c.m_extrasDB.transactionAddress t = some ta → Located T c t ta
  memo : ∀ t ta, c.m_transactionAddresses t = some ta → Located T c t ta
  complete : ∀ t, Contained T c t → ∃ ta, c.m_extrasDB.transactionAddress t = some ta

theorem Located.congr {c c' : BlockChain} {t : H256} {ta : TransactionAddress} (h : Located T c t ta)
    (hlast : c'.m_lastBlockHash = c.m_lastBlockHash) : Located T c' t ta := by
  rw [Located, hlast]
  exact h

/-- Every transaction whose entry names a block that `b` abandons is in a block that `b` brings in. -/
def Resettled (T : BlockTree P) (c : BlockChain) (b : VerifiedBlockRef) : Prop :=
  ∀ t ta, c.m_extrasDB.transactionAddress t = some ta → ta.blockHash ∉ T.chain (P.hash b.info) →
    ∃ h ∈ T.chain (P.hash b.info), h ∉ T.chain c.m_lastBlockHash ∧ ∃ x ∈ (T.block h).transactions, P.sha3 x = t

theorem Indexed.switched {c c' : BlockChain} (hi : Indexed T c) {b : VerifiedBlockRef} (hr : Resettled T c b) {cm : H256}
    {dead live : List H256} {r : ImportRoute} (h : Switched T c b cm dead live r c') : Indexed T c' := by
  have hlive : ∀ x, x ∈ T.chain (P.hash b.info) → x ∉ T.chain c.m_lastBlockHash → x ∈ live := by
    intro x hx hn
    rw [← h.lastHash] at hx
    exact ((h.mem_chain x).mp hx).resolve_right fun hcm => hn (h.mem_old hcm)
  refine ⟨fun t ta hta => ?_, fun t ta hta => ?_, fun t ht => ?_⟩
  · rcases h.addresses t with ⟨x, hx, i, tx, hi', htx, heq⟩ | ⟨hno, heq⟩
    · rw [heq] at hta
      cases hta
      exact ⟨(h.mem_chain x).mpr (Or.inl hx), tx, hi', htx⟩
    · rw [heq] at hta
      refine ⟨?_, (hi.db t ta hta).2⟩
      by_contra hout
      rw [h.lastHash] at hout
      obtain ⟨x, hx, hnx, tx, htx, hsha⟩ := hr t ta hta hout
      exact hno x (hlive x hx hnx) tx htx hsha
  · rcases h.addresses_memo with ⟨hdead, heq⟩ | ⟨-, heq⟩
    · rw [heq] at hta
      obtain ⟨hmem, hx⟩ := hi.memo t ta hta
      rw [BlockTree.chain, h.forks.left, hdead, List.nil_append] at hmem
      exact ⟨(h.mem_chain _).mpr (Or.inr hmem), hx⟩
    · rw [heq] at hta
      cases hta
  · obtain ⟨x, hx, tx, htx, hsha⟩ := ht
    rcases h.addresses t with ⟨y, -, i, -, -, -, heq⟩ | ⟨hno, heq⟩
    · exact ⟨_, heq⟩
    · rw [heq]
      rcases (h.mem_chain x).mp hx with hx | hx
      · exact absurd hsha (hno x hx tx htx)
      · exact hi.complete t ⟨x, h.mem_old hx, tx, htx, hsha⟩

theorem Indexed.kept {c c' : BlockChain} (hi : Indexed T c) (hlast : c'.m_lastBlockHash = c.m_lastBlockHash)
    (hdb : c'.m_extrasDB.transactionAddress = c.m_extrasDB.transactionAddress)
    (hmemo : ∀ t ta, c'.m_transactionAddresses t = some ta →
      c.m_transactionAddresses t = some ta ∨ c.m_extrasDB.transactionAddress t = some ta) : Indexed T c' := by
  refine ⟨fun t ta hta => ?_, fun t ta hta => ?_, fun t ht => ?_⟩
  · rw [hdb] at hta
    exact (hi.db t ta hta).congr hlast
  · rcases hmemo t ta hta with hta | hta
    · exact (hi.memo t ta hta).congr hlast
    · exact (hi.db t ta hta).congr hlast
  · rw [Contained, hlast] at ht
    rw [hdb]
    exact hi.complete t ht

/-- What the query for a transaction returns. -/
theorem Indexed.addressOf {c : BlockChain} (hi : Indexed T c) (hc : Sound T c) (t : H256) :
    (c.addressOf t = NullTransactionAddress ∧ ¬Contained T c t) ∨
      ((c.addressOf t).isSet = true ∧ Located T c t (c.addressOf t) ∧ Contained T c t) := by
  have hfound : ∀ ta, Located T c t ta → ta.isSet = true ∧ Located T c t ta ∧ Contained T c t := by
    intro ta hta
    obtain ⟨hmem, x, hx, hsha⟩ := hta
    have hnull := hc.ne_null (hc.rooted.mem_of_mem_lineage hc.head_stored hmem).1
    refine ⟨decide_eq_true hnull, ⟨hmem, x, hx, hsha⟩, ta.blockHash, hmem, x, List.mem_of_getElem? hx, hsha⟩
  rw [BlockChain.addressOf]
  cases hm : c.m_transactionAddresses t with
  | some ta => exact Or.inr (hfound ta (hi.memo t ta hm))
  | none =>
    cases hdb : c.m_extrasDB.transactionAddress t with
    | some ta => exact Or.inr (hfound ta (hi.db t ta hdb))
    | none =>
      refine Or.inl ⟨rfl, fun ht => ?_⟩
      obtain ⟨ta, hta⟩ := hi.complete t ht
      rw [hta] at hdb
      cases hdb

end BlockChain

namespace ChainOp

open BlockChain

variable {P : ChainParams} {T : BlockTree P}

/-- A block that becomes the head has the transactions of the blocks it abandons in those it brings in. -/
def Resettling (T : BlockTree P) (c : BlockChain) (op : ChainOp) : Prop :=
  op.Allowed T ∧ ∀ b o mustBeNew, op = .import b o mustBeNew → Accepted T c b o mustBeNew → Overtakes T c b → Resettled T c b

theorem indexed_of_reach {c : BlockChain} (h : Reach (next P) (Resettling T) (new P) c) : Sound T c ∧ Indexed T c := by
  refine h.invariant (P := fun c => Sound T c ∧ Indexed T c) ⟨sound_new, ?_⟩ ?_
  · refine ⟨fun t ta hta => ?_, fun t ta hta => ?_, fun t ht => ?_⟩
    · cases hta
    · cases hta
    · obtain ⟨x, hx, tx, htx, -⟩ := ht
      have hroot : T.chain (new P).m_lastBlockHash = [P.genesisHash] := sound_new.rooted.lineage_root
      rw [hroot, List.mem_singleton] at hx
      rw [hx, T.block_genesis, T.genesis_transactions] at htx
      exact absurd htx List.not_mem_nil
  · intro c op hc hop
    obtain ⟨hs, hi⟩ := hc
    refine ⟨next_sound hs hop.1, ?_⟩
    rcases next_cases hs hop.1 with ⟨b, o, mustBeNew, r, heq, -, -, hacc, -, hhead⟩ | ⟨hq, -⟩
    · rcases hhead with hk | ⟨cm, dead, live, hsw⟩
      · exact hi.kept hk.lastHash hk.extras.2.1 fun t ta hta => Or.inl (hk.memos.2.1 ▸ hta)
      · exact hi.switched (hop.2 b o mustBeNew heq hacc hsw.better) hsw
    · exact hi.kept hq.lastHash (by rw [hq.extrasDB]) hq.addresses

end ChainOp

/-! ## Children -/

namespace BlockChain

variable {P : ChainParams} {T : BlockTree P}

/-- The children of a block in the database are the stored blocks with this parent, each once, and the memo has no others. -/
structure Tidy (T : BlockTree P) (c : BlockChain) : Prop where
  memo : ∀ h d, c.m_details h = some d → c.m_extrasDB.details h = some d
  nodup : ∀ h d, c.m_extrasDB.details h = some d → d.children.Nodup
  children : ∀ h d, c.m_extrasDB.details h = some d → ∀ x, x ∈ d.children ↔ Stored P c x ∧ x ≠ P.genesisHash ∧ T.parent x = h

theorem Tidy.detailsOf {c : BlockChain} (ht : Tidy T c) (h : H256) :
    c.detailsOf h = (c.m_extrasDB.details h).getD NullBlockDetails := by
  rw [BlockChain.detailsOf]
  cases hm : c.m_details h with
  | none => rw [Option.none_or]
  | some d => rw [ht.memo h d hm, Option.some_or]

theorem Tidy.imported {c c' : BlockChain} (ht : Tidy T c) (hc : Sound T c) {b : VerifiedBlockRef} (hb : T.Has b) {o : Attempt}
    {mustBeNew : Bool} (hacc : Accepted T c b o mustBeNew) (hnew : ¬Stored P c (P.hash b.info)) (h : Imported T c b c') :
    Tidy T c' := by
  have hstored := h.stored
  have hparent : T.parent (P.hash b.info) = b.info.parentHash := by rw [BlockTree.parent, hb.1]
  have hne : P.hash b.info ≠ b.info.parentHash := by
    intro heq
    have := hacc.height
    rw [← heq] at this
    omega
  obtain ⟨pd, hpd⟩ := hc.details _ hacc.parent
  have hup : parentDetails P c b = { pd with children := pd.children ++ [P.hash b.info] } := by
    rw [parentDetails, ht.detailsOf, hpd, Option.getD_some]
  have hdb : ∀ x, x ≠ P.hash b.info → x ≠ b.info.parentHash → c'.m_extrasDB.details x = c.m_extrasDB.details x := by
    intro x hx hxp
    rw [h.details, Function.update_of_ne hx, Function.update_of_ne hxp]
  have hdbParent : c'.m_extrasDB.details b.info.parentHash = some (parentDetails P c b) := by
    rw [h.details, Function.update_of_ne (Ne.symm hne), Function.update_self]
  have hdbOwn : c'.m_extrasDB.details (P.hash b.info) = some (ownDetails T b) := by rw [h.details, Function.update_self]
  refine ⟨fun x d hd => ?_, fun x d hd => ?_, fun x d hd y => ?_⟩
  · by_cases hxp : x = b.info.parentHash
    · rw [hxp] at hd ⊢
      rw [hdbParent, ← h.memo_parent, hd]
    · have hold : c.m_extrasDB.details x = some d := (h.memo x hxp d hd).elim (ht.memo x d) id
      by_cases hx : x = P.hash b.info
      · exact absurd (hx ▸ (hc.fits x d hold).1) hnew
      · rw [hdb x hx hxp, hold]
  · by_cases hx : x = P.hash b.info
    · rw [hx, hdbOwn] at hd
      cases hd
      exact List.nodup_nil
    · by_cases hxp : x = b.info.parentHash
      · rw [hxp, hdbParent, hup] at hd
        cases hd
        refine List.nodup_append.mpr ⟨ht.nodup _ pd hpd, List.nodup_singleton _, fun y hy z hz heq => ?_⟩
        rw [List.mem_singleton] at hz
        rw [heq, hz] at hy
        exact hnew ((ht.children _ pd hpd _).mp hy).1
      · rw [hdb x hx hxp] at hd
        exact ht.nodup x d hd
  · rw [hstored]
    by_cases hx : x = P.hash b.info
    · rw [hx, hdbOwn] at hd
      cases hd
      -- nothing that is stored has the new block as its parent
      refine ⟨fun hy => absurd hy List.not_mem_nil, fun hy => ?_⟩
      obtain ⟨rfl | hy, hyg, hyp⟩ := hy
      · rw [hparent, hx] at hyp
        exact absurd hyp.symm hne
      · have := hc.rooted.parent_mem y hy hyg
        rw [hyp, hx] at this
        exact absurd this hnew
    · by_cases hxp : x = b.info.parentHash
      · rw [hxp, hdbParent, hup] at hd
        cases hd
        rw [List.mem_append, List.mem_singleton, ht.children _ pd hpd y, hxp]
        refine ⟨fun hy => ?_, fun hy => ?_⟩
        · rcases hy with hy | rfl
          · exact ⟨Or.inr hy.1, hy.2⟩
          · exact ⟨Or.inl rfl, hacc.ne_genesis, hparent⟩
        · obtain ⟨rfl | hy, hyg, hyp⟩ := hy
          · exact Or.inr rfl
          · exact Or.inl ⟨hy, hyg, hyp⟩
      · rw [hdb x hx hxp] at hd
        rw [ht.children x d hd y]
        refine ⟨fun hy => ⟨Or.inr hy.1, hy.2⟩, fun hy => ?_⟩
        obtain ⟨rfl | hy, hyg, hyp⟩ := hy
        · exact absurd (hyp.symm.trans hparent) hxp
        · exact ⟨hy, hyg, hyp⟩

/-- An import of a new block takes no child from any block. -/
theorem Imported.children_subset {c c' : BlockChain} {b : VerifiedBlockRef} (h : Imported T c b c') (ht : Tidy T c) (hc : Sound T c)
    (hnew : ¬Stored P c (P.hash b.info)) {x : H256} {d : BlockDetails} (hd : c.m_extrasDB.details x = some d) :
    ∃ d', c'.m_extrasDB.details x = some d' ∧ d.children ⊆ d'.children := by
  have hx : x ≠ P.hash b.info := fun hx => hnew (hx ▸ (hc.fits x d hd).1)
  rw [h.details, Function.update_of_ne hx]
  by_cases hxp : x = b.info.parentHash
  · rw [hxp, Function.update_self]
    refine ⟨_, rfl, ?_⟩
    rw [parentDetails, ht.detailsOf, ← hxp, hd]
    exact List.subset_append_left _ _
  · rw [Function.update_of_ne hxp]
    exact ⟨d, hd, List.Subset.refl _⟩

end BlockChain

namespace ChainOp

open BlockChain

variable {P : ChainParams} {T : BlockTree P}

/-- A block is imported as a new one. One that is stored, with a number in its details above that of the head, is not offered again,
unless it is rejected then. -/
def Once (T : BlockTree P) (c : BlockChain) (op : ChainOp) : Prop :=
  op.Allowed T ∧ ∀ b o mustBeNew, op = .import b o mustBeNew → mustBeNew = true ∧
    (Stored P c (P.hash b.info) → T.height (P.hash b.info) ≤ c.m_lastBlockNumber ∨ o.inFuture = true ∨ o.verified = false ∨
      o.enactment ≠ .accepted)

/-- What is accepted was not stored. -/
theorem Once.notStored {c : BlockChain} {b : VerifiedBlockRef} {o : Attempt} {mustBeNew : Bool}
    (h : Once T c (.import b o mustBeNew)) (hacc : Accepted T c b o mustBeNew) : ¬Stored P c (P.hash b.info) := by
  intro hs
  obtain ⟨hmust, hagain⟩ := h.2 b o mustBeNew rfl
  have hlt := hacc.new hmust hs
  rcases hagain hs with hle | hfut | hver | hen
  · omega
  · rw [hacc.notFuture] at hfut
    cases hfut
  · rw [hacc.verified] at hver
    cases hver
  · exact hen hacc.enactment

theorem tidy_of_reach {c : BlockChain} (h : Reach (next P) (Once T) (new P) c) : Sound T c ∧ Tidy T c := by
  refine h.invariant (P := fun c => Sound T c ∧ Tidy T c) ⟨sound_new, ?_⟩ ?_
  · have hnil : ∀ h d, (new P).m_extrasDB.details h = some d → h = P.genesisHash ∧ d.children = [] := by
      intro h d hd
      by_cases hg : h = P.genesisHash
      · simp only [hg, new, Function.update_self] at hd
        cases hd
        exact ⟨hg, rfl⟩
      · simp only [new, Function.update_of_ne hg] at hd
        cases hd
    refine ⟨fun h d hd => hd, fun h d hd => ?_, fun h d hd x => ?_⟩
    · rw [(hnil h d hd).2]
      exact List.nodup_nil
    · rw [(hnil h d hd).2]
      refine ⟨fun hx => absurd hx List.not_mem_nil, fun hx => ?_⟩
      rcases hx.1 with hg | hx'
      · exact absurd hg hx.2.1
      · cases hx'
  · intro c op hc hop
    obtain ⟨hs, ht⟩ := hc
    refine ⟨next_sound hs hop.1, ?_⟩
    rcases next_cases hs hop.1 with ⟨b, o, mustBeNew, r, heq, -, hb, hacc, himp, -⟩ | ⟨hq, -⟩
    · exact ht.imported hs hb hacc (Once.notStored (heq ▸ hop) hacc) himp
    · have hstored : Stored P (next P c op) = Stored P c := by
        funext x
        rw [Stored, Stored, hq.blocksDB]
      refine ⟨fun h d hd => ?_, ?_, ?_⟩
      · rw [hq.extrasDB]
        exact (hq.details h d hd).elim (ht.memo h d) id
      · rw [hq.extrasDB]
        exact ht.nodup
      · rw [hq.extrasDB, hstored]
        exact ht.children

end ChainOp

/-! ## Blooms -/

namespace BlockChain

variable {P : ChainParams} {T : BlockTree P}

/-- The bits are in all the places of the block with this number, in the memo so far as it has the chunk, and in the database. -/
def Persists (c : BlockChain) (n : Nat) (bits : LogBloom) : Prop :=
  ∀ p ∈ bloomPlaces n, (∀ bb, c.m_blocksBlooms p.1 = some bb → (bb p.2).contains bits = true) ∧
    ((c.m_extrasDB.blocksBlooms p.1).getD NullBlocksBlooms p.2).contains bits = true

/-- The blooms of the canonical blocks, all but the genesis block, are in the index. -/
def Bloomed (T : BlockTree P) (c : BlockChain) : Prop :=
  ∀ h ∈ T.chain c.m_lastBlockHash, h ≠ P.genesisHash → Persists c (T.number h) (P.blockBloom (T.block h))

theorem Persists.covers {c : BlockChain} {n : Nat} {bits : LogBloom} (h : Persists c n bits) : Covers c n bits := by
  intro p hp
  obtain ⟨hmemo, hdb⟩ := h p hp
  rw [bloomsOf]
  cases hm : c.m_blocksBlooms p.1 with
  | some bb => exact hmemo bb hm
  | none => exact hdb

theorem Persists.kept {c c' : BlockChain} {n : Nat} {bits : LogBloom} (h : Persists c n bits)
    (hdb : c'.m_extrasDB.blocksBlooms = c.m_extrasDB.blocksBlooms)
    (hmemo : ∀ id bb, c'.m_blocksBlooms id = some bb → c.m_blocksBlooms id = some bb ∨ c.m_extrasDB.blocksBlooms id = some bb) :
    Persists c' n bits := by
  intro p hp
  obtain ⟨hm, hd⟩ := h p hp
  rw [hdb]
  refine ⟨fun bb hbb => ?_, hd⟩
  rcases hmemo p.1 bb hbb with hbb | hbb
  · exact hm bb hbb
  · rw [hbb] at hd
    exact hd

/-- The chunks that an import has changed are written to the database, and the others are as they were. -/
theorem Switched.persists {c c' : BlockChain} {b : VerifiedBlockRef} {cm : H256} {dead live : List H256} {r : ImportRoute}
    (h : Switched T c b cm dead live r c') {n : Nat} {bits : LogBloom} (hcov : Covers c' n bits)
    (hold : ∀ p ∈ bloomPlaces n, (∀ x ∈ live, p.1 ∉ chunksOf (T.number x)) →
      ((c.m_extrasDB.blocksBlooms p.1).getD NullBlocksBlooms p.2).contains bits = true) : Persists c' n bits := by
  intro p hp
  have hp' := hcov p hp
  refine ⟨fun bb hbb => ?_, ?_⟩
  · rw [bloomsOf, hbb] at hp'
    exact hp'
  · by_cases hchunk : ∃ x ∈ live, p.1 ∈ chunksOf (T.number x)
    · obtain ⟨x, hx, hpx⟩ := hchunk
      rw [bloomsOf, ← h.blooms x hx p.1 hpx, Option.or_self] at hp'
      exact hp'
    · have hnone : ∀ x ∈ live, p.1 ∉ chunksOf (T.number x) := fun x hx hpx => hchunk ⟨x, hx, hpx⟩
      rw [h.bloomsRest p.1 hnone]
      exact hold p hp hnone

theorem Bloomed.switched {c c' : BlockChain} (hbl : Bloomed T c) (hc : Sound T c) (hcount : Counted T c) {b : VerifiedBlockRef} {cm : H256}
    {dead live : List H256} {r : ImportRoute} (h : Switched T c b cm dead live r c') : Bloomed T c' := by
  intro x hx hg
  rcases (h.mem_chain x).mp hx with hx | hx
  · refine h.persists (h.covers x hx) fun p hp hnone => ?_
    exact absurd (List.mem_map_of_mem hp) (hnone x hx)
  · have hpers := hbl x (h.mem_old hx) hg
    obtain ⟨hstored, hle, -⟩ := hc.rooted.mem_of_mem_lineage (h.common_mem hc).1 hx
    rw [← hcount x hstored] at hle
    exact h.persists (h.coversRest _ hle _ hpers.covers) fun p hp _ => (hpers p hp).2

end BlockChain

namespace ChainOp

open BlockChain

variable {P : ChainParams} {T : BlockTree P}

theorem bloomed_of_reach {c : BlockChain} (h : Reach (next P) (Counts T) (new P) c) : (Sound T c ∧ Counted T c) ∧ Bloomed T c := by
  refine h.invariant (P := fun c => (Sound T c ∧ Counted T c) ∧ Bloomed T c) ⟨⟨sound_new, counted_new⟩, ?_⟩ ?_
  · intro x hx hg
    have hroot : T.chain (new P).m_lastBlockHash = [P.genesisHash] := sound_new.rooted.lineage_root
    rw [hroot, List.mem_singleton] at hx
    exact absurd hx hg
  · intro c op hc hop
    obtain ⟨⟨hs, hcount⟩, hbl⟩ := hc
    refine ⟨⟨next_sound hs hop.1, next_counted hs hcount hop⟩, ?_⟩
    rcases next_cases hs hop.1 with ⟨b, o, mustBeNew, r, heq, -, -, -, -, hhead⟩ | ⟨hq, -⟩
    · rcases hhead with hk | ⟨cm, dead, live, hsw⟩
      · intro x hx hg
        rw [hk.lastHash] at hx
        exact (hbl x hx hg).kept hk.extras.2.2 fun id bb hbb => Or.inl (hk.memos.2.2 ▸ hbb)
      · exact hbl.switched hs hcount hsw
    · intro x hx hg
      rw [hq.lastHash] at hx
      exact (hbl x hx hg).kept (by rw [hq.extrasDB]) hq.blooms

end ChainOp

end Webthree
