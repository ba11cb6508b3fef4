import Webthree.Lemmas.BlockEnact
import Webthree.Theorems.BlockChain
import Webthree.Theorems.Executive

/-!
# Blocks

What `enact` guarantees of a block that it accepts, when a block which is mined is accepted, and that the rewards are applied once.
-/

namespace Webthree

open BlockChain Block

namespace SealSample

open ChainSample Sample

/-- A block on `first` besides `second`. -/
def rival : VerifiedBlockRef := block 7 2 2 5 []

/-- The changed accounts, which have no storage and no new code, go into the trie. -/
def commit (s : State) : State :=
  { s with
    m_cache := fun _ => none
    m_state := fun a =>
      match s.m_cache a with
      | none => s.m_state a
      | some x => if x.m_isAlive then some ⟨x.m_nonce, x.m_balance, x.m_storageRoot, x.m_codeHash⟩ else none }

/-- The balance in the trie. -/
def balanceOf (s : State) (a : Address) : U256 := ((s.m_state a).map fun x => x.balance).getD 0

/-- The root tells the balances of four addresses; the database has one state. -/
def ops : StateOps State :=
  .ofExecutive engine (fun _ => 0) commit
    (fun s => H256.ofU256 (balanceOf s 0 + (balanceOf s 1 <<< 64) + (balanceOf s 2 <<< 128) + (balanceOf s 9 <<< 192)))
    fun _ _ => state

/-- A reward of 3200, and numbers for the encodings. -/
def sealParams : BlockParams where
  sha3 := hash
  transactionRLP t := 1 :: toBigEndian t.nonce.toNat
  headerRLP h := .data h.extraData
  blockReward := 3200
  calculateDifficulty _ _ := 7
  childGasLimit _ := 100000

/-- A new block of the address 9. -/
def start : Block State where
  m_state := state
  m_transactions := []
  m_receipts := []
  m_precommit := state
  m_previousBlock := .blank
  m_currentBlock := .blank
  m_currentBytes := none
  m_currentTxs := []
  m_currentUncles := []
  m_author := 9
  m_committedToSeal := false

/-- The chain up to `second`, with a rival of it. -/
def chain : BlockChain := after [imp first, imp second, imp rival]

/-- What `lastHashes` returns for `second`. -/
def ancestors : LastHashes := label 3 :: label 2 :: label 1 :: List.replicate 253 nullHash

/-- The block on `second`. -/
def working : Block State := start.sync params sealParams ops second.info 5

/-- The block after some operations. -/
def worked (l : List BlockOp) : Tracked State := l.foldl (Tracked.next params sealParams ops) (.reset working)

/-- The block that is committed to seal after a transfer. -/
def sealed : Block State := (worked [.execute ancestors transfer .Committed, .commitToSeal chain [9]]).block

/-- The block of this header. -/
def mined : VerifiedBlockRef := ⟨sealed.m_currentBlock, sealed.m_currentTxs, sealed.m_currentUncles⟩

/-- The tree with the rival and the block that is mined. -/
def sealTree : BlockTree params where
  block h := if h = label 9 then mined else if h = label 7 then rival else tree.block h
  block_genesis := by decide +kernel
  genesis_number := tree.genesis_number
  genesis_transactions := tree.genesis_transactions
  genesis_uncles := tree.genesis_uncles
  genesis_ne_null := tree.genesis_ne_null
  genesis_first := iterate_null tree.genesis_ne_null (fun h => if h = label 9 then mined else if h = label 7 then rival else tree.block h)
    (by decide +kernel)

/-- No block is imported twice. -/
theorem once_chain : Reach (ChainOp.next params) (ChainOp.Once sealTree) (new params) chain := by
  refine Reach.start.foldl ⟨?_, ?_, ?_, trivial⟩
  · exact once_imp (by decide +kernel) (by decide +kernel)
  · exact once_imp (by decide +kernel) (by decide +kernel)
  · exact once_imp (by decide +kernel) (by decide +kernel)

theorem reach_chain : Reach (ChainOp.next params) (fun _ op => op.Allowed sealTree) (new params) chain :=
  once_chain.mono fun _ _ h => h.1

end SealSample

open SealSample

/-! ## What is accepted -/

/-- The header has the root of the state after the transactions and the rewards, and what the receipts give; there are at most two
uncles, all different, which are no ancestors and no uncles of the six blocks before, and whose parents are two to seven blocks up.
`s` is the state of the parent. -/
structure EnactRight {σ : Type} {P : ChainParams} (T : BlockTree P) (Q : BlockParams) (S : StateOps σ) (lh : LastHashes)
    (block : VerifiedBlockRef) (s : σ) : Prop where
  stateRoot : rootAfter Q S block.info block.uncles (block.transactions.map fun t => (lh, t)) s = .ok block.info.stateRoot
  receipts : ∃ s' rs, replay S block.info (block.transactions.map fun t => (lh, t)) s [] = .ok (s', rs) ∧
    block.info.receiptsRoot = orderedTrieRoot Q (rs.map TransactionReceipt.rlp) ∧ block.info.logBloom = bloomOf rs ∧
    block.info.gasUsed = gasUsedOf rs
  few : block.uncles.length ≤ 2
  different : (block.uncles.map P.hash).Nodup
  notAncestor : ∀ u ∈ block.uncles, P.hash u ∉ T.chain block.info.parentHash
  notQuoted : ∀ u ∈ block.uncles, ∀ i < 6, i ≤ T.height block.info.parentHash →
    ∀ v ∈ (T.block (T.parent^[i] block.info.parentHash)).uncles, P.hash v ≠ P.hash u
  related : ∀ u ∈ block.uncles, ∃ d, 2 ≤ d ∧ d ≤ 7 ∧ d ≤ T.height block.info.parentHash + 1 ∧
    u.parentHash = T.parent^[d - 1] block.info.parentHash

/-- An uncle that passes and is not among the kin is no ancestor. -/
theorem notMem_chain {P : ChainParams} {T : BlockTree P} {c : BlockChain} (hc : Sound T c) (hl : Linked T c)
    {block : VerifiedBlockRef} (hparent : BlockChain.Stored P c block.info.parentHash) {u : BlockHeader}
    (hu : (T.block (P.hash u)).info = u) (hnew : P.hash u ∉ c.allKinFrom P block.info.parentHash 6)
    (hpass : Passes P c block.info u) : P.hash u ∉ T.chain block.info.parentHash := by
  intro hmem
  obtain ⟨i, hi, heq⟩ := IsTree.mem_lineage_iff.mp hmem
  obtain ⟨d, h1, h6, hd, -, hup⟩ := hpass.parent_eq hc hl hparent
  have hparentOf : T.parent (P.hash u) = u.parentHash := by rw [BlockTree.parent, hu]
  obtain ⟨hdm, hdn⟩ := hc.rooted.iterate hparent hd
  by_cases htop : P.hash u = P.genesisHash
  · rw [← hup, ← hparentOf, BlockTree.parent, htop, T.block_genesis] at hdm
    exact hc.not_stored_parent hdm
  · -- it has one parent, and so it is one of the next ancestors
    obtain ⟨him, hin⟩ := hc.rooted.iterate hparent hi
    rw [heq] at him hin
    have hheight := hc.rooted.height_parent _ him htop
    rw [hparentOf, hup, hdn] at hheight
    have hid : i + 1 = d := by omega
    refine hnew ?_
    rw [allKinFrom, List.mem_cons]
    cases i with
    | zero => exact Or.inl heq.symm
    | succ i => exact Or.inr ((hc.mem_kinLoop hparent 6).mpr ⟨i, by omega, by omega, Or.inl heq.symm⟩)

/-- A block that `enact` accepts is right exactly if it does not have the state root of its parent, or its transactions and rewards
leave this root. -/
theorem enact_right {σ : Type} {P : ChainParams} {Q : BlockParams} {S : StateOps σ} (T : BlockTree P) {c : BlockChain}
    (h : Reach (ChainOp.next P) (fun _ op => op.Allowed T) (new P) c) {block : VerifiedBlockRef}
    (hparent : BlockChain.Stored P c block.info.parentHash) (huncles : ∀ u ∈ block.uncles, (T.block (P.hash u)).info = u)
    {memo lh : LastHashes} (hlh : c.lastHashes P memo block.info.parentHash = .ok lh) {b b' : Block σ} {timestamp td : U256}
    (henact : enact P Q S c memo block (b.sync P Q S (T.block block.info.parentHash).info timestamp) = .ok td b') :
    EnactRight T Q S lh block (b.sync P Q S (T.block block.info.parentHash).info timestamp).m_state ↔
      block.info.stateRoot ≠ (T.block block.info.parentHash).info.stateRoot ∨
        rootAfter Q S block.info block.uncles (block.transactions.map fun t => (lh, t))
          (b.sync P Q S (T.block block.info.parentHash).info timestamp).m_state =
            .ok (T.block block.info.parentHash).info.stateRoot := by
  obtain ⟨hc, hl⟩ := linked_of_reach (T := T) (fun _ _ hop => hop) h
  obtain ⟨lh', s, rs, hacc, -, -⟩ := (enact_runs c memo block (ready_sync _ timestamp b)).of_ok henact
  have hhashes := hacc.hashes
  rw [hlh] at hhashes
  cases hhashes
  obtain ⟨hnodup, hall⟩ := (checkUncles_iff _ _ _ _).mp hacc.uncles
  have hroot : rootAfter Q S block.info block.uncles (block.transactions.map fun t => (lh, t))
      (b.sync P Q S (T.block block.info.parentHash).info timestamp).m_state =
        .ok (S.rootHash (S.commit (applyRewards Q S block.uncles block.info s))) := by
    rw [rootAfter, hacc.replay]
  have hstate := hacc.stateRoot
  rw [hroot]
  constructor
  · intro hr
    have heq := hr.stateRoot
    rw [hroot] at heq
    by_cases hsame : block.info.stateRoot = (T.block block.info.parentHash).info.stateRoot
    · rw [← hsame]
      exact Or.inr heq
    · exact Or.inl hsame
  · intro hcond
    have hkin : ∀ u ∈ block.uncles, P.hash u ∉ c.allKinFrom P block.info.parentHash 6 :=
      fun u hu hmem => (hall u hu).1 (List.mem_cons_of_mem _ hmem)
    refine ⟨?_, ⟨s, rs, hacc.replay, hacc.receiptsRoot.symm, hacc.logBloom, hacc.gasUsed⟩, hacc.few, hnodup, fun u hu => ?_,
      fun u hu i hi hin v hv heq => ?_, fun u hu => ?_⟩
    · rw [hroot]
      rcases hcond with hne | heq
      · rw [hstate.resolve_left hne]
      · rcases hstate with hs | hs
        · rw [hs]
          exact heq
        · rw [hs]
    · exact notMem_chain hc hl hparent (huncles u hu) (hkin u hu) (hall u hu).2
    · by_cases hig : i < T.height block.info.parentHash
      · refine hkin u hu (List.mem_cons_of_mem _ ?_)
        exact (hc.mem_kinLoop hparent 6).mpr ⟨i, hi, hig, Or.inr ⟨v, hv, heq⟩⟩
      · obtain ⟨hmem, hnum⟩ := hc.rooted.iterate hparent hin
        rw [hc.rooted.eq_root hmem (by omega), T.block_genesis, T.genesis_uncles] at hv
        exact absurd hv List.not_mem_nil
    · obtain ⟨d, h1, h6, hdn, -, hp⟩ := (hall u hu).2.parent_eq hc hl hparent
      exact ⟨d + 1, by omega, by omega, by omega, hp⟩

theorem enact_right_sample : EnactRight sealTree sealParams ops ancestors mined working.m_state := by
  have hparent : (sealTree.block mined.info.parentHash).info = ChainSample.second.info := by decide +kernel
  obtain ⟨td, b', hok, -⟩ := Runs.exists_ok (m := enact ChainSample.params sealParams ops chain [] mined)
    (s := start.sync ChainSample.params sealParams ops (sealTree.block mined.info.parentHash).info 5) (Q := fun _ _ => True)
    (by decide +kernel)
  have hlh : chain.lastHashes ChainSample.params [] mined.info.parentHash = .ok ancestors := by decide +kernel
  have hright := enact_right sealTree reach_chain (by decide +kernel) (by decide +kernel) hlh hok
  rw [hparent] at hright
  exact hright.mpr (Or.inl (by decide +kernel))

/-- A block without transactions that gives the state root of its parent. -/
def SealSample.idle : VerifiedBlockRef :=
  ⟨{ ChainSample.first.info with
      stateRoot := ChainSample.genesis.info.stateRoot, receiptsRoot := orderedTrieRoot sealParams [], extraData := [6] }, [], []⟩

/-- Its author is rewarded, but that the state root is still the one of the parent is not seen. -/
theorem enact_any_root :
    ¬∀ block : VerifiedBlockRef, BlockChain.Stored ChainSample.params (new ChainSample.params) block.info.parentHash →
      block.info.number = (ChainSample.tree.block block.info.parentHash).info.number + 1 →
      (∀ u ∈ block.uncles, (ChainSample.tree.block (ChainSample.params.hash u)).info = u) →
      ∀ lh, (new ChainSample.params).lastHashes ChainSample.params [] block.info.parentHash = .ok lh →
      ∀ td b', enact ChainSample.params sealParams ops (new ChainSample.params) [] block
        (start.sync ChainSample.params sealParams ops (ChainSample.tree.block block.info.parentHash).info 5) = .ok td b' →
      EnactRight ChainSample.tree sealParams ops lh block
        (start.sync ChainSample.params sealParams ops (ChainSample.tree.block block.info.parentHash).info 5).m_state := by
  intro h
  obtain ⟨td, b', hok, -⟩ := Runs.exists_ok (m := enact ChainSample.params sealParams ops (new ChainSample.params) [] idle)
    (s := start.sync ChainSample.params sealParams ops (ChainSample.tree.block idle.info.parentHash).info 5) (Q := fun _ _ => True)
    (by decide +kernel)
  have hright := h idle (by decide +kernel) (by decide +kernel) (by decide +kernel)
    (ChainSample.label 1 :: List.replicate 255 nullHash) (by decide +kernel) td b' hok
  exact absurd hright.stateRoot (by decide +kernel)

/-! ## Mining -/

/-- What the enacted block gives is in the header. -/
structure Reproduces {σ : Type} (Q : BlockParams) (S : StateOps σ) (header : BlockHeader) (b : Block σ) : Prop where
  stateRoot : S.rootHash b.m_state = header.stateRoot
  receiptsRoot : orderedTrieRoot Q (b.m_receipts.map TransactionReceipt.rlp) = header.receiptsRoot
  transactionsRoot : orderedTrieRoot Q (b.m_transactions.map Q.transactionRLP) = header.transactionsRoot
  logBloom : b.logBloom = header.logBloom
  gasUsed : b.gasUsed = header.gasUsed

open Tracked (Mining Played Mined mined_of_reach)

namespace SealSample

open ChainSample

/-- A block on `second`. -/
def third : VerifiedBlockRef := block 10 3 3 10 []

/-- A block on `second` besides `third`. -/
def thirdRival : VerifiedBlockRef := block 11 3 3 5 []

/-- The head is `heavy`, and the other branch is longer. -/
def sideChain : BlockChain := after [imp heavy, imp first, imp second, imp third, imp thirdRival]

/-- The block on `third` that is committed to seal. -/
def sideSealed : Block State :=
  endState (commitToSeal ChainSample.params sealParams ops sideChain [9] (start.sync ChainSample.params sealParams ops third.info 5))

/-- The tree with this block. -/
def sideTree : BlockTree ChainSample.params where
  block h :=
    if h = label 9 then ⟨sideSealed.m_currentBlock, sideSealed.m_currentTxs, sideSealed.m_currentUncles⟩
    else if h = label 10 then third else if h = label 11 then thirdRival else tree.block h
  block_genesis := by decide +kernel
  genesis_number := tree.genesis_number
  genesis_transactions := tree.genesis_transactions
  genesis_uncles := tree.genesis_uncles
  genesis_ne_null := tree.genesis_ne_null
  genesis_first := iterate_null tree.genesis_ne_null (fun h =>
    if h = label 9 then ⟨sideSealed.m_currentBlock, sideSealed.m_currentTxs, sideSealed.m_currentUncles⟩
    else if h = label 10 then third else if h = label 11 then thirdRival else tree.block h) (by decide +kernel)

/-- No block is imported twice. -/
theorem once_sideChain : Reach (ChainOp.next ChainSample.params) (ChainOp.Once sideTree) (new ChainSample.params) sideChain := by
  have honce : ∀ c, ∀ b ∈ [heavy, first, second, third, thirdRival],
      ¬BlockChain.Stored ChainSample.params c (ChainSample.params.hash b.info) → ChainOp.Once sideTree c (imp b) := by
    have hhas : ∀ b ∈ [heavy, first, second, third, thirdRival], sideTree.Has b := by
      decide +kernel
    exact fun c b hb hs => once_imp (hhas b hb) hs
  refine Reach.start.foldl ⟨honce _ _ ?_ ?_, honce _ _ ?_ ?_, honce _ _ ?_ ?_, honce _ _ ?_ ?_, honce _ _ ?_ ?_, trivial⟩
  all_goals first | simp | decide +kernel

end SealSample

open Tracked (nextOf Uncopied played_reset played_of_reach)

/-- Whatever is done to several blocks that have been reset: if none is committed to seal after it has been copied from one that was,
each that is committed to seal has the root of the state after its transactions, one block reward and one reward for each uncle. -/
theorem rewards_once {σ : Type} {P : ChainParams} {Q : BlockParams} {S : StateOps σ} {start : Nat → Block σ} {timestamp : Nat → U256}
    {pool : Nat → Tracked σ}
    (h : Reach (nextOf P Q S) Uncopied (fun i => .reset ((start i).resetCurrent P Q S (timestamp i))) pool) {i : Nat}
    (hc : (pool i).block.m_committedToSeal = true) :
    (pool i).executed.map Prod.snd = (pool i).block.m_transactions ∧
      rootAfter Q S (pool i).block.m_currentBlock (pool i).block.m_currentUncles (pool i).executed (pool i).parent =
        .ok (pool i).block.m_currentBlock.stateRoot := by
  have hplayed := played_of_reach (fun j => played_reset (b := (start j).resetCurrent P Q S (timestamp j)) rfl rfl rfl) h i
  obtain ⟨hcopied, hroot⟩ := hplayed.root hc
  refine ⟨hplayed.transactions, ?_⟩
  rw [rootAfter, hplayed.replay hcopied, hroot]
  rfl

/-- The blocks after some operations, all of which are `working` at first. -/
def SealSample.pool (l : List PoolOp) : Nat → Tracked State :=
  l.foldl (nextOf ChainSample.params sealParams ops) fun _ => .reset
    (({ start with m_previousBlock := ChainSample.second.info } : Block State).resetCurrent ChainSample.params sealParams ops 5)

/-- A transfer, a commit to seal, and a copy of the block after it has been uncommitted. -/
def SealSample.copies : List PoolOp :=
  [.on 0 (.execute ancestors Sample.transfer .Committed), .on 0 (.commitToSeal chain [9]), .on 0 .uncommitToSeal, .assign 2 0,
    .on 2 (.commitToSeal chain [9])]

theorem rewards_once_sample :
    rootAfter sealParams ops (pool copies 2).block.m_currentBlock [rival.info] [(ancestors, Sample.transfer)] (pool copies 2).parent =
      .ok (pool copies 2).block.m_currentBlock.stateRoot := by
  have hreach : Reach (nextOf ChainSample.params sealParams ops) Uncopied (pool []) (pool copies) := by
    refine Reach.start.foldl ⟨trivial, ?_, trivial, trivial, ?_, trivial⟩
    · exact (by decide +kernel : (pool [.on 0 (.execute ancestors Sample.transfer .Committed)] 0).copied = false)
    · exact (by decide +kernel : (pool [.on 0 (.execute ancestors Sample.transfer .Committed), .on 0 (.commitToSeal chain [9]),
        .on 0 .uncommitToSeal, .assign 2 0] 2).copied = false)
  have hroot := (rewards_once hreach (i := 2) (by decide +kernel)).2
  have huncles : (pool copies 2).block.m_currentUncles = [rival.info] := by decide +kernel
  have hexecuted : (pool copies 2).executed = [(ancestors, Sample.transfer)] := by decide +kernel
  rwa [huncles, hexecuted] at hroot

/-- A block that is committed to seal is copied and the copy committed to seal: it has the rewards twice. -/
theorem rewards_twice :
    ¬∀ p, Reach (nextOf ChainSample.params sealParams ops) (fun _ _ => True) (pool []) p → ∀ i,
      (p i).block.m_committedToSeal = true →
      rootAfter sealParams ops (p i).block.m_currentBlock (p i).block.m_currentUncles (p i).executed (p i).parent =
        .ok (p i).block.m_currentBlock.stateRoot := by
  intro h
  have hreach : Reach (nextOf ChainSample.params sealParams ops) (fun _ _ => True) (pool [])
      (pool [.on 0 (.commitToSeal chain [9]), .copy 1 0, .on 1 (.commitToSeal chain [9])]) :=
    Reach.start.foldl ⟨trivial, trivial, trivial, trivial⟩
  exact absurd (h _ hreach 1 (by decide +kernel)) (by decide +kernel)

end Webthree
