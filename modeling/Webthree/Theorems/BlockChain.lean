import Webthree.Lemmas.ChainIndex
import Webthree.Lemmas.ChainSearch
import Webthree.Lemmas.ChainSync
import Webthree.Theorems.BlockQueue

/-!
# The block chain

What holds of the chain after any imports and queries. As long as every block that is accepted has the number after that of its
parent, the head and the route to it are right, and so are the numbers if nothing above the head is asked for, and the blooms of all
blocks but the genesis block. The children of a block are right if no block is imported twice, and the transactions if none is left
behind in an abandoned block.
-/

namespace Webthree

open BlockChain

open ChainOp (next Resettling Once Counts sound_of_reach counted_of_reach numbered_of_reach indexed_of_reach tidy_of_reach
  bloomed_of_reach)

namespace ChainSample

/-- The hash that is this number. -/
def label (n : UInt8) : H256 := H256.ofU256 (BitVec.ofNat 256 n.toNat)

/-- A block is known by the byte that its extra data begin with. -/
def block (n parent : UInt8) (number difficulty : U256) (transactions : List Transaction) : VerifiedBlockRef where
  info :=
    { parentHash := label parent, sha3Uncles := label 0, author := 0, stateRoot := label 0, transactionsRoot := label 0
      receiptsRoot := label 0, logBloom := 0, difficulty := difficulty, number := number, gasLimit := 0, gasUsed := 0
      timestamp := number, extraData := [n], sealFields := [] }
  transactions := transactions
  uncles := []

/-- A transaction with a nonce. -/
def transaction (nonce : U256) : Transaction where
  isCreation := false
  sender := 0
  nonce := nonce
  value := 0
  receiveAddress := 0
  gasPrice := 0
  gas := 0
  data := []

/-- The genesis block. -/
def genesis : VerifiedBlockRef := block 1 0 0 1 []

/-- A block on the genesis block, with a transaction. -/
def first : VerifiedBlockRef := block 2 1 1 10 [transaction 7]

/-- A block on `first`. -/
def second : VerifiedBlockRef := block 3 2 2 10 []

/-- A block on the genesis block that is heavier than `first` and `second` together. -/
def heavy : VerifiedBlockRef := block 4 1 1 100 []

/-- A block on `heavy`, with the transaction of `first`. -/
def afterHeavy : VerifiedBlockRef := block 5 4 2 10 [transaction 7]

/-- A block on the genesis block that is heavier than `first` and has its transaction too. -/
def twin : VerifiedBlockRef := block 6 1 1 50 [transaction 0, transaction 7]

/-- The nonces and the first bytes of extra data are the hashes; every author has the first bit in a bloom. -/
def params : ChainParams where
  hash bi := label (bi.extraData.headD 0)
  sha3 t := H256.ofU256 t.nonce
  authorBloom _ := 1
  genesisBlock := genesis
  tieBreakingGas := false

/-- The block of each hash; nothing is above the null hash. -/
def blockOf (h : H256) : VerifiedBlockRef :=
  if h = label 1 then genesis else if h = label 2 then first else if h = label 3 then second else if h = label 4 then heavy
  else if h = label 5 then afterHeavy else if h = nullHash then block 0 0 0 0 [] else twin

/-- From the null hash one gets nowhere. -/
theorem iterate_null {root : H256} (hroot : root ≠ nullHash) (f : H256 → VerifiedBlockRef)
    (hnull : (f nullHash).info.parentHash = nullHash) (i : Nat) : (fun h => (f h).info.parentHash)^[i] nullHash ≠ root := by
  rw [Function.iterate_fixed hnull]
  exact hroot.symm

/-- The tree of these blocks. -/
def tree : BlockTree params where
  block := blockOf
  block_genesis := by decide +kernel
  genesis_number := rfl
  genesis_transactions := rfl
  genesis_uncles := rfl
  genesis_ne_null := by decide +kernel
  genesis_first := iterate_null (by decide +kernel) blockOf (by decide +kernel)

/-- An attempt in which nothing goes wrong. -/
def good : Attempt := { inFuture := false, verified := true, consulted := [], enactment := .accepted }

/-- The block is imported as a new one. -/
def imp (b : VerifiedBlockRef) : ChainOp := .import b good true

/-- The state after some operations. -/
def after (ops : List ChainOp) : BlockChain := ops.foldl (next params) (new params)

/-- The blocks on the genesis block, each at its place in the tree and with its number. -/
def blocks : { bs : List VerifiedBlockRef // ∀ b ∈ bs, tree.Has b ∧
    tree.number (params.hash b.info) = tree.number b.info.parentHash + 1 } where
  val := [first, second, heavy, afterHeavy, twin]
  property := by
    decide +kernel

theorem allowed_imp {b : VerifiedBlockRef} (h : b ∈ blocks.val) : (imp b).Allowed tree := (blocks.property b h).1

theorem counts_imp {b : VerifiedBlockRef} (h : b ∈ blocks.val) (c : BlockChain) : Counts tree c (imp b) := by
  refine ⟨allowed_imp h, fun b' o mustBeNew heq _ => ?_⟩
  cases heq
  exact (blocks.property b h).2

theorem counts_numberHash (i : Nat) (c : BlockChain) : Counts tree c (.numberHash i) := by
  refine ⟨trivial, fun b o mustBeNew heq => ?_⟩
  cases heq

theorem counts_garbageCollect (ids : List CacheID) (c : BlockChain) : Counts tree c (.garbageCollect ids) := by
  refine ⟨trivial, fun b o mustBeNew heq => ?_⟩
  cases heq

/-- A run of which every operation is allowed in the state it is done in. -/
structure SampleRun (A : BlockChain → ChainOp → Prop) where
  ops : List ChainOp
  allowed : AllowedFrom (next params) A (new params) ops

theorem SampleRun.reach {A : BlockChain → ChainOp → Prop} (r : SampleRun A) : Reach (next params) A (new params) (after r.ops) :=
  Reach.start.foldl r.allowed

/-- The heavier branch takes over. -/
def overtaken : SampleRun (Counts tree) where
  ops := [imp first, imp second, imp heavy]
  allowed := ⟨counts_imp (by simp [blocks]) _, counts_imp (by simp [blocks]) _, counts_imp (by simp [blocks]) _, trivial⟩

/-- A block on the genesis block that has the greatest time there is, which is taken for none. -/
def late : VerifiedBlockRef := { block 8 1 1 10 [] with info := { (block 8 1 1 10 []).info with timestamp := Invalid256 } }

/-- A block on `late` that says that it is the seventh. -/
def leap : VerifiedBlockRef := block 9 8 7 10 []

/-- The tree of these two blocks. -/
def leapTree : BlockTree params where
  block h := if h = label 8 then late else if h = label 9 then leap else blockOf h
  block_genesis := by decide +kernel
  genesis_number := rfl
  genesis_transactions := rfl
  genesis_uncles := rfl
  genesis_ne_null := tree.genesis_ne_null
  genesis_first :=
    iterate_null tree.genesis_ne_null (fun h => if h = label 8 then late else if h = label 9 then leap else blockOf h) (by decide +kernel)

end ChainSample

open ChainSample

/-! ## The head -/

/-- The head is a stored block of the greatest total difficulty; total difficulties are the sums of difficulties; an import stores
its block, and returns what leaves the chain, downwards, and what joins it, upwards. -/
structure HeadRight (P : ChainParams) (T : BlockTree P) (c : BlockChain) : Prop where
  stored : Stored P c c.m_lastBlockHash
  best : ∀ h, Stored P c h → T.totalDifficulty h ≤ T.totalDifficulty c.m_lastBlockHash
  totalDifficulty : ∀ h, Stored P c h → Runs (details h) c (fun d _ => d.totalDifficulty = T.totalDifficulty h) fun _ _ => False
  number : Runs (details c.m_lastBlockHash) c (fun d _ => c.m_lastBlockNumber = d.number) fun _ _ => False
  route : ∀ b o mustBeNew r c', T.Has b → (mustBeNew = true ∨ T.Positive) → BlockChain.import P b o mustBeNew c = .ok r c' →
    (∀ h, Stored P c' h ↔ h = P.hash b.info ∨ Stored P c h) ∧
      r.deadBlocks = ((T.chain c.m_lastBlockHash).filter fun h => h ∉ T.chain c'.m_lastBlockHash) ∧
      r.liveBlocks = ((T.chain c'.m_lastBlockHash).filter fun h => h ∉ T.chain c.m_lastBlockHash).reverse ∧
      (c'.m_lastBlockHash = c.m_lastBlockHash → r = ⟨[], []⟩)

/-- If every block that is accepted has the number after that of its parent, everything about the head is right. -/
theorem head_right {P : ChainParams} (T : BlockTree P) {c : BlockChain} (h : Reach (next P) (Counts T) (new P) c) : HeadRight P T c := by
  obtain ⟨hc, hcount⟩ := counted_of_reach (T := T) (fun _ _ hop => hop) h
  have hself : ∀ x, ((T.chain x).filter fun y => y ∉ T.chain x) = [] := by
    intro x
    exact List.filter_eq_nil_iff.mpr fun y hy hn => of_decide_eq_true hn hy
  refine ⟨hc.head_stored, hc.head_best, fun x hx => ?_, ?_, ?_⟩
  · refine (details_runs c x).mono (fun d c' hd => ?_) fun _ _ he => he
    rw [hd.1]
    exact (hc.detailsOf hx).totalDifficulty
  · refine (details_runs c _).mono (fun d c' hd => ?_) fun _ _ he => he
    rw [hd.1, (hc.detailsOf hc.head_stored).number]
    exact hcount.head hc
  · intro b o mustBeNew r c' hb hnew himport
    obtain ⟨hacc, himp, hhead⟩ := (import_runs hc hb o mustBeNew).of_ok himport
    refine ⟨fun x => by rw [himp.stored], ?_⟩
    rcases hhead with hk | ⟨cm, dead, live, hs⟩
    · rw [hk.lastHash, hk.route, hself]
      exact ⟨rfl, rfl, fun _ => rfl⟩
    · have hmeets := hs.meets (hc.notMem_chain hb hacc hnew (hcount _ hc.head_stored) hs.better)
      have hdead := hmeets.left_eq_filter
      have hlive := hmeets.right_eq_filter
      rw [hs.route, hs.lastHash]
      refine ⟨hdead, congrArg List.reverse hlive, fun heq => ?_⟩
      rw [heq] at hdead hlive
      have hnil := hself c.m_lastBlockHash
      rw [BlockTree.chain] at hnil
      rw [hnil] at hdead hlive
      rw [hdead, hlive]
      rfl

theorem head_right_sample :
    HeadRight params tree (after [imp first, imp second, imp heavy]) ∧
      (after [imp first, imp second, imp heavy]).m_lastBlockHash = label 4 := by
  refine ⟨head_right tree overtaken.reach, ?_⟩
  decide +kernel

/-- The time of the first block is taken for none, so that the number of the second one is not compared with it: the number of the
head is seven, and that in its details two. -/
theorem head_not_right : ¬∀ c, Reach (next params) (fun _ op => op.Allowed leapTree) (new params) c → HeadRight params leapTree c := by
  intro h
  have hhas : ∀ b ∈ [late, leap], leapTree.block (params.hash b.info) = b ∧ params.hash b.info ≠ nullHash := by decide +kernel
  have hreach : Reach (next params) (fun _ op => op.Allowed leapTree) (new params) (after [imp late, imp leap]) :=
    Reach.start.foldl ⟨hhas late (by simp), hhas leap (by simp), trivial⟩
  exact absurd (h _ hreach).number (by decide +kernel)

/-! ## The index of numbers -/

/-- If numbers are counted up, and nothing above the head is asked for while the database has an entry of an abandoned branch there,
`numberHash` returns the canonical block of each number. -/
theorem numberHash_canonical {P : ChainParams} (T : BlockTree P) {c : BlockChain} (h : Reach (next P) (ChainOp.Within T) (new P) c) {n : Nat}
    (hn : n ≤ c.m_lastBlockNumber) :
    Runs (numberHash P n) c (fun x _ => x = T.ancestor c.m_lastBlockHash n) fun _ _ => False := by
  obtain ⟨⟨hc, -⟩, hnum⟩ := numbered_of_reach h
  by_cases hn0 : n = 0
  · rw [numberHash, if_pos hn0, runs_pure, hn0]
    exact (hc.rooted.ancestorAt_zero hc.head_stored).symm
  · refine (numberHash_runs c hn0).mono (fun x c' hx => ?_) fun _ _ he => he
    rw [hx.1, hashOf]
    cases hm : c.m_blockHashes n with
    | some y => exact (hnum.memo n y hm).2
    | none =>
      rw [hnum.db n hn0 hn]
      rfl

namespace ChainSample

/-- The number of the head and the number above it are asked for. -/
def asked : { r : SampleRun (ChainOp.Within tree) // (after r.ops).m_lastBlockHash = label 4 ∧ 1 ≤ (after r.ops).m_lastBlockNumber } where
  val :=
    { ops := [imp first, .numberHash 1, imp heavy, .numberHash 2]
      allowed := by
        refine ⟨⟨counts_imp (by simp [blocks]) _, ?_⟩, ⟨counts_numberHash _ _, ?_⟩, ⟨counts_imp (by simp [blocks]) _, ?_⟩,
          ⟨counts_numberHash _ _, ?_⟩, trivial⟩
        · intro k hk
          cases hk
        · intro k hk
          cases hk
          exact Or.inl (by decide +kernel)
        · intro k hk
          cases hk
        · intro k hk
          cases hk
          exact Or.inr (by decide +kernel) }
  property := by decide +kernel

end ChainSample

theorem numberHash_canonical_sample :
    Runs (numberHash params 1) (after [imp first, .numberHash 1, imp heavy, .numberHash 2])
      (fun x _ => x = tree.ancestor (label 4) 1) fun _ _ => False := by
  have hrun := numberHash_canonical tree asked.val.reach asked.property.2
  rwa [asked.property.1] at hrun

/-- The head is the second block when the heavier branch, which is shorter, takes over. Its number is asked for, and then the
heavier branch gets to it. -/
theorem numberHash_stale :
    ¬∀ c, Reach (next params) (fun _ op => op.Allowed tree) (new params) c → ∀ n ≤ c.m_lastBlockNumber,
      Runs (numberHash params n) c (fun x _ => x = tree.ancestor c.m_lastBlockHash n) fun _ _ => False := by
  intro h
  have hreach : Reach (next params) (fun _ op => op.Allowed tree) (new params)
      (after [imp first, imp second, imp heavy, .numberHash 2, imp afterHeavy]) := by
    have himp : ∀ b ∈ blocks.val, (imp b).Allowed tree := fun b hb => allowed_imp hb
    exact Reach.start.foldl ⟨himp _ (by simp [blocks]), himp _ (by simp [blocks]), himp _ (by simp [blocks]), trivial,
      himp _ (by simp [blocks]), trivial⟩
  exact absurd (h _ hreach 2 (by decide +kernel)) (by decide +kernel)

/-! ## The children of a block -/

/-- Every stored block but the genesis block is once among the children of its parent, and not among those of any other block. -/
def ChildrenRight (P : ChainParams) (T : BlockTree P) (c : BlockChain) : Prop :=
  ∀ x, Stored P c x → x ≠ P.genesisHash →
    Runs (details (T.parent x)) c (fun d _ => d.children.count x = 1) (fun _ _ => False) ∧
      ∀ h ≠ T.parent x, Runs (details h) c (fun d _ => x ∉ d.children) fun _ _ => False

/-- No child has been taken from a block in the database. -/
def ChildrenKept (c c' : BlockChain) : Prop :=
  ∀ h d, c.m_extrasDB.details h = some d → ∃ d', c'.m_extrasDB.details h = some d' ∧ d.children ⊆ d'.children

/-- If no block that is stored above the head is offered again, the children are right, and every further import keeps them. -/
theorem children_right {P : ChainParams} (T : BlockTree P) {c : BlockChain} (h : Reach (next P) (Once T) (new P) c) :
    ChildrenRight P T c ∧ ∀ op, Once T c op → ChildrenKept c (next P c op) := by
  obtain ⟨hc, ht⟩ := tidy_of_reach h
  refine ⟨fun x hx hg => ⟨?_, fun y hy => ?_⟩, fun op hop => ?_⟩
  · obtain ⟨d, hd⟩ := hc.details _ (hc.rooted.parent_mem x hx hg)
    refine (details_runs c _).mono (fun d' c' hd' => ?_) fun _ _ he => he
    rw [hd'.1, ht.detailsOf, hd, Option.getD_some]
    exact List.count_eq_one_of_mem (ht.nodup _ d hd) ((ht.children _ d hd x).mpr ⟨hx, hg, rfl⟩)
  · refine (details_runs c _).mono (fun d' c' hd' => ?_) fun _ _ he => he
    rw [hd'.1, ht.detailsOf]
    cases hd : c.m_extrasDB.details y with
    | none => exact List.not_mem_nil
    | some d => exact fun hmem => hy ((ht.children y d hd x).mp hmem).2.2.symm
  · intro y d hd
    rcases ChainOp.next_cases hc hop.1 with ⟨b, o, mustBeNew, r, heq, -, -, hacc, himp, -⟩ | ⟨hq, -⟩
    · exact himp.children_subset ht hc (Once.notStored (heq ▸ hop) hacc) hd
    · rw [hq.extrasDB]
      exact ⟨d, hd, List.Subset.refl _⟩

namespace ChainSample

theorem once_imp {T : BlockTree params} {c : BlockChain} {b : VerifiedBlockRef} (hb : T.Has b)
    (hs : ¬BlockChain.Stored params c (params.hash b.info)) : Once T c (imp b) := by
  refine ⟨hb, fun b' o mustBeNew heq => ?_⟩
  cases heq
  exact ⟨rfl, fun h => absurd h hs⟩

/-- Two blocks on the genesis block and one above the head. -/
def branches : SampleRun (Once tree) where
  ops := [imp heavy, imp first, imp second]
  allowed := by
    refine ⟨once_imp (allowed_imp (by simp [blocks])) ?_, once_imp (allowed_imp (by simp [blocks])) ?_,
      once_imp (allowed_imp (by simp [blocks])) ?_, trivial⟩
    · decide +kernel
    · decide +kernel
    · decide +kernel

end ChainSample

theorem children_right_sample :
    ChildrenRight params tree (after [imp heavy, imp first, imp second]) ∧
      ChildrenKept (after [imp heavy, imp first, imp second]) (after [imp heavy, imp first, imp second, imp afterHeavy]) := by
  obtain ⟨hright, hkept⟩ := children_right tree branches.reach
  exact ⟨hright, hkept (imp afterHeavy) (once_imp (allowed_imp (by simp [blocks])) (by decide +kernel))⟩

/-- The second block is above the head and not taken for a known one when it is offered again: its parent gets it twice. -/
theorem children_twice :
    ¬∀ c, Reach (next params) (fun _ op => op.Allowed tree ∧ ∀ b o mustBeNew, op = .import b o mustBeNew → mustBeNew = true)
      (new params) c → ChildrenRight params tree c := by
  intro h
  have hmust : ∀ b b' o mustBeNew, imp b = .import b' o mustBeNew → mustBeNew = true := by
    intro b b' o mustBeNew heq
    cases heq
    rfl
  have hreach : Reach (next params) (fun _ op => op.Allowed tree ∧ ∀ b o mustBeNew, op = .import b o mustBeNew → mustBeNew = true)
      (new params) (after [imp heavy, imp first, imp second, imp second]) := by
    have himp : ∀ b ∈ blocks.val, (imp b).Allowed tree := fun b hb => allowed_imp hb
    refine Reach.start.foldl ⟨⟨himp _ ?_, hmust _⟩, ⟨himp _ ?_, hmust _⟩, ⟨himp _ ?_, hmust _⟩, ⟨himp _ ?_, hmust _⟩, trivial⟩ <;>
      simp [blocks]
  have hright := (h _ hreach (label 3) (by decide +kernel) (by decide +kernel)).1
  exact absurd hright (by decide +kernel)

/-! ## The blooms -/

/-- At each level the place of a block has the bits of its bloom. -/
def BloomsAt (P : ChainParams) (T : BlockTree P) (c : BlockChain) (n : Nat) : Prop :=
  ∀ level < c_bloomIndexLevels, Runs (blocksBlooms (chunkId level (n / c_bloomIndexSize ^ level / c_bloomIndexSize))) c
    (fun bb _ => (bb (bloomOffset (n / c_bloomIndexSize ^ level))).contains (P.blockBloom (T.block (T.ancestor c.m_lastBlockHash n))) = true)
    fun _ _ => False

/-- A search for any part of its bloom finds the block. -/
def FoundBetween (P : ChainParams) (T : BlockTree P) (c : BlockChain) (n earliest latest : Nat) : Prop :=
  ∀ b : LogBloom, (P.blockBloom (T.block (T.ancestor c.m_lastBlockHash n))).contains b = true →
    Runs (withBlockBloom b earliest latest) c (fun ns _ => n ∈ ns) fun _ _ => False

/-- The places of a canonical block in the index have the bits of its bloom, unless it is the genesis block. -/
theorem covers_of_reach {P : ChainParams} (T : BlockTree P) {c : BlockChain} (h : Reach (next P) (Counts T) (new P) c) {n : Nat}
    (hn : n ≤ c.m_lastBlockNumber) (hg : n ≠ 0 ∨ P.blockBloom P.genesisBlock = 0) :
    Covers c n (P.blockBloom (T.block (T.ancestor c.m_lastBlockHash n))) := by
  obtain ⟨⟨hc, hcount⟩, hbl⟩ := bloomed_of_reach h
  rw [hcount.head hc] at hn
  have hstored := (hc.rooted.mem_of_mem_lineage hc.head_stored (IsTree.ancestorAt_mem_lineage n)).1
  have hnumber : T.number (T.ancestor c.m_lastBlockHash n) = n :=
    (hcount _ hstored).trans (hc.rooted.height_ancestorAt hc.head_stored hn)
  by_cases hn0 : n = 0
  · -- an empty bloom is contained in every other
    have hempty := hg.resolve_left (not_not_intro hn0)
    have hroot : T.ancestor c.m_lastBlockHash n = P.genesisHash := by
      rw [hn0]
      exact hc.rooted.ancestorAt_zero hc.head_stored
    rw [hroot, T.block_genesis, hempty]
    exact fun p _ => LogBloom.contains_iff.mpr fun i hi => absurd hi (by simp)
  · have hne : T.ancestor c.m_lastBlockHash n ≠ P.genesisHash := by
      intro hroot
      rw [hroot, T.number_genesis] at hnumber
      exact hn0 hnumber.symm
    have hpers := hbl (T.ancestor c.m_lastBlockHash n) (IsTree.ancestorAt_mem_lineage n) hne
    rw [hnumber] at hpers
    exact hpers.covers

/-- If numbers are counted up, the blooms of the canonical blocks are in the index and found by every search, unless it is the genesis
block or the last number of the search is rounded up beyond the range of `unsigned`. -/
theorem blooms_complete {P : ChainParams} (T : BlockTree P) {c : BlockChain} (h : Reach (next P) (Counts T) (new P) c) {n : Nat} (hn : n ≤ c.m_lastBlockNumber)
    (hg : n ≠ 0 ∨ P.blockBloom P.genesisBlock = 0) :
    BloomsAt P T c n ∧
      ∀ earliest ≤ n, ∀ latest, n ≤ latest → (n < 256 ∨ latest ≤ 2 ^ 32 - 256) → FoundBetween P T c n earliest latest := by
  have hcov := covers_of_reach T h hn hg
  refine ⟨fun level hlevel => ?_, fun earliest he latest hl hrange b hb => ?_⟩
  · refine (blocksBlooms_runs c _).mono (fun bb c' hbb => ?_) fun _ _ he => he
    rw [hbb.1]
    refine hcov _ (List.mem_map.mpr ⟨(level, n / c_bloomIndexSize ^ level), ?_, rfl⟩)
    exact List.mem_map.mpr ⟨level, List.mem_range.mpr hlevel, rfl⟩
  · exact withBlockBloom_runs he hl hrange fun p hp => LogBloom.contains_trans (hcov p hp) hb

namespace ChainSample

/-- The cache of a chunk of blooms is emptied between two imports. -/
def collected : { r : SampleRun (Counts tree) // 2 ≤ (after r.ops).m_lastBlockNumber } where
  val :=
    { ops := [imp first, imp heavy, .garbageCollect [.blocksBlooms 0], imp afterHeavy]
      allowed :=
        ⟨counts_imp (by simp [blocks]) _, counts_imp (by simp [blocks]) _, counts_garbageCollect _ _,
          counts_imp (by simp [blocks]) _, trivial⟩ }
  property := by decide +kernel

end ChainSample

theorem blooms_complete_sample : BloomsAt params tree (after [imp first, imp heavy, .garbageCollect [.blocksBlooms 0], imp afterHeavy]) 2 := by
  exact (blooms_complete tree collected.val.reach collected.property (Or.inl (by decide))).1

/-- The bloom of the genesis block, which has the bits of its author, is not in the index. -/
theorem blooms_without_genesis :
    ¬∀ c, Reach (next params) (fun _ op => op.Allowed tree) (new params) c → ∀ n ≤ c.m_lastBlockNumber, BloomsAt params tree c n := by
  intro h
  exact absurd (h _ .start 0 (Nat.le_refl _) 0 (by decide)) (by decide +kernel)

/-! ## The index of transactions -/

/-- Exactly the transactions of canonical blocks are known, and are found at a place where they are. -/
def TransactionsRight (P : ChainParams) (T : BlockTree P) (c : BlockChain) : Prop :=
  ∀ t, Runs (isKnownTransaction t) c (fun k _ => k = true ↔ Contained T c t) (fun _ _ => False) ∧
    (Contained T c t → Runs (transactionLocation t) c (fun r _ => Located T c t ⟨r.1, r.2⟩) fun _ _ => False)

/-- If the transactions of abandoned blocks are always in the blocks that take their place, the index is right. -/
theorem transactions_right {P : ChainParams} (T : BlockTree P) {c : BlockChain} (h : Reach (next P) (Resettling T) (new P) c) :
    TransactionsRight P T c := by
  obtain ⟨hc, hi⟩ := indexed_of_reach h
  intro t
  have hfound := hi.addressOf hc t
  refine ⟨?_, fun ht => ?_⟩
  · rw [isKnownTransaction, runs_bind]
    refine (transactionAddress_runs c t).mono (fun ta c' hta => ?_) fun _ _ he => he
    rw [runs_pure, hta.1]
    rcases hfound with ⟨hnull, hnot⟩ | ⟨hset, -, hcont⟩
    · rw [hnull]
      exact ⟨fun hk => absurd hk (by decide), fun ht => absurd ht hnot⟩
    · exact ⟨fun _ => hcont, fun _ => hset⟩
  · obtain ⟨hset, hloc, -⟩ := hfound.resolve_left fun hnot => hnot.2 ht
    rw [transactionLocation, runs_bind]
    refine (transactionAddress_runs c t).mono (fun ta c' hta => ?_) fun _ _ he => he
    rw [hta.1, hset, if_neg (by decide)]
    exact hloc

namespace ChainSample

/-- The first block is imported. -/
def started : { r : SampleRun (Resettling tree) // (after r.ops).m_lastBlockHash = label 2 } where
  val :=
    { ops := [imp first]
      allowed := by
        refine ⟨⟨allowed_imp (by simp [blocks]), ?_⟩, trivial⟩
        intro b o mustBeNew _ _ _ t ta hta
        cases hta }
  property := by decide +kernel

/-- `twin` has the transactions of `first`, which is the only block that it drives out. -/
theorem twin_covers : (∀ y ∈ tree.chain (label 2), y ∉ tree.chain (params.hash twin.info) → y = label 2) ∧
    params.hash twin.info ∈ tree.chain (params.hash twin.info) ∧
    ∀ y ∈ (tree.block (label 2)).transactions, y ∈ (tree.block (params.hash twin.info)).transactions := by
  decide +kernel

end ChainSample

theorem transactions_right_sample : TransactionsRight params tree (after [imp first, imp twin]) := by
  obtain ⟨hall, hmem', hcovers⟩ := twin_covers
  refine transactions_right tree (started.val.reach.step (imp twin) ⟨allowed_imp (by simp [blocks]), ?_⟩)
  intro b o mustBeNew heq _ _ t ta hta hout
  cases heq
  -- the entry is that of the only transaction of the first block
  obtain ⟨hmem, x, hx, hsha⟩ := (indexed_of_reach started.val.reach).2.db t ta hta
  rw [started.property] at hmem ⊢
  rw [hall _ hmem hout] at hx
  refine ⟨params.hash twin.info, hmem', ?_, x, hcovers x (List.mem_of_getElem? hx), hsha⟩
  decide +kernel

/-- The first block has been abandoned, and its transaction is still known. -/
theorem transactions_left_behind :
    ¬∀ c, Reach (next params) (fun _ op => op.Allowed tree) (new params) c → TransactionsRight params tree c := by
  intro h
  have hreach : Reach (next params) (fun _ op => op.Allowed tree) (new params) (after [imp first, imp heavy]) := by
    exact Reach.start.foldl ⟨allowed_imp (by simp [blocks]), allowed_imp (by simp [blocks]), trivial⟩
  have hknown := (h _ hreach (H256.ofU256 7)).1
  unfold Contained at hknown
  exact absurd hknown (by decide +kernel)

/-! ## Importing what the queue has -/

/-- `sync` reports to the queue what it has found bad. It loses no block if no attempt at a new one fails for a transient reason,
and, where the queue hands out no block twice, only then. -/
theorem sync_loses_nothing {P : ChainParams} (T : BlockTree P) (L : BlockQueue.Library) (verified : VerifiedBlock → VerifiedBlockRef)
    (attempt : Nat → Attempt) (max : Nat) (q : BlockQueue) {c : BlockChain}
    (h : Reach (next P) (fun _ op => op.Allowed T) (new P) c) (hverified : ∀ b ∈ q.drainOut max, T.Has (verified b)) :
    Runs (sync P L verified attempt max q) c
      (fun r c' => r.2.2 = (q.drain max).doneDrain L r.1.badBlocks ∧
        (outcomes P (batch verified attempt max q) c).map Prod.fst = (q.drainOut max).map verified ∧
        (NoTransient P c (outcomes P (batch verified attempt max q) c) →
          NothingLost P (outcomes P (batch verified attempt max q) c) r.1.badBlocks c') ∧
        (((q.drainOut max).map fun b => P.hash (verified b).info).Nodup →
          NothingLost P (outcomes P (batch verified attempt max q) c) r.1.badBlocks c' →
            NoTransient P c (outcomes P (batch verified attempt max q) c)))
      fun e _ => e = .exit := by
  have hc := sound_of_reach (T := T) (fun _ _ hop => hop) h
  have hbatch := batch_fst verified attempt max q
  have hhas : ∀ x ∈ batch verified attempt max q, T.Has x.1 := by
    intro x hx
    have hmem : x.1 ∈ (q.drainOut max).map verified := hbatch ▸ List.mem_map_of_mem hx
    obtain ⟨b, hb, heq⟩ := List.mem_map.mp hmem
    exact heq ▸ hverified b hb
  rw [sync, runs_bind]
  refine (syncLoop_runs hc hhas).mono (fun s c' hs => ?_) fun _ _ he => he
  have hfst := (outcomes_fst (P := P) (batch verified attempt max q) c).trans hbatch
  refine ⟨rfl, hfst, hs.nothingLost, fun hnodup => hs.noTransient ?_⟩
  have hhash := congrArg (List.map fun b : VerifiedBlockRef => P.hash b.info) hfst
  rw [List.map_map, List.map_map] at hhash
  exact hhash ▸ hnodup

namespace ChainSample

/-- The block of the queue for a block of the chain. -/
def queued (b : VerifiedBlockRef) : VerifiedBlock where
  info :=
    { hash := params.hash b.info, parentHash := b.info.parentHash, sha3Uncles := b.info.sha3Uncles
      difficulty := b.info.difficulty, timestamp := b.info.timestamp }
  blockData := b.info.extraData
  work := { hash := params.hash b.info, parentHash := b.info.parentHash, block := b.info.extraData, parentInChain := false }

/-- The block of the chain for a block of the queue. -/
def verified (b : VerifiedBlock) : VerifiedBlockRef := tree.block b.info.hash

/-- A queue that has verified the first two blocks. -/
def queue : BlockQueue := { BlockQueue.new with m_verified := [queued first, queued second] }

/-- An attempt at a block whose time has not come. -/
def early : Attempt := { good with inFuture := true }

end ChainSample

theorem sync_loses_nothing_sample :
    Runs (sync params BlockSample.library verified (fun _ => good) 10 queue) (new params)
      (fun r c' => NothingLost params (outcomes params (batch verified (fun _ => good) 10 queue) (new params)) r.1.badBlocks c')
      fun e _ => e = .exit := by
  have hhas : ∀ b ∈ queue.drainOut 10, tree.block (params.hash (verified b).info) = verified b ∧ params.hash (verified b).info ≠ nullHash := by
    decide +kernel
  have hnone : ∀ x ∈ outcomes params (batch verified (fun _ => good) 10 queue) (new params), ¬Transient x.2 := by decide +kernel
  refine (sync_loses_nothing tree BlockSample.library verified (fun _ => good) 10 queue .start hhas).mono ?_ fun _ _ he => he
  intro r c' hr
  refine hr.2.2.1 fun l₁ b e l₂ heq htrans => absurd htrans ?_
  exact hnone (b, e) (heq ▸ List.mem_append_right _ List.mem_cons_self)

/-- The time of the first block has not come: it is neither stored nor reported, and the second one is reported. -/
theorem sync_loses_block :
    ¬Runs (sync params BlockSample.library verified (fun i => if i = 0 then early else good) 10 queue) (new params)
      (fun r c' => NothingLost params (outcomes params (batch verified (fun i => if i = 0 then early else good) 10 queue) (new params))
        r.1.badBlocks c')
      fun e _ => e = .exit := by
  intro h
  have hrun : Runs (sync params BlockSample.library verified (fun i => if i = 0 then early else good) 10 queue) (new params)
      (fun r c' => r.1.badBlocks = [label 3] ∧ c'.m_blocksDB (label 2) = none) fun _ _ => False := by decide +kernel
  have hfirst : (first, some ChainError.FutureTime) ∈
      outcomes params (batch verified (fun i => if i = 0 then early else good) 10 queue) (new params) := by decide +kernel
  obtain ⟨r, c', hok, hbad, hnone⟩ := hrun.exists_ok
  rcases (h.of_ok hok).accounted _ hfirst with hs | hb
  · rcases hs with hg | hs
    · exact absurd hg (by decide +kernel)
    · have hlabel : params.hash first.info = label 2 := by decide +kernel
      rw [hlabel, hnone] at hs
      cases hs
  · rw [hbad] at hb
    exact absurd hb (by decide +kernel)

end Webthree
