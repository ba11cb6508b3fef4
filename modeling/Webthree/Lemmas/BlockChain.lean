import Webthree.Chain.BlockChain
import Webthree.Lib.Ancestry

/-!
# The block chain

A tree of blocks gives each hash its block. What the chain keeps about the blocks it has stored, and what the queries and
`treeRoute` then return; a query changes nothing but a memo, which gets what the database has.
-/

namespace Webthree

/-- A tree of blocks: the block with each hash, so far as there is one. -/
structure BlockTree (P : ChainParams) where
  block : H256 → VerifiedBlockRef
  block_genesis : block P.genesisHash = P.genesisBlock
  genesis_number : P.genesisBlock.info.number = 0
  genesis_transactions : P.genesisBlock.transactions = []
  genesis_uncles : P.genesisBlock.uncles = []
  genesis_ne_null : P.genesisHash ≠ nullHash
  /-- No hash is computed from itself: the genesis block is not among its own ancestors. -/
  genesis_first : ∀ i, (fun h => (block h).info.parentHash)^[i] P.genesisBlock.info.parentHash ≠ P.genesisHash

namespace BlockTree

variable {P : ChainParams} (T : BlockTree P)

/-- The block is the one with its hash. -/
def Has (b : VerifiedBlockRef) : Prop := T.block (P.hash b.info) = b ∧ P.hash b.info ≠ nullHash

instance (b : VerifiedBlockRef) : Decidable (T.Has b) := inferInstanceAs (Decidable (_ ∧ _))

/-- The hash of the parent. -/
def parent (h : H256) : H256 := (T.block h).info.parentHash

/-- The number in the header of a block. -/
def number (h : H256) : Nat := (T.block h).info.number.toNat

/-- How many steps a block is away from the genesis block. This, and not what the header says, is the number in the details. -/
def height (h : H256) : Nat := depth T.parent P.genesisHash (2 ^ 32) h

/-- The ancestors of a block, itself first and the genesis block last. -/
def chain (h : H256) : List H256 := lineage T.parent T.height h

/-- The ancestor of a block at a height. -/
def ancestor (h : H256) (n : Nat) : H256 := ancestorAt T.parent T.height h n

/-- The sum of the difficulties of a block and its ancestors. -/
def totalDifficulty (h : H256) : Nat := ((T.chain h).map fun x => (T.block x).info.difficulty.toNat).sum

/-- The genesis block has number zero. -/
theorem number_genesis : T.number P.genesisHash = 0 := by
  rw [number, T.block_genesis, T.genesis_number]
  rfl

/-- The genesis block has height zero. -/
theorem height_genesis : T.height P.genesisHash = 0 := depth_root _

/-- A block is one higher than its parent. -/
theorem height_eq {h : H256} (hg : h ≠ P.genesisHash) (hp : T.height (T.parent h) + 1 < 2 ^ 32) :
    T.height h = T.height (T.parent h) + 1 := by
  have hle : depth T.parent P.genesisHash (2 ^ 32 - 1 + 1) (T.parent h) ≤ 2 ^ 32 - 1 := Nat.le_pred_of_lt (Nat.lt_of_succ_lt hp)
  exact depth_of_parent hg hle

end BlockTree

namespace BlockChain

variable {P : ChainParams} {T : BlockTree P}

/-! ## Memos -/

/-- The memo has got entries that the database has. -/
def Filled {κ β : Type} (db m m' : κ → Option β) : Prop := ∀ k, m' k = m k ∨ (m k = none ∧ m' k = db k)

theorem Filled.refl {κ β : Type} (db m : κ → Option β) : Filled db m m := fun _ => Or.inl rfl

/-- A memo that is filled twice is filled. -/
theorem Filled.trans {κ β : Type} {db m₁ m₂ m₃ : κ → Option β} (h : Filled db m₁ m₂) (h' : Filled db m₂ m₃) : Filled db m₁ m₃ := by
  intro k
  rcases h k with h₁ | ⟨h₁, h₂⟩
  · rw [← h₁]
    exact h' k
  · rcases h' k with h₃ | ⟨-, h₃⟩
    · exact Or.inr ⟨h₁, h₃.trans h₂⟩
    · exact Or.inr ⟨h₁, h₃⟩

/-- A memo is filled with what the database has. -/
theorem Filled.update {κ β : Type} [DecidableEq κ] {db m : κ → Option β} {k : κ} {x : β} (hm : m k = none) (hdb : db k = some x) :
    Filled db m (Function.update m k (some x)) := by
  intro k'
  by_cases hk : k' = k
  · subst hk
    rw [Function.update_self]
    exact Or.inr ⟨hm, hdb.symm⟩
  · rw [Function.update_of_ne hk]
    exact Or.inl rfl

/-- What is found is the same. -/
theorem Filled.or_eq {κ β : Type} {db m m' : κ → Option β} (h : Filled db m m') (k : κ) : (m' k).or (db k) = (m k).or (db k) := by
  rcases h k with h | ⟨h₁, h₂⟩
  · rw [h]
  · rw [h₁, h₂]
    cases db k with
    | none => rfl
    | some x => rfl

/-- An entry of the memo was there, or the database has it. -/
theorem Filled.of_some {κ β : Type} {db m m' : κ → Option β} (h : Filled db m m') {k : κ} {x : β} (hx : m' k = some x) :
    m k = some x ∨ db k = some x := by
  rcases h k with h | ⟨-, h⟩
  · exact Or.inl (h.symm.trans hx)
  · exact Or.inr (h.symm.trans hx)

/-- Only the memos have changed, and they have got what the database has. -/
structure Recalled (c c' : BlockChain) : Prop where
  blocksDB : c'.m_blocksDB = c.m_blocksDB
  extrasDB : c'.m_extrasDB = c.m_extrasDB
  lastHash : c'.m_lastBlockHash = c.m_lastBlockHash
  lastNumber : c'.m_lastBlockNumber = c.m_lastBlockNumber
  details : Filled c.m_extrasDB.details c.m_details c'.m_details
  hashes : Filled c.m_extrasDB.blockHash c.m_blockHashes c'.m_blockHashes
  addresses : Filled c.m_extrasDB.transactionAddress c.m_transactionAddresses c'.m_transactionAddresses
  blooms : Filled c.m_extrasDB.blocksBlooms c.m_blocksBlooms c'.m_blocksBlooms

theorem Recalled.refl (c : BlockChain) : Recalled c c :=
  ⟨rfl, rfl, rfl, rfl, Filled.refl _ _, Filled.refl _ _, Filled.refl _ _, Filled.refl _ _⟩

/-- What is recalled twice is recalled. -/
theorem Recalled.trans {c₁ c₂ c₃ : BlockChain} (h : Recalled c₁ c₂) (h' : Recalled c₂ c₃) : Recalled c₁ c₃ := by
  refine ⟨h'.blocksDB.trans h.blocksDB, h'.extrasDB.trans h.extrasDB, h'.lastHash.trans h.lastHash,
    h'.lastNumber.trans h.lastNumber, ?_, ?_, ?_, ?_⟩
  · exact h.details.trans (h.extrasDB ▸ h'.details)
  · exact h.hashes.trans (h.extrasDB ▸ h'.hashes)
  · exact h.addresses.trans (h.extrasDB ▸ h'.addresses)
  · exact h.blooms.trans (h.extrasDB ▸ h'.blooms)

/-- Only the memo of the details has changed, and it has got what the database has. -/
structure DetailsOnly (c c' : BlockChain) : Prop where
  eq : c' = { c with m_details := c'.m_details }
  details : Filled c.m_extrasDB.details c.m_details c'.m_details

theorem DetailsOnly.refl (c : BlockChain) : DetailsOnly c c := ⟨rfl, Filled.refl _ _⟩

/-- Details that are recalled are recalled. -/
theorem DetailsOnly.recalled {c c' : BlockChain} (h : DetailsOnly c c') : Recalled c c' := by
  refine ⟨?_, ?_, ?_, ?_, h.details, ?_, ?_, ?_⟩
  · rw [h.eq]
  · rw [h.eq]
  · rw [h.eq]
  · rw [h.eq]
  · rw [h.eq]
    exact Filled.refl _ _
  · rw [h.eq]
    exact Filled.refl _ _
  · rw [h.eq]
    exact Filled.refl _ _

/-- Details that are recalled twice are recalled. -/
theorem DetailsOnly.trans {c₁ c₂ c₃ : BlockChain} (h : DetailsOnly c₁ c₂) (h' : DetailsOnly c₂ c₃) : DetailsOnly c₁ c₃ := by
  refine ⟨?_, h.details.trans ?_⟩
  · rw [h'.eq, h.eq]
  · have := h'.details
    rw [h.recalled.extrasDB] at this
    exact this

/-- What the query for the details of a block returns. -/
def detailsOf (c : BlockChain) (h : H256) : BlockDetails := ((c.m_details h).or (c.m_extrasDB.details h)).getD NullBlockDetails

/-- What the query for a number returns. -/
def hashOf (c : BlockChain) (n : Nat) : H256 := ((c.m_blockHashes n).or (c.m_extrasDB.blockHash n)).getD nullHash

/-- What the query for a transaction returns. -/
def addressOf (c : BlockChain) (t : H256) : TransactionAddress :=
  ((c.m_transactionAddresses t).or (c.m_extrasDB.transactionAddress t)).getD NullTransactionAddress

/-- What the query for a chunk of blooms returns. -/
def bloomsOf (c : BlockChain) (id : Nat) : BlocksBlooms :=
  ((c.m_blocksBlooms id).or (c.m_extrasDB.blocksBlooms id)).getD NullBlocksBlooms

variable {E : ChainError → BlockChain → Prop}

/-- A query returns what the memo or the database has, and the memo gets it. -/
theorem queryExtras_runs {κ β : Type} [DecidableEq κ] {memo : BlockChain → κ → Option β}
    {setMemo : (κ → Option β) → BlockChain → BlockChain} {db : Extras → κ → Option β} {null : β} {k : κ} {c : BlockChain}
    {R : BlockChain → Prop} (hrefl : R c)
    (hset : ∀ x, memo c k = none → db c.m_extrasDB k = some x → R (setMemo (Function.update (memo c) k (some x)) c)) :
    Runs (queryExtras memo setMemo db null k) c (fun x c' => x = ((memo c k).or (db c.m_extrasDB k)).getD null ∧ R c') E := by
  rw [queryExtras, runs_bind, runs_get]
  cases hm : memo c k with
  | some x => exact ⟨rfl, hrefl⟩
  | none =>
    cases hdb : db c.m_extrasDB k with
    | none => exact ⟨rfl, hrefl⟩
    | some x => exact ⟨rfl, hset x hm hdb⟩

theorem details_runs (c : BlockChain) (h : H256) : Runs (details h) c (fun d c' => d = c.detailsOf h ∧ DetailsOnly c c') E :=
  queryExtras_runs (DetailsOnly.refl c) fun _ hm hdb => ⟨rfl, Filled.update hm hdb⟩

/-- `number` reads that of the details. -/
theorem number_runs (c : BlockChain) (h : H256) : Runs (number h) c (fun n c' => n = (c.detailsOf h).number ∧ DetailsOnly c c') E := by
  rw [number, runs_bind]
  refine (details_runs c h).mono (fun d c' hd => ?_) fun e s he => he
  exact ⟨congrArg BlockDetails.number hd.1, hd.2⟩

/-- `numberHash` reads the memo or the database. -/
theorem numberHash_runs (c : BlockChain) {i : Nat} (hi : i ≠ 0) :
    Runs (numberHash P i) c (fun h c' => h = c.hashOf i ∧ Recalled c c') E := by
  rw [numberHash, if_neg hi]
  exact queryExtras_runs (Recalled.refl c) fun _ hm hdb =>
    ⟨rfl, rfl, rfl, rfl, Filled.refl _ _, Filled.update hm hdb, Filled.refl _ _, Filled.refl _ _⟩

/-- `transactionAddress` reads the memo or the database. -/
theorem transactionAddress_runs (c : BlockChain) (t : H256) :
    Runs (transactionAddress t) c (fun ta c' => ta = c.addressOf t ∧ Recalled c c') E :=
  queryExtras_runs (Recalled.refl c) fun _ hm hdb =>
    ⟨rfl, rfl, rfl, rfl, Filled.refl _ _, Filled.refl _ _, Filled.update hm hdb, Filled.refl _ _⟩

/-- `blocksBlooms` reads the memo or the database. -/
theorem blocksBlooms_runs (c : BlockChain) (id : Nat) :
    Runs (blocksBlooms id) c (fun bb c' => bb = c.bloomsOf id ∧ Recalled c c') E :=
  queryExtras_runs (Recalled.refl c) fun _ hm hdb =>
    ⟨rfl, rfl, rfl, rfl, Filled.refl _ _, Filled.refl _ _, Filled.refl _ _, Filled.update hm hdb⟩

/-- Recalling changes no details. -/
theorem Recalled.detailsOf {c c' : BlockChain} (hr : Recalled c c') (h : H256) : c'.detailsOf h = c.detailsOf h := by
  rw [BlockChain.detailsOf, BlockChain.detailsOf, hr.extrasDB, hr.details.or_eq]

/-- Recalling changes no blooms. -/
theorem Recalled.bloomsOf {c c' : BlockChain} (hr : Recalled c c') (id : Nat) : c'.bloomsOf id = c.bloomsOf id := by
  rw [BlockChain.bloomsOf, BlockChain.bloomsOf, hr.extrasDB, hr.blooms.or_eq]

/-- Recalling details changes none. -/
theorem DetailsOnly.detailsOf {c c' : BlockChain} (hr : DetailsOnly c c') (h : H256) : c'.detailsOf h = c.detailsOf h :=
  hr.recalled.detailsOf h

/-! ## The stored blocks -/

/-- The genesis block or a block in the database. -/
def Stored (P : ChainParams) (c : BlockChain) (h : H256) : Prop := h = P.genesisHash ∨ (c.m_blocksDB h).isSome = true

instance (c : BlockChain) (h : H256) : Decidable (Stored P c h) := inferInstanceAs (Decidable (_ ∨ _))

/-- The details fit the block. -/
structure Fits (T : BlockTree P) (h : H256) (d : BlockDetails) : Prop where
  number : d.number = T.height h
  totalDifficulty : d.totalDifficulty = T.totalDifficulty h
  parent : h ≠ P.genesisHash → d.parent = T.parent h

/-- What every operation keeps: the stored blocks are a tree, their details are right, and the head has the greatest total
difficulty. -/
structure Sound (T : BlockTree P) (c : BlockChain) : Prop where
  block : ∀ h b, c.m_blocksDB h = some b → b = T.block h ∧ P.hash b.info = h ∧ h ≠ nullHash
  rooted : IsTree T.parent T.height P.genesisHash (Stored P c)
  bounded : ∀ h, Stored P c h → T.height h < 2 ^ 32
  numbers : ∀ h, Stored P c h → T.number h < 2 ^ 32
  details : ∀ h, Stored P c h → ∃ d, c.m_extrasDB.details h = some d
  fits : ∀ h d, c.m_extrasDB.details h = some d → Stored P c h ∧ Fits T h d
  memo_fits : ∀ h d, c.m_details h = some d → Stored P c h ∧ Fits T h d
  head_stored : Stored P c c.m_lastBlockHash
  head_number : c.m_lastBlockNumber = T.number c.m_lastBlockHash
  head_best : ∀ h, Stored P c h → T.totalDifficulty h ≤ T.totalDifficulty c.m_lastBlockHash
  checked : ∀ h, Stored P c h → h ≠ P.genesisHash → (T.block (T.parent h)).info.timestamp ≠ Invalid256 →
    T.number h = T.number (T.parent h) + 1 ∧ (T.block (T.parent h)).info.timestamp < (T.block h).info.timestamp

/-- Recalling stores nothing. -/
theorem Recalled.stored {c c' : BlockChain} (hr : Recalled c c') : Stored P c' = Stored P c := by
  funext h
  rw [Stored, Stored, hr.blocksDB]

/-- Every entry of a memo was there or is in the database; nothing else has changed. -/
structure Quiet (c c' : BlockChain) : Prop where
  blocksDB : c'.m_blocksDB = c.m_blocksDB
  extrasDB : c'.m_extrasDB = c.m_extrasDB
  lastHash : c'.m_lastBlockHash = c.m_lastBlockHash
  lastNumber : c'.m_lastBlockNumber = c.m_lastBlockNumber
  details : ∀ h d, c'.m_details h = some d → c.m_details h = some d ∨ c.m_extrasDB.details h = some d
  addresses : ∀ t ta, c'.m_transactionAddresses t = some ta →
    c.m_transactionAddresses t = some ta ∨ c.m_extrasDB.transactionAddress t = some ta
  blooms : ∀ id bb, c'.m_blocksBlooms id = some bb → c.m_blocksBlooms id = some bb ∨ c.m_extrasDB.blocksBlooms id = some bb

/-- To recall is to be quiet. -/
theorem Recalled.quiet {c c' : BlockChain} (h : Recalled c c') : Quiet c c' :=
  ⟨h.blocksDB, h.extrasDB, h.lastHash, h.lastNumber, fun _ _ => h.details.of_some, fun _ _ => h.addresses.of_some,
    fun _ _ => h.blooms.of_some⟩

/-- A quiet step keeps a chain sound. -/
theorem Quiet.sound {c c' : BlockChain} (h : Quiet c c') (hc : Sound T c) : Sound T c' := by
  have hstored : Stored P c' = Stored P c := by
    funext x
    rw [Stored, Stored, h.blocksDB]
  refine ⟨?_, ?_, ?_, ?_, ?_, ?_, ?_, ?_, ?_, ?_, ?_⟩
  · rw [h.blocksDB]
    exact hc.block
  · rw [hstored]
    exact hc.rooted
  · rw [hstored]
    exact hc.bounded
  · rw [hstored]
    exact hc.numbers
  · rw [hstored, h.extrasDB]
    exact hc.details
  · rw [hstored, h.extrasDB]
    exact hc.fits
  · rw [hstored]
    intro x d hd
    rcases h.details x d hd with hd | hd
    · exact hc.memo_fits x d hd
    · exact hc.fits x d hd
  · rw [hstored, h.lastHash]
    exact hc.head_stored
  · rw [h.lastNumber, h.lastHash]
    exact hc.head_number
  · rw [hstored, h.lastHash]
    exact hc.head_best
  · rw [hstored]
    exact hc.checked

/-- Recalling keeps a chain sound. -/
theorem Sound.recalled {c c' : BlockChain} (hc : Sound T c) (hr : Recalled c c') : Sound T c' := hr.quiet.sound hc

theorem DetailsOnly.stored {c c' : BlockChain} (hr : DetailsOnly c c') : Stored P c' = Stored P c := hr.recalled.stored

theorem DetailsOnly.sound {c c' : BlockChain} (hr : DetailsOnly c c') (hc : Sound T c) : Sound T c' := hc.recalled hr.recalled

/-- The details that a query returns. -/
theorem Sound.detailsOf {c : BlockChain} (hc : Sound T c) {h : H256} (hs : Stored P c h) : Fits T h (c.detailsOf h) := by
  rw [BlockChain.detailsOf]
  cases hm : c.m_details h with
  | some d => exact (hc.memo_fits h d hm).2
  | none =>
    obtain ⟨d, hd⟩ := hc.details h hs
    rw [hd]
    exact (hc.fits h d hd).2

/-- The genesis block has no stored parent. -/
theorem Sound.not_stored_parent {c : BlockChain} (hc : Sound T c) : ¬Stored P c P.genesisBlock.info.parentHash :=
  fun hs => T.genesis_first _ (hc.rooted.ancestorAt_zero hs)

/-- The hash of a stored block is not null. -/
theorem Sound.ne_null {c : BlockChain} (hc : Sound T c) {h : H256} (hs : Stored P c h) : h ≠ nullHash := by
  rcases hs with rfl | hs
  · exact T.genesis_ne_null
  · obtain ⟨b, hb⟩ := Option.isSome_iff_exists.mp hs
    exact (hc.block h b hb).2.2

/-- A stored block is found. -/
theorem Sound.block_eq {c : BlockChain} (hc : Sound T c) {h : H256} (hs : Stored P c h) : BlockChain.block P c h = some (T.block h) := by
  rw [BlockChain.block]
  by_cases hg : h = P.genesisHash
  · rw [if_pos hg, hg, T.block_genesis]
  · rw [if_neg hg]
    obtain ⟨b, hb⟩ := Option.isSome_iff_exists.mp (hs.resolve_left hg)
    rw [hb, (hc.block h b hb).1]

/-! ## Routes -/

/-- Going up the branch of a block that is the higher one. -/
theorem climb_runs {c : BlockChain} (hc : Sound T c) (push : Bool) {k : Nat} {h : H256} (hs : Stored P c h) (hk : k ≤ T.height h) :
    Runs (climb push k h) c (fun r c' => DetailsOnly c c' ∧ Stored P c r.2 ∧ T.height r.2 = T.height h - k ∧
      ∃ l, r.1 = (if push then l else []) ∧
        ∀ y cm a b, Meets T.parent T.height r.2 y cm a b → (k ≠ 0 → T.height y ≤ T.height r.2) → Stored P c y →
          Meets T.parent T.height h y cm (l ++ a) b) E := by
  induction k generalizing h c with
  | zero => exact ⟨DetailsOnly.refl c, hs, rfl, [], (ite_self _).symm, fun _ _ _ _ hm _ _ => hm⟩
  | succ k ih =>
    have hne : h ≠ P.genesisHash := by
      intro hg
      rw [hg, T.height_genesis] at hk
      omega
    have hnumber := hc.rooted.height_parent h hs hne
    rw [climb, runs_bind]
    refine (details_runs c h).mono ?_ fun e s he => he
    intro d c₁ hd
    obtain ⟨rfl, hr₁⟩ := hd
    rw [runs_bind, (hc.detailsOf hs).parent hne]
    have hstored := hr₁.stored (P := P)
    refine (ih (hr₁.sound hc) (hstored ▸ hc.rooted.parent_mem h hs hne) (by omega)).mono ?_ fun e s he => he
    intro r c₂ hr
    obtain ⟨hr₂, htop, hnum, l, hl, hmeets⟩ := hr
    rw [hstored] at htop hmeets
    refine ⟨hr₁.trans hr₂, htop, by dsimp only; omega, h :: l, ?_, ?_⟩
    · cases push with
      | true => exact congrArg (h :: ·) hl
      | false => exact hl
    · intro y cm a b hm hy hys
      have hy' := hy (Nat.succ_ne_zero k)
      refine (hmeets y cm a b hm (fun _ => hy') hys).cons_left hc.rooted hs hne fun hmem => ?_
      have := (hc.rooted.mem_of_mem_lineage hys hmem).2.1
      dsimp only at hy'
      omega

/-- The loop that goes down both branches until they meet. -/
theorem meet_runs {c : BlockChain} (hc : Sound T c) (common pre post : Bool) {turns : Nat} {f t : H256} (hf : Stored P c f)
    (ht : Stored P c t) (hft : T.height f = T.height t) (hturns : T.height f < turns) :
    Runs (meet common pre post turns f t) c (fun r c' => DetailsOnly c c' ∧
      ∃ a b, r.1 = (if pre then a ++ (if common then [r.2.2] else []) else []) ∧
        r.2.1 = (if post then b ++ (if !pre && common then [r.2.2] else []) else []) ∧
        Meets T.parent T.height f t r.2.2 a b) E := by
  induction turns generalizing f t c with
  | zero => exact absurd hturns (Nat.not_lt_zero _)
  | succ turns ih =>
    rw [meet]
    by_cases heq : f = t
    · subst heq
      rw [if_pos rfl]
      refine ⟨DetailsOnly.refl c, [], [], ?_, ?_, Meets.refl f⟩
      · cases pre <;> simp
      · cases post <;> simp
    · have hfg : f ≠ P.genesisHash := by
        intro hg
        rw [hg, T.height_genesis] at hft
        exact heq (hg.trans (hc.rooted.eq_root ht hft.symm).symm)
      have htg : t ≠ P.genesisHash := by
        intro hg
        rw [hg, T.height_genesis] at hft
        exact heq ((hc.rooted.eq_root hf hft).trans hg.symm)
      have hnull : ¬(decide (f = nullHash) || decide (t = nullHash)) = true := by
        simp [hc.ne_null hf, hc.ne_null ht]
      have hfn := hc.rooted.height_parent f hf hfg
      have htn := hc.rooted.height_parent t ht htg
      rw [if_neg heq, if_neg hnull, runs_bind]
      refine (details_runs c f).mono ?_ fun e s he => he
      intro d c₁ hd
      obtain ⟨rfl, hr₁⟩ := hd
      have hc₁ := hr₁.sound hc
      rw [runs_bind]
      refine (details_runs c₁ t).mono ?_ fun e s he => he
      intro d c₂ hd
      obtain ⟨rfl, hr₂⟩ := hd
      have hstored₂ := (hr₁.trans hr₂).stored (P := P)
      rw [runs_bind, hr₁.detailsOf, (hc.detailsOf hf).parent hfg, (hc.detailsOf ht).parent htg]
      refine (ih (hr₂.sound hc₁) (hstored₂ ▸ hc.rooted.parent_mem f hf hfg) (hstored₂ ▸ hc.rooted.parent_mem t ht htg)
        (by omega) (by omega)).mono ?_ fun e s he => he
      intro r c₃ hr
      obtain ⟨hr₃, a, b, ha, hb, hmeets⟩ := hr
      refine ⟨(hr₁.trans hr₂).trans hr₃, f :: a, t :: b, ?_, ?_, ?_⟩
      · cases pre with
        | true => simp [heq, ha]
        | false => simp [ha]
      · cases post with
        | true => simp [heq, hb]
        | false => simp [hb]
      · have hnf : f ∉ lineage T.parent T.height (T.parent t) := by
          intro hmem
          have := (hc.rooted.mem_of_mem_lineage (hc.rooted.parent_mem t ht htg) hmem).2.1
          omega
        have hnt : t ∉ lineage T.parent T.height f := by
          intro hmem
          exact heq (hc.rooted.eq_of_height_eq hf hmem hft.symm).symm
        exact (hmeets.cons_left hc.rooted hf hfg hnf).cons_right hc.rooted ht htg hnt

/-- What `treeRoute` pushes on the way down, and on the way up from the end, where the branches are `a` and `b`. -/
def downward (common pre : Bool) (cm : H256) (a : List H256) : List H256 := if pre then a ++ (if common then [cm] else []) else []

/-- The hashes that are joined, upwards. -/
def upward (common pre post : Bool) (cm : H256) (b : List H256) : List H256 :=
  if post then b ++ (if !pre && common then [cm] else []) else []

/-- The route between two stored blocks, and the index, with any flags. -/
theorem treeRoute_flags {c : BlockChain} (hc : Sound T c) (common pre post : Bool) {f t : H256} (hf : Stored P c f) (ht : Stored P c t) :
    Runs (treeRoute f t common pre post) c (fun r c' => DetailsOnly c c' ∧
      ∃ a b, Meets T.parent T.height f t r.2.1 a b ∧ r.1 = downward common pre r.2.1 a ++ (upward common pre post r.2.1 b).reverse ∧
        r.2.2 = (downward common pre r.2.1 a).length -
          if common && !(downward common pre r.2.1 a).isEmpty && !(upward common pre post r.2.1 b).isEmpty then 1 else 0) E := by
  have hnull : ¬(decide (f = nullHash) || decide (t = nullHash)) = true := by
    simp [hc.ne_null hf, hc.ne_null ht]
  rw [treeRoute, if_neg hnull, runs_bind]
  refine (details_runs c f).mono ?_ fun e s he => he
  intro d c₁ hd
  obtain ⟨rfl, hr₁⟩ := hd
  rw [runs_bind]
  refine (details_runs c₁ t).mono ?_ fun e s he => he
  intro d c₂ hd
  obtain ⟨rfl, hr₂⟩ := hd
  have hr₁₂ := hr₁.trans hr₂
  have hc₂ := hr₁₂.sound hc
  have hstored₂ := hr₁₂.stored (P := P)
  rw [hr₁.detailsOf, (hc.detailsOf hf).number, (hc.detailsOf ht).number, runs_bind]
  refine (climb_runs hc₂ pre (hstored₂ ▸ hf) (Nat.sub_le _ _)).mono ?_ fun e s he => he
  rintro ⟨ret₁, f'⟩ c₃ ⟨hr₃, hs₃, hn₃, l₁, rfl, hm₃⟩
  have hc₃ := hr₃.sound hc₂
  have hstored₃ := hr₃.stored (P := P)
  dsimp only at hs₃ hn₃ hm₃ ⊢
  rw [runs_bind]
  refine (climb_runs hc₃ post (hstored₃ ▸ hstored₂ ▸ ht) (Nat.sub_le _ _)).mono ?_ fun e s he => he
  rintro ⟨back₁, t'⟩ c₄ ⟨hr₄, hs₄, hn₄, l₂, rfl, hm₄⟩
  have hc₄ := hr₄.sound hc₃
  have hstored₄ := hr₄.stored (P := P)
  dsimp only at hs₄ hn₄ hm₄ ⊢
  rw [runs_bind]
  refine (meet_runs hc₄ common pre post (hstored₄ ▸ hstored₃ ▸ hs₃) (hstored₄ ▸ hs₄) (by omega) (by omega)).mono ?_ fun e s he => he
  rintro ⟨ret₂, back₂, cm⟩ c₅ ⟨hr₅, a, b, hret₂, hback₂, hmeets⟩
  dsimp only at hret₂ hback₂ hmeets ⊢
  have hret : (if pre then l₁ else []) ++ (if pre then a ++ (if common then [cm] else []) else []) = downward common pre cm (l₁ ++ a) := by
    cases pre with
    | true => exact (List.append_assoc l₁ a _).symm
    | false => rfl
  have hback : (if post then l₂ else []) ++ (if post then b ++ (if !pre && common then [cm] else []) else []) =
      upward common pre post cm (l₂ ++ b) := by
    cases post with
    | true => exact (List.append_assoc l₂ b _).symm
    | false => rfl
  rw [hret₂, hback₂, hret, hback, runs_pure]
  refine ⟨((hr₁₂.trans hr₃).trans hr₄).trans hr₅, l₁ ++ a, l₂ ++ b, ?_, rfl, rfl⟩
  -- the one of the two loops that goes over the lower branch does nothing
  rw [hstored₃] at hm₄
  have hleft := hm₃ t' cm a b hmeets (by omega) (hstored₃ ▸ hs₄)
  exact (hm₄ f cm b (l₁ ++ a) hleft.symm (by omega) (hstored₂ ▸ hf)).symm

/-- The route between two stored blocks: down from the one to the common ancestor, and up to the other. -/
theorem treeRoute_runs {c : BlockChain} (hc : Sound T c) {f t : H256} (hf : Stored P c f) (ht : Stored P c t) :
    Runs (treeRoute f t true true true) c (fun r c' => DetailsOnly c c' ∧
      ∃ a b, r.1 = a ++ r.2.1 :: b.reverse ∧ Meets T.parent T.height f t r.2.1 a b) E := by
  refine (treeRoute_flags hc true true true hf ht).mono ?_ fun _ _ he => he
  rintro r c' ⟨hr, a, b, hmeets, hroute, -⟩
  refine ⟨hr, a, b, ?_, hmeets⟩
  simp [hroute, downward, upward]

end BlockChain

end Webthree
