import Webthree.Chain.Block
import Webthree.Lemmas.RlpTree
import Webthree.Lib.Transition
import Webthree.Lemmas.BlockUncles

/-!
# When a block is accepted

Executing transactions in order on a state, and what a block has kept of it through commits to seal: the state before the rewards is
always that of the transactions executed since the last reset.

`enact` on a block that has just been reset returns exactly if the block agrees with what its transactions give, so far as it looks,
and its uncles pass.
-/

namespace Webthree

variable {σ : Type} {P : ChainParams} {Q : BlockParams} {S : StateOps σ}

/-! ## Roots -/

/-- Of two headed strings the longer one has the longer encoding. -/
theorem header_length_le (start : Nat) {m n : Nat} (h : m ≤ n) : (Item.header start m).length ≤ (Item.header start n).length := by
  unfold Item.header
  by_cases hm : m < 56
  · rw [if_pos hm]
    split
    · exact Nat.le_refl _
    · rw [List.length_cons, List.length_cons, List.length_nil]
      omega
  · have hlt := (bytesRequired_le_iff n (bytesRequired n)).mp (Nat.le_refl _)
    have hle := (bytesRequired_le_iff m (bytesRequired n)).mpr (by omega)
    rw [if_neg hm, if_neg (by omega), List.length_cons, List.length_cons, length_toBigEndian, length_toBigEndian]
    omega

/-- A single byte below `0x80` is no headed string. -/
theorem ne_headed {x : UInt8} (hx : x.toNat < 0x80) (b : Bytes) : [x] ≠ Item.header 0x80 b.length ++ b := by
  intro h
  cases b with
  | nil =>
    have hx' : x = UInt8.ofNat 0x80 := (List.cons.inj h).1
    rw [hx'] at hx
    exact absurd hx (by decide)
  | cons y t =>
    have hlen := congrArg List.length h
    have := Item.header_length_pos 0x80 (y :: t).length
    rw [List.length_append, List.length_singleton, List.length_cons] at hlen
    rw [List.length_cons] at this
    omega

/-- Different byte strings have different encodings. -/
theorem encodeData_injective {a b : Bytes} (h : Item.encodeData a = Item.encodeData b) : a = b := by
  rcases RLP.encodeData_cases a with ⟨x, rfl, hx, ha⟩ | ⟨ha, -⟩
  · rcases RLP.encodeData_cases b with ⟨y, rfl, -, hb⟩ | ⟨hb, -⟩
    · rw [← ha, h, hb]
    · rw [ha, hb] at h
      exact absurd h (ne_headed hx b)
  · rcases RLP.encodeData_cases b with ⟨y, rfl, hy, hb⟩ | ⟨hb, -⟩
    · rw [ha, hb] at h
      exact absurd h.symm (ne_headed hy a)
    · rw [ha, hb] at h
      have hlen := congrArg List.length h
      rw [List.length_append, List.length_append] at hlen
      have heq : a.length = b.length := by
        rcases Nat.lt_trichotomy a.length b.length with hlt | heq | hlt
        · have := header_length_le 0x80 (Nat.le_of_lt hlt)
          omega
        · exact heq
        · have := header_length_le 0x80 (Nat.le_of_lt hlt)
          omega
      exact (List.append_inj' h heq).2

theorem indexKey_injective {i j : Nat} (h : indexKey i = indexKey j) : i = j := by
  rw [indexKey, indexKey, Item.encode_data, Item.encode_data] at h
  rw [← fromBigEndian_toBigEndian i, encodeData_injective h, fromBigEndian_toBigEndian]

theorem insertIfNew_of_notMem {m : BytesMap} {k : Bytes} (hk : k ∉ m) (v : Bytes) : m.insertIfNew k v = m.insert k v := by
  have hc : m.inner.inner.contains k = false := by
    rw [← Bool.not_eq_true]
    exact hk
  rw [Std.TreeMap.insertIfNew, Std.TreeMap.insert, Std.DTreeMap.insertIfNew, Std.DTreeMap.insert]
  congr 2
  rw [Std.DTreeMap.Internal.Impl.insertIfNew]
  simp [hc]

/-- Where no key is there twice, the two ways to fill a map are one. -/
theorem indexMap_eq (i : Nat) (data : List Bytes) {m : BytesMap} (hm : ∀ j, i ≤ j → indexKey j ∉ m) :
    indexMap i data m = orderedMap i data m := by
  induction data generalizing i m with
  | nil => rfl
  | cons x data ih =>
    rw [indexMap, orderedMap, insertIfNew_of_notMem (hm i (Nat.le_refl i))]
    refine ih (i + 1) fun j hj hmem => ?_
    rcases Std.TreeMap.mem_insert.mp hmem with heq | hmem
    · have := indexKey_injective (Std.LawfulEqCmp.eq_of_compare heq)
      omega
    · exact hm j (by omega) hmem

theorem mapRoot_indexMap (Q : BlockParams) (data : List Bytes) : mapRoot Q (indexMap 0 data ∅) = orderedTrieRoot Q data := by
  rw [orderedTrieRoot, indexMap_eq 0 data fun j _ => Std.TreeMap.not_mem_emptyc]

/-! ## Executing in order -/

/-- The gas used up to the last receipt. -/
def gasUsedOf (rs : List TransactionReceipt) : U256 := (rs.getLast?.map fun r => r.gasUsed).getD 0

/-- The bloom of the receipts. -/
def bloomOf (rs : List TransactionReceipt) : LogBloom := rs.foldl (fun ret i => ret ||| i.bloom) 0

/-- The transactions are executed in order, after those that gave the receipts `rs`: the state and all the receipts. -/
def replay (S : StateOps σ) (h : BlockHeader) : List (LastHashes × Transaction) → σ → List TransactionReceipt →
    Except Stop (σ × List TransactionReceipt)
  | [], s, rs => .ok (s, rs)
  | (lh, t) :: ts, s, rs =>
    match S.execute (h.envInfo lh (gasUsedOf rs)) t s with
    | .error e => .error e
    | .ok (_, r, s') => replay S h ts s' (rs ++ [r])

/-- The root of the state after the transactions and the rewards, each applied once. -/
def rootAfter (Q : BlockParams) (S : StateOps σ) (h : BlockHeader) (uncles : List BlockHeader) (ts : List (LastHashes × Transaction))
    (s : σ) : Except Stop H256 :=
  match replay S h ts s [] with
  | .error e => .error e
  | .ok (s', _) => .ok (S.rootHash (S.commit (Block.applyRewards Q S uncles h s')))

theorem replay_append (h : BlockHeader) (ts ts' : List (LastHashes × Transaction)) (s : σ) (rs : List TransactionReceipt) :
    replay S h (ts ++ ts') s rs =
      match replay S h ts s rs with
      | .error e => .error e
      | .ok (s', rs') => replay S h ts' s' rs' := by
  induction ts generalizing s rs with
  | nil => rfl
  | cons x ts ih =>
    obtain ⟨lh, t⟩ := x
    rw [List.cons_append, replay, replay]
    cases S.execute (h.envInfo lh (gasUsedOf rs)) t s with
    | error e => rfl
    | ok r => exact ih _ _

/-- Of the header only what is in the environment matters. -/
theorem replay_congr {h h' : BlockHeader} (he : h.envInfo = h'.envInfo) (ts : List (LastHashes × Transaction)) (s : σ)
    (rs : List TransactionReceipt) : replay S h ts s rs = replay S h' ts s rs := by
  induction ts generalizing s rs with
  | nil => rfl
  | cons x ts ih =>
    obtain ⟨lh, t⟩ := x
    rw [replay, replay, he]
    cases S.execute (h'.envInfo lh (gasUsedOf rs)) t s with
    | error e => rfl
    | ok r => exact ih _ _

theorem number_of_envInfo {h h' : BlockHeader} (he : h.envInfo = h'.envInfo) : h.number = h'.number :=
  congrArg EnvInfo.number (congrFun (congrFun he []) 0)

theorem author_of_envInfo {h h' : BlockHeader} (he : h.envInfo = h'.envInfo) : h.author = h'.author :=
  congrArg EnvInfo.author (congrFun (congrFun he []) 0)

namespace Block

theorem rewardUncles_congr {h h' : BlockHeader} (he : h.envInfo = h'.envInfo) (uncles : List BlockHeader) (s : σ) (r : U256) :
    rewardUncles Q S h uncles s r = rewardUncles Q S h' uncles s r := by
  induction uncles generalizing s r with
  | nil => rfl
  | cons u uncles ih =>
    rw [rewardUncles, rewardUncles, ih, uncleReward, uncleReward, number_of_envInfo he]

theorem applyRewards_congr {h h' : BlockHeader} (he : h.envInfo = h'.envInfo) (uncles : List BlockHeader) (s : σ) :
    applyRewards Q S uncles h s = applyRewards Q S uncles h' s := by
  rw [applyRewards, applyRewards, rewardUncles_congr he, author_of_envInfo he]

/-- The state without the rewards. -/
def base (b : Block σ) : σ := if b.m_committedToSeal then b.m_precommit else b.m_state

theorem uncommit_eq (b : Block σ) : b.uncommitToSeal = { b with m_state := b.base, m_committedToSeal := false } := by
  unfold uncommitToSeal base
  cases hb : b.m_committedToSeal with
  | false =>
    rw [if_neg Bool.false_ne_true, if_neg Bool.false_ne_true, ← hb]
  | true => rfl

/-- The block with a transaction recorded. -/
def record (b : Block σ) (t : Transaction) (r : TransactionReceipt) (s : σ) : Block σ :=
  { b with
    m_state := s, m_committedToSeal := false, m_transactions := b.m_transactions ++ [t], m_receipts := b.m_receipts ++ [r] }

/-- What an execution does: nothing to a sealed block; or else it uncommits, and records a transaction that returns. -/
theorem execute_runs (lh : LastHashes) (t : Transaction) (p : Permanence) (b : Block σ) :
    Runs (execute S lh t p) b
      (fun x b' => b.isSealed = false ∧ ∃ r s,
        S.execute (b.m_currentBlock.envInfo lh (gasUsedOf b.m_receipts)) t b.base = .ok (x, r, s) ∧
        b' = if p = .Committed then b.record t r s else b.uncommitToSeal)
      (fun e b' => (b.isSealed = true ∧ b' = b) ∨ (b.isSealed = false ∧ b' = b.uncommitToSeal ∧
        ∃ e', S.execute (b.m_currentBlock.envInfo lh (gasUsedOf b.m_receipts)) t b.base = .error e' ∧ e = .execution e')) := by
  rw [execute, runs_bind, runs_get]
  cases hs : b.isSealed with
  | true => exact Or.inl ⟨rfl, rfl⟩
  | false =>
    rw [if_neg Bool.false_ne_true, runs_bind, runs_modify, runs_bind, runs_get, uncommit_eq]
    change Runs (match S.execute (b.m_currentBlock.envInfo lh (gasUsedOf b.m_receipts)) t b.base with
      | .error s => _
      | .ok (result, receipt, s) => _) _ _ _
    cases S.execute (b.m_currentBlock.envInfo lh (gasUsedOf b.m_receipts)) t b.base with
    | error e => exact Or.inr ⟨rfl, rfl, e, rfl, rfl⟩
    | ok r =>
      by_cases hp : p = .Committed
      · simp only [if_pos hp, runs_bind, runs_set, runs_pure]
        exact ⟨trivial, r.2.1, r.2.2, rfl, rfl⟩
      · simp only [if_neg hp]
        exact ⟨trivial, r.2.1, r.2.2, rfl, rfl⟩

/-- The state with the rewards. -/
def rewarded (Q : BlockParams) (S : StateOps σ) (b : Block σ) (uncles : List BlockHeader) : σ :=
  S.commit (applyRewards Q S uncles b.m_currentBlock b.base)

/-- The header that is put together. -/
def sealHeader (P : ChainParams) (Q : BlockParams) (S : StateOps σ) (b : Block σ) (uncles : List BlockHeader) (extraData : Bytes) :
    BlockHeader :=
  { b.m_currentBlock with
    logBloom := bloomOf b.m_receipts, gasUsed := gasUsedOf b.m_receipts
    transactionsRoot := mapRoot Q (indexMap 0 (b.m_transactions.map Q.transactionRLP) ∅)
    receiptsRoot := mapRoot Q (indexMap 0 (b.m_receipts.map TransactionReceipt.rlp) ∅)
    sha3Uncles := unclesHash Q uncles, stateRoot := S.rootHash (b.rewarded Q S uncles)
    parentHash := P.hash b.m_previousBlock, extraData := extraData.take 32 }

/-- The block that is committed to seal. -/
def committed (P : ChainParams) (Q : BlockParams) (S : StateOps σ) (b : Block σ) (uncles : List BlockHeader) (extraData : Bytes) :
    Block σ :=
  { b with
    m_state := b.rewarded Q S uncles, m_precommit := b.base, m_currentTxs := b.m_transactions, m_currentUncles := uncles
    m_committedToSeal := true, m_currentBlock := b.sealHeader P Q S uncles extraData }

/-- What a commit to seal does: it starts from the state without the rewards. -/
theorem commitToSeal_runs (c : BlockChain) (extraData : Bytes) (b : Block σ) :
    Runs (commitToSeal P Q S c extraData) b
      (fun _ b' => b.isSealed = false ∧ ∃ uncles, chosen P c b = .ok uncles ∧ b' = b.committed P Q S uncles extraData)
      (fun e b' => (b.isSealed = true ∧ b' = b) ∨ (b.isSealed = false ∧ chosen P c b = .error e ∧
        b' = { b with m_state := b.base, m_precommit := b.base, m_committedToSeal := false })) := by
  have hready : (if b.m_committedToSeal = true then b.uncommitToSeal else { b with m_precommit := b.m_state }) =
      { b with m_state := b.base, m_precommit := b.base, m_committedToSeal := false } := by
    rw [uncommit_eq]
    unfold base
    cases hb : b.m_committedToSeal with
    | false => rfl
    | true => rfl
  rw [commitToSeal, runs_bind, runs_get]
  cases hs : b.isSealed with
  | true => exact Or.inl ⟨rfl, rfl⟩
  | false =>
    rw [if_neg Bool.false_ne_true, runs_bind, runs_modify, hready, runs_bind, runs_get, runs_bind]
    change Runs (ofExcept (chosen P c b)) _ _ _
    cases chosen P c b with
    | error e => exact Or.inr ⟨rfl, rfl, rfl⟩
    | ok uncles => exact ⟨rfl, uncles, rfl, rfl⟩

end Block

/-! ## What a block has kept -/

namespace Tracked

open Block

/-- The transactions are those that were executed, in order, and their receipts and the state before the rewards are what this
gives; a block that is committed to seal has the root of the state with one reward. -/
structure Played (Q : BlockParams) (S : StateOps σ) (x : Tracked σ) : Prop where
  transactions : x.executed.map Prod.snd = x.block.m_transactions
  replay : x.copied = false → replay S x.block.m_currentBlock x.executed x.parent [] = .ok (x.block.base, x.block.m_receipts)
  root : x.block.m_committedToSeal = true →
    x.copied = false ∧ x.block.m_currentBlock.stateRoot = S.rootHash (x.block.rewarded Q S x.block.m_currentUncles)

theorem played_reset {b : Block σ} (htx : b.m_transactions = []) (hrec : b.m_receipts = []) (hc : b.m_committedToSeal = false) :
    Played Q S (reset b) := by
  refine ⟨htx.symm, fun _ => ?_, fun h => ?_⟩
  · rw [reset, base, hc, if_neg Bool.false_ne_true, hrec]
    rfl
  · rw [reset, hc] at h
    cases h

/-- Uncommitting leaves what was executed. -/
theorem Played.uncommit {x : Tracked σ} (h : Played Q S x) : Played Q S { x with block := x.block.uncommitToSeal } := by
  rw [uncommit_eq]
  refine ⟨h.transactions, h.replay, fun hc => ?_⟩
  cases hc

theorem Played.execute {x : Tracked σ} (h : Played Q S x) (lh : LastHashes) (t : Transaction) (p : Permanence) :
    Played Q S (x.next P Q S (.execute lh t p)) := by
  have hruns := execute_runs (S := S) lh t p x.block
  unfold Runs at hruns
  rw [next]
  cases he : Block.execute S lh t p x.block with
  | ok r b =>
    rw [he] at hruns
    obtain ⟨-, rc, s, hexec, rfl⟩ := hruns
    by_cases hp : p = .Committed
    · simp only [if_pos hp]
      refine ⟨?_, fun hcop => ?_, fun hc => ?_⟩
      · rw [List.map_append, h.transactions]
        rfl
      · have hrep := h.replay hcop
        have hcur : (x.block.record t rc s).m_currentBlock = x.block.m_currentBlock := rfl
        dsimp only
        rw [replay_append, hcur, hrep]
        simp only [Webthree.replay, hexec]
        rfl
      · cases hc
    · simp only [if_neg hp]
      exact h.uncommit
  | error e b =>
    rw [he] at hruns
    rcases hruns with ⟨-, rfl⟩ | ⟨-, rfl, -⟩
    · exact h
    · exact h.uncommit

theorem Played.commitToSeal {x : Tracked σ} (h : Played Q S x) (hcop : x.copied = false) (c : BlockChain) (extraData : Bytes) :
    Played Q S (x.next P Q S (.commitToSeal c extraData)) := by
  have hruns := commitToSeal_runs (P := P) (Q := Q) (S := S) c extraData x.block
  unfold Runs at hruns
  rw [next]
  cases he : Block.commitToSeal P Q S c extraData x.block with
  | ok r b =>
    rw [he] at hruns
    obtain ⟨-, uncles, -, rfl⟩ := hruns
    refine ⟨h.transactions, fun _ => ?_, fun _ => ⟨hcop, ?_⟩⟩
    · refine (replay_congr ?_ _ _ _).trans (h.replay hcop)
      rfl
    · have henv : x.block.m_currentBlock.envInfo = (x.block.sealHeader P Q S uncles extraData).envInfo := rfl
      exact congrArg (fun s => S.rootHash (S.commit s)) (applyRewards_congr henv uncles x.block.base)
  | error e b =>
    rw [he] at hruns
    rcases hruns with ⟨-, rfl⟩ | ⟨-, -, rfl⟩
    · exact h
    · refine ⟨h.transactions, h.replay, fun hc => ?_⟩
      cases hc

/-- A copy of a block that is not committed to seal has kept everything. -/
theorem Played.copyTo {x : Tracked σ} (h : Played Q S x) {b : Block σ} (htx : b.m_transactions = x.block.m_transactions)
    (hrec : b.m_receipts = x.block.m_receipts) (hcur : b.m_currentBlock = x.block.m_currentBlock) (hstate : b.m_state = x.block.m_state)
    (hc : b.m_committedToSeal = false) : Played Q S (x.copyTo b) := by
  refine ⟨h.transactions.trans htx.symm, fun hcop => ?_, fun hcom => ?_⟩
  · rw [Tracked.copyTo, Bool.or_eq_false_iff] at hcop
    have hrep := h.replay hcop.1
    rw [base, hcop.2, if_neg Bool.false_ne_true] at hrep
    rw [Tracked.copyTo, base, hc, if_neg Bool.false_ne_true, hcur, hrec, hstate]
    exact hrep
  · rw [Tracked.copyTo, hc] at hcom
    cases hcom

/-- No block is committed to seal after it has been copied from one that was, without a reset in between. -/
def Uncopied (pool : Nat → Tracked σ) : PoolOp → Prop
  | .on i (.commitToSeal _ _) => (pool i).copied = false
  | _ => True

theorem Played.nextOf {pool : Nat → Tracked σ} (h : ∀ i, Played Q S (pool i)) {op : PoolOp} (hop : Uncopied pool op) (i : Nat) :
    Played Q S (nextOf P Q S pool op i) := by
  have hupdate : ∀ k x, Played Q S x → Played Q S (Function.update pool k x i) := by
    intro k x hx
    by_cases hi : i = k
    · rw [hi, Function.update_self]
      exact hx
    · rw [Function.update_of_ne hi]
      exact h i
  cases op with
  | on k op =>
    refine hupdate k _ ?_
    cases op with
    | sync bi timestamp => exact played_reset rfl rfl rfl
    | resetCurrent timestamp => exact played_reset rfl rfl rfl
    | execute lh t p => exact (h k).execute lh t p
    | commitToSeal c extraData => exact (h k).commitToSeal hop c extraData
    | uncommitToSeal => exact (h k).uncommit
  | copy k j => exact hupdate k _ ((h j).copyTo rfl rfl rfl rfl rfl)
  | assign k j =>
    rw [Tracked.nextOf]
    by_cases hkj : k = j
    · rw [if_pos hkj]
      exact h i
    · rw [if_neg hkj]
      exact hupdate k _ ((h j).copyTo rfl rfl rfl rfl rfl)

/-- What is kept in every run. -/
theorem played_of_reach {init pool : Nat → Tracked σ} (hinit : ∀ i, Played Q S (init i))
    (h : Reach (nextOf P Q S) Uncopied init pool) (i : Nat) : Played Q S (pool i) :=
  h.invariant (P := fun pool : Nat → Tracked σ => ∀ i, Played Q S (pool i)) hinit (fun _ _ hp hop => Played.nextOf hp hop) i

end Tracked

/-! ## When a block is accepted -/

namespace Block

open BlockChain

/-- The block has been reset. -/
structure Ready (P : ChainParams) (b : Block σ) : Prop where
  transactions : b.m_transactions = []
  receipts : b.m_receipts = []
  unsealed : b.m_currentBytes = none
  uncommitted : b.m_committedToSeal = false
  parent : b.m_currentBlock.parentHash = P.hash b.m_previousBlock

theorem ready_sync (bi : BlockHeader) (timestamp : U256) (b : Block σ) : Ready P (b.sync P Q S bi timestamp) :=
  ⟨rfl, rfl, rfl, rfl, rfl⟩

/-- The loop over the transactions records all of them, or ends with the exception of the one that cannot be executed. -/
theorem playback_runs (lh : LastHashes) (txs : List Transaction) (i : Nat) {b : Block σ} (hs : b.m_currentBytes = none)
    (hc : b.m_committedToSeal = false) :
    Runs (playback S lh i txs) b
      (fun rlps b' => ∃ s new, replay S b.m_currentBlock (txs.map fun t => (lh, t)) b.m_state b.m_receipts = .ok (s, b.m_receipts ++ new) ∧
        rlps = new.map TransactionReceipt.rlp ∧
        b' = { b with m_state := s, m_transactions := b.m_transactions ++ txs, m_receipts := b.m_receipts ++ new })
      (fun e _ => ∃ stop, replay S b.m_currentBlock (txs.map fun t => (lh, t)) b.m_state b.m_receipts = .error stop ∧
        ∃ j, e = .transactionIndex j (.execution stop)) := by
  have hsealed : b.isSealed = false := by
    rw [isSealed, hs]
    rfl
  have hbase : b.base = b.m_state := by
    rw [base, hc]
    rfl
  induction txs generalizing i b with
  | nil =>
    refine ⟨b.m_state, [], ?_, rfl, ?_⟩
    · rw [List.append_nil]
      rfl
    · rw [List.append_nil, List.append_nil]
  | cons t txs ih =>
    rw [playback, runs_bind, runs_tryCatch]
    refine (execute_runs lh t .Committed b).mono ?_ ?_
    · intro x b' h
      obtain ⟨-, r, s, hexec, rfl⟩ := h
      rw [hbase] at hexec
      rw [if_pos rfl, runs_bind, runs_get, runs_bind]
      refine (ih (i + 1) (b := b.record t r s) hs rfl ?_ rfl).mono ?_ ?_
      · rw [isSealed, record, hs]
        rfl
      · intro rlps b' h
        obtain ⟨s', new, hrep, rfl, rfl⟩ := h
        refine ⟨s', r :: new, ?_, ?_, ?_⟩
        · rw [List.map_cons, replay, hexec]
          simp only [record, List.append_assoc, List.singleton_append] at hrep
          exact hrep
        · simp [record]
        · simp only [record, List.append_assoc, List.singleton_append]
          rw [← hc]
      · intro e _ h
        obtain ⟨stop, hrep, he⟩ := h
        refine ⟨stop, ?_, he⟩
        rw [List.map_cons, replay, hexec]
        exact hrep
    · intro e b' h
      rcases h with ⟨h, -⟩ | ⟨-, -, stop, hexec, rfl⟩
      · rw [hsealed] at h
        cases h
      · refine ⟨stop, ?_, i, rfl⟩
        rw [hbase] at hexec
        rw [List.map_cons, replay, hexec]

/-- All that `enact` looks at. -/
structure Accepts (P : ChainParams) (Q : BlockParams) (S : StateOps σ) (c : BlockChain) (memo : LastHashes) (block : VerifiedBlockRef)
    (b : Block σ) (lh : LastHashes) (s : σ) (rs : List TransactionReceipt) : Prop where
  hashes : c.lastHashes P memo block.info.parentHash = .ok lh
  replay : replay S block.info (block.transactions.map fun t => (lh, t)) b.m_state [] = .ok (s, rs)
  receiptsRoot : orderedTrieRoot Q (rs.map TransactionReceipt.rlp) = block.info.receiptsRoot
  logBloom : block.info.logBloom = bloomOf rs
  few : block.uncles.length ≤ 2
  uncles : checkUncles P c block.info 0 (P.hash block.info :: c.allKinFrom P block.info.parentHash 6) block.uncles = .ok ()
  stateRoot : block.info.stateRoot = b.m_previousBlock.stateRoot ∨
    block.info.stateRoot = S.rootHash (S.commit (applyRewards Q S block.uncles block.info s))
  gasUsed : block.info.gasUsed = gasUsedOf rs

/-- The block with another one enacted on it. -/
def enacted (Q : BlockParams) (S : StateOps σ) (b : Block σ) (block : VerifiedBlockRef) (s : σ) (rs : List TransactionReceipt) :
    Block σ :=
  { b with
    m_currentBlock := block.info, m_transactions := block.transactions, m_receipts := rs
    m_state := S.commit (applyRewards Q S block.uncles block.info s) }

/-- What is computed without the block leaves it. -/
theorem runs_ofExcept {α : Type} {x : Except BlockError α} {b : Block σ} {R : α → Block σ → Prop} {E : BlockError → Block σ → Prop}
    (hok : ∀ a, x = .ok a → R a b) (herror : ∀ e, x = .error e → E e b) : Runs (ofExcept x) b R E := by
  cases x with
  | ok a => exact hok a rfl
  | error e => exact herror e rfl

theorem enact_runs (c : BlockChain) (memo : LastHashes) (block : VerifiedBlockRef) {b : Block σ} (hb : Ready P b) :
    Runs (enact P Q S c memo block) b
      (fun td b' => ∃ lh s rs, Accepts P Q S c memo block b lh s rs ∧ td = block.info.difficulty ∧ b' = b.enacted Q S block s rs)
      (fun _ _ => ¬∃ lh s rs, Accepts P Q S c memo block b lh s rs) := by
  rw [enact, runs_bind, runs_get, if_neg (not_not_intro hb.parent), runs_bind, runs_modify, runs_bind]
  refine runs_ofExcept (fun lh hlh => ?_) fun e he => ?_
  · rw [runs_bind]
    refine (playback_runs lh block.transactions 0 (b := { b with m_currentBlock := block.info }) hb.unsealed hb.uncommitted).mono ?_ ?_
    · intro rlps b' h
      obtain ⟨s, rs, hrep, rfl, rfl⟩ := h
      simp only [hb.receipts, hb.transactions, List.nil_append] at hrep ⊢
      -- nothing else can be accepted
      have hno : ¬Accepts P Q S c memo block b lh s rs → ¬∃ lh s rs, Accepts P Q S c memo block b lh s rs := by
        intro hnot h
        obtain ⟨lh', s', rs', h⟩ := h
        have hhashes := h.hashes
        rw [hlh] at hhashes
        cases hhashes
        have hreplay := h.replay
        rw [hrep] at hreplay
        cases hreplay
        exact hnot h
      by_cases hroot : orderedTrieRoot Q (rs.map TransactionReceipt.rlp) = block.info.receiptsRoot
      · rw [if_neg (not_not_intro hroot), runs_bind, runs_get]
        change Runs (if block.info.logBloom ≠ bloomOf rs then _ else _) _ _ _
        by_cases hlog : block.info.logBloom = bloomOf rs
        · rw [if_neg (not_not_intro hlog)]
          by_cases hfew : block.uncles.length > 2
          · rw [if_pos hfew]
            exact hno fun h => Nat.not_le.mpr hfew h.few
          · rw [if_neg hfew, runs_bind]
            refine runs_ofExcept (fun _ huncles => ?_) fun e he => hno fun h => ?_
            · rw [runs_bind, runs_modify, runs_bind, runs_get]
              dsimp only
              by_cases hstate : block.info.stateRoot = b.m_previousBlock.stateRoot ∨
                block.info.stateRoot = S.rootHash (S.commit (applyRewards Q S block.uncles block.info s))
              · rw [if_neg (by rcases hstate with h | h <;> simp [h])]
                change Runs (if block.info.gasUsed ≠ gasUsedOf rs then _ else _) _ _ _
                by_cases hgas : block.info.gasUsed = gasUsedOf rs
                · rw [if_neg (not_not_intro hgas)]
                  exact ⟨lh, s, rs, ⟨hlh, hrep, hroot, hlog, Nat.not_lt.mp hfew, huncles, hstate, hgas⟩, rfl, rfl⟩
                · rw [if_pos hgas]
                  exact hno fun h => hgas h.gasUsed
              · rw [if_pos (by simpa [not_or] using hstate)]
                exact hno fun h => hstate h.stateRoot
            · rw [h.uncles] at he
              cases he
        · rw [if_pos hlog]
          exact hno fun h => hlog h.logBloom
      · rw [if_pos hroot]
        exact hno fun h => hroot h.receiptsRoot
    · intro e _ h hacc
      obtain ⟨stop, hrep, -⟩ := h
      obtain ⟨lh', s, rs, hacc⟩ := hacc
      have hhashes := hacc.hashes
      rw [hlh] at hhashes
      cases hhashes
      have hreplay := hacc.replay
      rw [← hb.receipts] at hreplay
      dsimp only at hrep
      rw [hrep] at hreplay
      cases hreplay
  · intro h
    obtain ⟨_, _, _, h⟩ := h
    rw [h.hashes] at he
    cases he

/-- What `enact` can accept it accepts. -/
theorem Accepts.enact_eq {c : BlockChain} {memo : LastHashes} {block : VerifiedBlockRef} {b : Block σ} {lh : LastHashes} {s : σ}
    {rs : List TransactionReceipt} (h : Accepts P Q S c memo block b lh s rs) (hb : Ready P b) :
    enact P Q S c memo block b = .ok block.info.difficulty (b.enacted Q S block s rs) := by
  have hruns := enact_runs (P := P) (Q := Q) (S := S) c memo block hb
  unfold Runs at hruns
  cases he : enact P Q S c memo block b with
  | error e b' =>
    rw [he] at hruns
    exact absurd ⟨lh, s, rs, h⟩ hruns
  | ok td b' =>
    rw [he] at hruns
    obtain ⟨lh', s', rs', h', rfl, rfl⟩ := hruns
    have hhashes := h'.hashes
    rw [h.hashes] at hhashes
    cases hhashes
    have hreplay := h'.replay
    rw [h.replay] at hreplay
    cases hreplay
    rfl

theorem sealBlock_eq {b : Block σ} {header : BlockHeader} (hc : b.m_committedToSeal = true)
    (hh : header.withoutSeal = b.m_currentBlock.withoutSeal) :
    sealBlock P header b = .ok true { b with
      m_currentBytes := some ⟨header, b.m_currentTxs, b.m_currentUncles⟩, m_currentBlock := header, m_state := b.m_precommit } := by
  have hruns : Runs (sealBlock P header) b (fun r b' => r = true ∧ b' = { b with
      m_currentBytes := some ⟨header, b.m_currentTxs, b.m_currentUncles⟩, m_currentBlock := header, m_state := b.m_precommit })
      fun _ _ => False := by
    rw [sealBlock, runs_bind, runs_get, hc, Bool.not_true, if_neg Bool.false_ne_true, hh, if_neg (not_not_intro rfl), runs_bind,
      runs_set, runs_pure]
    exact ⟨rfl, rfl⟩
  obtain ⟨r, b', hok, rfl, rfl⟩ := hruns.exists_ok
  exact hok

end Block

/-! ## Mining -/

namespace Tracked

open Block

/-- Transactions are executed, with the hashes of the ancestors, and commits to seal come and go. -/
def Mining (lh : LastHashes) (_ : Tracked σ) : BlockOp → Prop
  | .execute lh' _ _ => lh' = lh
  | .commitToSeal _ _ => True
  | .uncommitToSeal => True
  | .sync _ _ => False
  | .resetCurrent _ => False

/-- What a block that is mined on a parent has kept since the reset; `first` is the block then. -/
structure Mined (P : ChainParams) (Q : BlockParams) (S : StateOps σ) (lh : LastHashes) (first : Block σ) (x : Tracked σ) : Prop where
  unsealed : x.block.m_currentBytes = none
  previous : x.block.m_previousBlock = first.m_previousBlock
  parentHash : x.block.m_currentBlock.parentHash = P.hash first.m_previousBlock
  env : x.block.m_currentBlock.envInfo = first.m_currentBlock.envInfo
  parent : x.parent = first.m_state
  hashes : ∀ e ∈ x.executed, e.1 = lh
  notCopied : x.copied = false
  played : Played Q S x

theorem mined_reset {first : Block σ} (h : Ready P first) (lh : LastHashes) : Mined P Q S lh first (reset first) :=
  ⟨h.unsealed, rfl, h.parent, rfl, rfl, fun _ he => absurd he List.not_mem_nil, rfl,
    played_reset h.transactions h.receipts h.uncommitted⟩

theorem Mined.next {lh : LastHashes} {first : Block σ} {x : Tracked σ} (h : Mined P Q S lh first x) {op : BlockOp}
    (hop : Mining lh x op) : Mined P Q S lh first (x.next P Q S op) := by
  cases op with
  | sync bi timestamp => exact hop.elim
  | resetCurrent timestamp => exact hop.elim
  | uncommitToSeal =>
    have hplayed : Played Q S (x.next P Q S .uncommitToSeal) := h.played.uncommit
    rw [Tracked.next, uncommit_eq] at hplayed ⊢
    exact ⟨h.unsealed, h.previous, h.parentHash, h.env, h.parent, h.hashes, h.notCopied, hplayed⟩
  | commitToSeal c extraData =>
    have hplayed : Played Q S (x.next P Q S (.commitToSeal c extraData)) := h.played.commitToSeal h.notCopied c extraData
    have hruns := commitToSeal_runs (P := P) (Q := Q) (S := S) c extraData x.block
    unfold Runs at hruns
    rw [Tracked.next] at hplayed ⊢
    cases he : Block.commitToSeal P Q S c extraData x.block with
    | ok r b =>
      rw [he] at hruns hplayed
      obtain ⟨-, uncles, -, rfl⟩ := hruns
      refine ⟨h.unsealed, h.previous, ?_, h.env, h.parent, h.hashes, h.notCopied, hplayed⟩
      exact congrArg P.hash h.previous
    | error e b =>
      rw [he] at hruns hplayed
      rcases hruns with ⟨-, rfl⟩ | ⟨-, -, rfl⟩
      · exact h
      · exact ⟨h.unsealed, h.previous, h.parentHash, h.env, h.parent, h.hashes, h.notCopied, hplayed⟩
  | execute lh' t p =>
    have hplayed : Played Q S (x.next P Q S (.execute lh' t p)) := h.played.execute lh' t p
    have hlh : lh' = lh := hop
    have hruns := execute_runs (S := S) lh' t p x.block
    unfold Runs at hruns
    rw [Tracked.next] at hplayed ⊢
    cases he : Block.execute S lh' t p x.block with
    | ok r b =>
      rw [he] at hruns hplayed
      obtain ⟨-, rc, s, -, rfl⟩ := hruns
      by_cases hp : p = .Committed
      · simp only [if_pos hp] at hplayed ⊢
        refine ⟨h.unsealed, h.previous, h.parentHash, h.env, h.parent, fun e he => ?_, h.notCopied, hplayed⟩
        rcases List.mem_append.mp he with he | he
        · exact h.hashes e he
        · rw [List.mem_singleton.mp he, hlh]
      · simp only [if_neg hp, uncommit_eq] at hplayed ⊢
        exact ⟨h.unsealed, h.previous, h.parentHash, h.env, h.parent, h.hashes, h.notCopied, hplayed⟩
    | error e b =>
      rw [he] at hruns hplayed
      rcases hruns with ⟨-, rfl⟩ | ⟨-, rfl, -⟩
      · exact h
      · rw [uncommit_eq] at hplayed ⊢
        exact ⟨h.unsealed, h.previous, h.parentHash, h.env, h.parent, h.hashes, h.notCopied, hplayed⟩

theorem mined_of_reach {lh : LastHashes} {first : Block σ} (hfirst : Ready P first) {x : Tracked σ}
    (h : Reach (Tracked.next P Q S) (Mining lh) (reset first) x) : Mined P Q S lh first x :=
  h.invariant (mined_reset hfirst lh) fun _ _ hx hop => hx.next hop

/-- The transactions, with the hashes they were executed with. -/
theorem Mined.executed_eq {lh : LastHashes} {first : Block σ} {x : Tracked σ} (h : Mined P Q S lh first x) :
    x.executed = x.block.m_transactions.map fun t => (lh, t) := by
  rw [← h.played.transactions, List.map_map]
  refine (List.map_id _).symm.trans (List.map_congr_left fun e he => ?_)
  rw [Function.comp_apply, ← h.hashes e he]
  rfl

end Tracked

end Webthree
