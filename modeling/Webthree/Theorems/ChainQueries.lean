import Webthree.Core.FixedHash
import Webthree.Lemmas.LastHashes
import Webthree.Theorems.BlockChain

/-!
# Queries of the chain

When the answers are those that the documentation promises: the route between two blocks, the blocks with a bloom, and the last
hashes before a block.
-/

namespace Webthree

open BlockChain

open ChainOp (next Counts sound_of_reach)

/-! ## The route between two blocks -/

/-- The ancestor is the latest common one; the route goes down to it and up from it, so far as the flags say; and the index is where
the ancestor is or would be. -/
structure RightRoute {P : ChainParams} (T : BlockTree P) (f t : H256) (common pre post : Bool) (r : List H256 × H256 × Nat) : Prop where
  left : r.2.1 ∈ T.chain f
  right : r.2.1 ∈ T.chain t
  latest : ∀ x ∈ T.chain f, x ∈ T.chain t → T.height x ≤ T.height r.2.1
  route : r.1 = (if pre then (T.chain f).takeWhile (· ≠ r.2.1) else []) ++ (if common then [r.2.1] else []) ++
    if post then ((T.chain t).takeWhile (· ≠ r.2.1)).reverse else []
  index : r.2.2 = (if pre then (T.chain f).takeWhile (· ≠ r.2.1) else []).length

/-- What the loops push is the right route, and the index right, unless the ancestor is left out or is the last of it. -/
theorem rightRoute_iff {P : ChainParams} {T : BlockTree P} {mem : H256 → Prop} (hrooted : IsTree T.parent T.height P.genesisHash mem)
    {f t cm : H256} (hf : mem f) {a b : List H256} (h : Meets T.parent T.height f t cm a b) (common pre post : Bool) {route : List H256}
    {i : Nat} (hroute : route = downward common pre cm a ++ (upward common pre post cm b).reverse)
    (hindex : i = (downward common pre cm a).length -
      if common && !(downward common pre cm a).isEmpty && !(upward common pre post cm b).isEmpty then 1 else 0) :
    RightRoute T f t common pre post (route, cm, i) ↔ (common = true → post = true ∧ (pre = true → t ∉ T.chain f)) := by
  subst hroute hindex
  have ha : (T.chain f).takeWhile (· ≠ cm) = a := h.left_eq_takeWhile
  have hb : (T.chain t).takeWhile (· ≠ cm) = b := h.symm.left_eq_takeWhile
  have hnil : b = [] ↔ t ∈ T.chain f := h.right_eq_nil_iff
  constructor
  · rintro ⟨-, -, -, hroute, hindex⟩ rfl
    dsimp only at hroute hindex
    rw [ha] at hroute hindex
    rw [hb] at hroute
    cases post with
    | false =>
      cases pre with
      | false => simp [downward, upward] at hroute
      | true => simp [downward, upward] at hindex
    | true =>
      refine ⟨rfl, fun hpre => ?_⟩
      subst hpre
      rw [← hnil]
      rintro rfl
      simp [downward, upward] at hindex
  · intro hcond
    refine ⟨h.mem_left, h.mem_right, fun x hx hx' => h.height_le hrooted hf hx hx', ?_, ?_⟩
    · dsimp only
      rw [ha, hb]
      cases common with
      | false => cases pre <;> cases post <;> simp [downward, upward]
      | true =>
        rw [(hcond rfl).1]
        cases pre <;> simp [downward, upward]
    · dsimp only
      rw [ha]
      cases common with
      | false => cases pre <;> simp [downward]
      | true =>
        obtain ⟨rfl, hpre⟩ := hcond rfl
        cases pre with
        | false => simp [downward]
        | true =>
          have hne : b ≠ [] := fun hb => hpre rfl (hnil.mp hb)
          simp [downward, upward, hne]

/-- With the common ancestor in the route, the answer is right if and only if the way up is asked for, and it is not empty if the way
down is too. Without it, the answer is always right. -/
theorem treeRoute_right {P : ChainParams} (T : BlockTree P) {c : BlockChain} (hc : Sound T c) {f t : H256} (hf : BlockChain.Stored P c f)
    (ht : BlockChain.Stored P c t) (common pre post : Bool) :
    Runs (treeRoute f t common pre post) c (fun r _ => RightRoute T f t common pre post r) (fun _ _ => False) ↔
      (common = true → post = true ∧ (pre = true → t ∉ T.chain f)) := by
  have hrun := treeRoute_flags (E := fun _ _ => False) hc common pre post hf ht
  constructor
  · intro h
    obtain ⟨⟨route, cm, i⟩, c', hok, -, a, b, hmeets, hroute, hindex⟩ := hrun.exists_ok
    exact (rightRoute_iff hc.rooted hf hmeets common pre post hroute hindex).mp (h.of_ok hok)
  · intro hcond
    refine hrun.mono ?_ fun _ _ h => h
    rintro ⟨route, cm, i⟩ c' ⟨-, a, b, hmeets, hroute, hindex⟩
    exact (rightRoute_iff hc.rooted hf hmeets common pre post hroute hindex).mpr hcond

namespace ChainSample

/-- Two branches from the genesis block. -/
def forked : { r : SampleRun (Counts tree) // BlockChain.Stored params (after r.ops) (label 3) ∧ BlockChain.Stored params (after r.ops) (label 4) ∧
    label 4 ∉ tree.chain (label 3) } where
  val := overtaken
  property := by
    decide +kernel

end ChainSample

open ChainSample

theorem treeRoute_right_sample :
    Runs (treeRoute (label 3) (label 4) true true true) (after [imp first, imp second, imp heavy])
      (fun r _ => RightRoute tree (label 3) (label 4) true true true r) fun _ _ => False := by
  obtain ⟨hf, ht, hnot⟩ := forked.property
  have hsound := sound_of_reach (T := tree) (fun _ _ hop => hop.1) forked.val.reach
  exact (treeRoute_right tree hsound hf ht true true true).mpr fun _ => ⟨rfl, fun _ => hnot⟩

/-- On the way down to its parent, the index of a block's parent is one behind the end. -/
theorem treeRoute_behind :
    ¬Runs (treeRoute (label 3) (label 2) true true true) (after [imp first, imp second])
      (fun r _ => RightRoute tree (label 3) (label 2) true true true r) fun _ _ => False := by
  intro h
  have hrun : Runs (treeRoute (label 3) (label 2) true true true) (after [imp first, imp second])
      (fun r _ => r.2.2 = 2 ∧ ((tree.chain (label 3)).takeWhile (· ≠ r.2.1)).length = 1) fun _ _ => False := by decide +kernel
  obtain ⟨r, c', hok, htwo, hone⟩ := hrun.exists_ok
  have hindex := (h.of_ok hok).index
  rw [if_pos rfl, hone, htwo] at hindex
  cases hindex

/-! ## The blocks with a bloom -/

/-- The numbers are in order and in the range if and only if the end of the range is the first of its 256 blocks, or is rounded up
beyond the range of `unsigned`, or the next 256 blocks have no bloom that fits. -/
theorem withBlockBloom_in_range (c : BlockChain) (b : LogBloom) {earliest latest : Nat} (hle : earliest ≤ latest) :
    Runs (withBlockBloom b earliest latest) c (fun ns _ => ns.Pairwise (· < ·) ∧ ∀ n ∈ ns, earliest ≤ n ∧ n ≤ latest)
      (fun _ _ => False) ↔
      latest % 256 = 0 ∨ 2 ^ 32 ≤ latest + 255 ∨ ∀ n, n / 256 = latest / 256 + 1 → ¬Covers c n b := by
  have hrun := withBlockBloom_finds (E := fun _ _ => False) c b earliest latest
  constructor
  · intro h
    obtain ⟨ns, c', hok, -, hns⟩ := hrun.exists_ok
    by_contra hcond
    push Not at hcond
    obtain ⟨hmod, hfit, n, hn, hcovers⟩ := hcond
    have hmem : n ∈ ns := by
      refine (hns.mem_iff n).mpr ⟨by omega, ?_, by omega, hcovers⟩
      rw [ceilDiv]
      omega
    have := (h.of_ok hok).2 n hmem
    omega
  · intro hcond
    refine hrun.mono (fun ns c' hns => ⟨hns.2.sorted, fun n hn => ?_⟩) fun _ _ h => h
    obtain ⟨hearliest, htop, hlatest, hcovers⟩ := (hns.2.mem_iff n).mp hn
    refine ⟨hearliest, ?_⟩
    rw [ceilDiv] at htop
    rcases hcond with hmod | hfit | hnone
    · omega
    · omega
    · by_contra hgt
      exact hnone n (by omega) hcovers

namespace ChainSample

/-- The bloom of a block. -/
def bloom : LogBloom := params.blockBloom first

/-- An index in which the blooms of the blocks from 256 on are like that one. -/
def chunk : BlockChain :=
  { new params with m_blocksBlooms := fun id => if id = chunkId 0 16 ∨ id = chunkId 1 1 then some fun _ => bloom else none }

end ChainSample

theorem withBlockBloom_in_range_sample :
    Runs (withBlockBloom bloom 200 256) chunk (fun ns _ => ns.Pairwise (· < ·) ∧ ∀ n ∈ ns, 200 ≤ n ∧ n ≤ 256) fun _ _ => False := by
  rw [withBlockBloom_in_range]
  · exact .inl (by decide)
  · decide

/-- A block of the next 256 is found when the first two blocks are searched. -/
theorem not_in_range_of_covers {c : BlockChain} {b : LogBloom} (hcovers : Covers c 256 b) :
    ¬∀ earliest latest, earliest ≤ latest →
      Runs (withBlockBloom b earliest latest) c (fun ns _ => ns.Pairwise (· < ·) ∧ ∀ n ∈ ns, earliest ≤ n ∧ n ≤ latest)
        fun _ _ => False := by
  intro h
  obtain ⟨ns, c', hok, -, hns⟩ := (withBlockBloom_finds (E := fun _ _ => False) c b 0 1).exists_ok
  have hmem : 256 ∈ ns := (hns.mem_iff 256).mpr ⟨by decide, by decide, by decide, hcovers⟩
  have := ((h 0 1 (by decide)).of_ok hok).2 256 hmem
  omega

theorem withBlockBloom_beyond :
    ¬∀ c b earliest latest, earliest ≤ latest →
      Runs (withBlockBloom b earliest latest) c (fun ns _ => ns.Pairwise (· < ·) ∧ ∀ n ∈ ns, earliest ≤ n ∧ n ≤ latest)
        fun _ _ => False := by
  intro h
  have hcovers : Covers chunk 256 bloom := by
    unfold Covers
    decide +kernel
  exact not_in_range_of_covers hcovers (h chunk bloom)

/-! ## The last hashes -/

/-- The query returns the hashes of the block and its ancestors, and the machine sees the ancestors of a block upon it: a number stands
for the block that is so many steps up as the numbers say. -/
def Answers {P : ChainParams} (T : BlockTree P) (x : MemoChain) (p : H256) : Prop :=
  ∃ l, x.chain.lastHashes P x.m_lastLastHashes p = .ok l ∧ l = T.hashes p ∧
    ∀ F : ExtFields, F.envInfo.number.toNat = T.number p + 1 → F.envInfo.lastHashes = l →
      ∀ n : U256, F.blockHash n = if n.toNat ≤ T.number p ∧ T.number p < n.toNat + 256 then (T.above p (T.number p - n.toNat)).toU256 else 0

/-- The machine sees the ancestors if the hashes are right. -/
theorem blockHash_hashes {P : ChainParams} {T : BlockTree P} {p : H256} (hp : T.number p < 2 ^ 32) {F : ExtFields}
    (hnumber : F.envInfo.number.toNat = T.number p + 1) (hashes : F.envInfo.lastHashes = T.hashes p) (n : U256) :
    F.blockHash n = if n.toNat ≤ T.number p ∧ T.number p < n.toNat + 256 then (T.above p (T.number p - n.toNat)).toU256 else 0 := by
  have hn := n.isLt
  have hmax : ((if 256 < F.envInfo.number then F.envInfo.number else 256) - 256).toNat = T.number p + 1 - 256 := by
    split
    · rename_i h
      have h : 256 < F.envInfo.number.toNat := h
      have hle : (256 : U256).toNat ≤ F.envInfo.number.toNat := le_of_lt h
      rw [BitVec.toNat_sub_of_le hle, hnumber]
      rfl
    · rename_i h
      have h : ¬256 < F.envInfo.number.toNat := h
      rw [BitVec.sub_self]
      exact (Nat.sub_eq_zero_of_le (by omega)).symm
  have hcond : (n < F.envInfo.number ∧ n ≥ (if 256 < F.envInfo.number then F.envInfo.number else 256) - 256) ↔
      n.toNat ≤ T.number p ∧ T.number p < n.toNat + 256 := by
    rw [ge_iff_le, BitVec.lt_def, BitVec.le_def, hmax, hnumber]
    omega
  rw [ExtFields.blockHash]
  by_cases h : n.toNat ≤ T.number p ∧ T.number p < n.toNat + 256
  · have hone : (1 : U256).toNat ≤ F.envInfo.number.toNat := by
      rw [hnumber]
      exact Nat.le_add_left _ _
    have hindex : (F.envInfo.number - 1 - n).toNat % 2 ^ 32 = T.number p - n.toNat := by
      have hpred : (F.envInfo.number - 1).toNat = T.number p := by
        rw [BitVec.toNat_sub_of_le hone, hnumber]
        rfl
      have hle : n.toNat ≤ (F.envInfo.number - 1).toNat := by
        rw [hpred]
        exact h.1
      rw [BitVec.toNat_sub_of_le hle, hpred, Nat.mod_eq_of_lt (by omega)]
    rw [if_pos (hcond.mpr h), if_pos h, hindex, hashes, hashes_get (by omega)]
  · rw [if_neg fun hc => h (hcond.mp hc), if_neg h]

/-- The memo is not the answer for a block that it ends with. -/
theorem not_answers {P : ChainParams} {T : BlockTree P} {x : MemoChain} (hx : x.Right T) {p : H256} (hp : BlockChain.Stored P x.chain p)
    (hlast : x.m_lastLastHashes.getLast? = some p) : ¬Answers T x p := by
  rintro ⟨l, hl, rfl, -⟩
  rw [lastHashes, if_pos hlast] at hl
  have heq : x.m_lastLastHashes = T.hashes p := Except.ok.inj hl
  rw [heq] at hlast
  exact getLast_hashes_ne hx.sound hp hlast

/-- After any imports and queries for known blocks, the last hashes before a block are right if and only if it is not the last of those
that were returned before, and that no import has made the chain forget. -/
theorem lastHashes_right {P : ChainParams} (T : BlockTree P) (hgenesis : P.genesisBlock.info.parentHash = nullHash) {x : MemoChain}
    (h : Reach (MemoChain.next P) (MemoChain.Allowed T) (MemoChain.new P) x) {p : H256} (hp : BlockChain.Stored P x.chain p) :
    Answers T x p ↔ x.m_lastLastHashes.getLast? ≠ some p := by
  have hx := MemoChain.right_of_reach hgenesis h
  constructor
  · exact fun hans hlast => not_answers hx hp hlast hans
  · intro hlast
    refine ⟨T.hashes p, ?_, rfl, fun F hnumber hashes => blockHash_hashes (hx.sound.numbers p hp) hnumber hashes⟩
    rw [lastHashes, if_neg hlast]
    exact hashesFrom_eq hx.sound hgenesis (by decide) hp

theorem lastHashes_right_sample :
    Answers tree ([.chain (imp first), .lastHashes (label 2)].foldl (MemoChain.next params) (MemoChain.new params)) (label 1) := by
  have hstored : BlockChain.Stored params (MemoChain.next params (MemoChain.new params) (.chain (imp first))).chain (label 2) := by
    decide +kernel
  have hreach : Reach (MemoChain.next params) (MemoChain.Allowed tree) (MemoChain.new params)
      ([.chain (imp first), .lastHashes (label 2)].foldl (MemoChain.next params) (MemoChain.new params)) :=
    Reach.start.foldl ⟨allowed_imp (by simp [blocks]), hstored, trivial⟩
  refine (lastHashes_right tree rfl hreach ?_).mpr ?_
  · exact .inl rfl
  · decide +kernel

namespace LineSample

/-- The block with a number, in a chain where the hash of a block is the number after its own. -/
def line (n : U256) : VerifiedBlockRef where
  info :=
    { parentHash := H256.ofU256 n, sha3Uncles := nullHash, author := 0, stateRoot := nullHash, transactionsRoot := nullHash
      receiptsRoot := nullHash, logBloom := 0, difficulty := 1, number := n, gasLimit := 0, gasUsed := 0, timestamp := n
      extraData := [], sealFields := [] }
  transactions := []
  uncles := []

def lineParams : ChainParams where
  hash bi := H256.ofU256 (bi.number + 1)
  sha3 t := H256.ofU256 t.nonce
  authorBloom _ := 0
  genesisBlock := line 0
  tieBreakingGas := false

theorem line_ne_null : lineParams.genesisHash ≠ nullHash := fun h => absurd (congrArg H256.toU256 h) (by
  change ¬(H256.ofU256 (0 + 1)).toU256 = (H256.ofU256 0).toU256
  rw [H256.toU256_ofU256, H256.toU256_ofU256]
  decide)

def lineTree : BlockTree lineParams where
  block h := if h = nullHash then line 0 else line (h.toU256 - 1)
  block_genesis := by
    rw [if_neg line_ne_null, ChainParams.genesisHash]
    change line ((H256.ofU256 (0 + 1)).toU256 - 1) = line 0
    rw [H256.toU256_ofU256]
    rfl
  genesis_number := rfl
  genesis_transactions := rfl
  genesis_uncles := rfl
  genesis_ne_null := line_ne_null
  genesis_first := iterate_null line_ne_null (fun h => if h = nullHash then line 0 else line (h.toU256 - 1)) rfl

/-- The hash of the block with a number. -/
def hashAt (n : Nat) : H256 := H256.ofU256 (BitVec.ofNat 256 (n + 1))

theorem hash_line (n : Nat) : lineParams.hash (line (BitVec.ofNat 256 n)).info = hashAt n := by
  rw [hashAt, BitVec.ofNat_add]
  rfl

/-- Different numbers have different hashes, and none the null hash. -/
theorem toNat_hashAt {n : Nat} (hn : n < 2 ^ 32) : (hashAt n).toU256.toNat = n + 1 := by
  rw [hashAt, H256.toU256_ofU256, BitVec.toNat_ofNat, Nat.mod_eq_of_lt (by omega)]

theorem hashAt_ne_null {n : Nat} (hn : n < 2 ^ 32) : hashAt n ≠ nullHash := by
  intro h
  have hnull := toNat_hashAt hn
  rw [h, nullHash, H256.toU256_ofU256] at hnull
  cases hnull

theorem hashAt_inj {n m : Nat} (hn : n < 2 ^ 32) (hm : m < 2 ^ 32) (h : hashAt n = hashAt m) : n = m := by
  have hnum := toNat_hashAt hn
  rw [h, toNat_hashAt hm] at hnum
  omega

theorem block_hashAt {n : Nat} (hn : n < 2 ^ 32) : lineTree.block (hashAt n) = line (BitVec.ofNat 256 n) := by
  have hsucc : BitVec.ofNat 256 (n + 1) - 1 = BitVec.ofNat 256 n := by
    rw [BitVec.ofNat_add]
    exact BitVec.add_sub_cancel _ _
  rw [lineTree]
  dsimp only
  rw [if_neg (hashAt_ne_null hn), hashAt, H256.toU256_ofU256, hsucc]

theorem number_hashAt {n : Nat} (hn : n < 2 ^ 32) : lineTree.number (hashAt n) = n := by
  rw [BlockTree.number, block_hashAt hn]
  change (BitVec.ofNat 256 n).toNat = n
  rw [BitVec.toNat_ofNat, Nat.mod_eq_of_lt (by omega)]

/-- The line goes down step by step. -/
theorem height_hashAt {n : Nat} (hn : n < 2 ^ 32) : lineTree.height (hashAt n) = n := by
  have hgenesis : lineParams.genesisHash = hashAt 0 := hash_line 0
  induction n with
  | zero => exact hgenesis ▸ lineTree.height_genesis
  | succ n ih =>
    have hparent : lineTree.parent (hashAt (n + 1)) = hashAt n := by
      rw [BlockTree.parent, block_hashAt hn]
      rfl
    have hne : hashAt (n + 1) ≠ lineParams.genesisHash := by
      rw [hgenesis]
      exact fun heq => absurd (hashAt_inj hn (by decide) heq) (Nat.succ_ne_zero n)
    rw [lineTree.height_eq hne (by rw [hparent, ih (by omega)]; exact hn), hparent, ih (by omega)]

theorem has_line {n : Nat} (hn : n < 2 ^ 32) : lineTree.Has (line (BitVec.ofNat 256 n)) := by
  rw [BlockTree.Has, hash_line]
  exact ⟨block_hashAt hn, hashAt_ne_null hn⟩

/-- The block on the last one of the line is accepted. -/
theorem accepted_line {c : BlockChain} {k : Nat} (hk : k < 256) (hstored : ∀ h, BlockChain.Stored lineParams c h ↔ ∃ i ≤ k, h = hashAt i) :
    Accepted lineTree c (line (BitVec.ofNat 256 (k + 1))) good true := by
  have hparent : (line (BitVec.ofNat 256 (k + 1))).info.parentHash = hashAt k := rfl
  have hsmall : k + 1 < 2 ^ 32 := by omega
  refine ⟨?_, ?_, ?_, ?_, fun _ => ⟨?_, ?_⟩, fun _ hs => ?_, rfl, rfl, rfl⟩
  · rw [hparent, hstored]
    exact ⟨k, le_refl k, rfl⟩
  · rw [hash_line, hparent, height_hashAt hsmall, height_hashAt (by omega)]
  · rw [hash_line, height_hashAt hsmall]
    exact hsmall
  · rw [hash_line, number_hashAt hsmall]
    exact hsmall
  · rw [hash_line, hparent, number_hashAt hsmall, number_hashAt (by omega)]
  · rw [hparent, block_hashAt (by omega), BitVec.lt_def]
    change (BitVec.ofNat 256 k).toNat < (BitVec.ofNat 256 (k + 1)).toNat
    rw [BitVec.toNat_ofNat, BitVec.toNat_ofNat, Nat.mod_eq_of_lt (by omega), Nat.mod_eq_of_lt (by omega)]
    exact Nat.lt_succ_self k
  · rw [hash_line, hstored] at hs
    obtain ⟨i, hi, heq⟩ := hs
    have := hashAt_inj hsmall (by omega) heq
    omega

/-- The blocks of the line are imported one after the other. -/
theorem exists_line {k : Nat} (hk : k ≤ 255) :
    ∃ x, Reach (MemoChain.next lineParams) (MemoChain.Allowed lineTree) (MemoChain.new lineParams) x ∧
      x.m_lastLastHashes = [] ∧ ∀ h, BlockChain.Stored lineParams x.chain h ↔ ∃ i ≤ k, h = hashAt i := by
  induction k with
  | zero =>
    refine ⟨_, .start, rfl, fun h => ?_⟩
    have hgenesis : lineParams.genesisHash = hashAt 0 := hash_line 0
    rw [BlockChain.Stored, hgenesis]
    simp [MemoChain.new, BlockChain.new]
  | succ k ih =>
    obtain ⟨x, hreach, hmemo, hstored⟩ := ih (by omega)
    have hx := MemoChain.right_of_reach rfl hreach
    have hhas := has_line (n := k + 1) (by omega)
    have hacc := accepted_line (by omega) hstored
    have hrun : Runs (BlockChain.import lineParams (line (BitVec.ofNat 256 (k + 1))) good true) x.chain
        (fun _ c' => Imported lineTree x.chain (line (BitVec.ofNat 256 (k + 1))) c') fun _ _ => False :=
      (import_runs hx.sound hhas good true).mono (fun _ _ h => h.2.1) fun _ _ h => h.2.2 hacc
    obtain ⟨r, c', hok, himp⟩ := hrun.exists_ok
    have hnext : next lineParams x.chain (imp (line (BitVec.ofNat 256 (k + 1)))) = c' := by
      rw [next, imp, ChainOp.run]
      simp only [bind, EStateM.bind, hok]
      rfl
    have hallowed : MemoChain.Allowed lineTree x (.chain (imp (line (BitVec.ofNat 256 (k + 1))))) := hhas
    refine ⟨_, hreach.step _ hallowed, ?_, fun h => ?_⟩
    · rw [MemoChain.next, hmemo]
      exact ite_self _
    rw [MemoChain.next]
    dsimp only
    rw [hnext, himp.stored, hash_line]
    dsimp only
    rw [hstored]
    constructor
    · rintro (rfl | ⟨i, hi, rfl⟩)
      · exact ⟨k + 1, le_refl _, rfl⟩
      · exact ⟨i, by omega, rfl⟩
    · rintro ⟨i, hi, rfl⟩
      rcases Nat.lt_or_ge k i with hlt | hle
      · exact .inl (by rw [show i = k + 1 by omega])
      · exact .inr ⟨i, hle, rfl⟩

end LineSample

open LineSample

/-- The hashes of the block with the number 255 end with the genesis block, which gets them too. -/
theorem lastHashes_stale :
    ¬∀ x, Reach (MemoChain.next lineParams) (MemoChain.Allowed lineTree) (MemoChain.new lineParams) x →
      ∀ p, BlockChain.Stored lineParams x.chain p → Answers lineTree x p := by
  intro h
  obtain ⟨x, hreach, hmemo, hstored⟩ := exists_line (k := 255) (le_refl _)
  have hx := MemoChain.right_of_reach rfl hreach
  have hfirst : BlockChain.Stored lineParams x.chain (hashAt 0) := (hstored _).mpr ⟨0, by decide, rfl⟩
  have hlast : BlockChain.Stored lineParams x.chain (hashAt 255) := (hstored _).mpr ⟨255, by decide, rfl⟩
  have hallowed : MemoChain.Allowed lineTree x (.lastHashes (hashAt 255)) := hlast
  have hreach' := hreach.step _ hallowed
  refine not_answers (MemoChain.right_of_reach rfl hreach') hfirst ?_ (h _ hreach' _ hfirst)
  have hremember : (x.next lineParams (.lastHashes (hashAt 255))).m_lastLastHashes = lineTree.hashes (hashAt 255) :=
    MemoChain.remember_eq hx.sound rfl hlast (by simp [hmemo])
  have hroot : lineTree.ancestor (hashAt 255) 0 = hashAt 0 :=
    (hx.sound.rooted.ancestorAt_zero hlast).trans (hash_line 0)
  rw [hremember, List.getLast?_eq_getElem?, length_hashes, hashes_get (by decide), BlockTree.above, height_hashAt (by decide), if_pos (le_refl _),
    Nat.sub_self, hroot]

end Webthree
