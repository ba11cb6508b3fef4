import Webthree.Chain.LastHashes
import Webthree.Lemmas.ChainStep

/-!
# The last hashes

The memo of `lastHashes` is always empty or the answer for some block that is stored.
-/

namespace Webthree

open BlockChain

/-- The hashes of a block and its ancestors, 256 in all, with null hashes beyond the genesis block. -/
def BlockTree.hashes {P : ChainParams} (T : BlockTree P) (h : H256) : LastHashes := (T.chain h ++ List.replicate 256 nullHash).take 256

/-- The block so many steps up, or the null hash if that is beyond the genesis block. -/
def BlockTree.above {P : ChainParams} (T : BlockTree P) (h : H256) (i : Nat) : H256 :=
  if i ≤ T.height h then T.ancestor h (T.height h - i) else nullHash

variable {P : ChainParams} {T : BlockTree P}

/-! ## The loop -/

theorem take_replicate {α : Type} {x : α} {n m : Nat} (h : n ≤ m) : (List.replicate m x).take n = List.replicate n x := by
  rw [List.take_replicate, Nat.min_eq_left h]

theorem hashesFrom_null (c : BlockChain) (n : Nat) : c.hashesFrom P n nullHash = .ok (List.replicate (n + 1) nullHash) := by
  induction n with
  | zero => rfl
  | succ n ih =>
    rw [hashesFrom, if_pos rfl, pure_bind]
    exact congrArg (fun e => e >>= fun l => Except.ok (nullHash :: l)) ih

/-- The loop writes the hashes of a stored block and its ancestors. -/
theorem hashesFrom_eq {c : BlockChain} (hc : Sound T c) (hgenesis : P.genesisBlock.info.parentHash = nullHash) {n m : Nat} (hm : n ≤ m)
    {h : H256} (hs : BlockChain.Stored P c h) :
    c.hashesFrom P n h = .ok ((T.chain h ++ List.replicate m nullHash).take (n + 1)) := by
  induction n generalizing h with
  | zero =>
    obtain ⟨t, ht⟩ := @IsTree.exists_lineage_eq _ T.parent T.height h
    rw [BlockTree.chain, ht]
    rfl
  | succ n ih =>
    have hinfo : BlockChain.info P c h = .ok (T.block h).info := by
      rw [BlockChain.info, hc.block_eq hs]
      rfl
    have hparent : (do return (← BlockChain.info P c h).parentHash : Except BlockError H256) = .ok (T.parent h) := by
      rw [hinfo]
      rfl
    rw [hashesFrom, if_neg (hc.ne_null hs), hparent]
    by_cases hg : h = P.genesisHash
    · have hnull : T.parent h = nullHash := by rw [BlockTree.parent, hg, T.block_genesis, hgenesis]
      have hchain : T.chain h = [h] := by rw [hg, BlockTree.chain, hc.rooted.lineage_root]
      have hnext := hashesFrom_null (P := P) c n
      rw [← hnull] at hnext
      rw [hchain, List.singleton_append, List.take_succ_cons, take_replicate hm, ← hnull]
      exact congrArg (fun e => e >>= fun l => Except.ok (h :: l)) hnext
    · have hchain : T.chain h = h :: T.chain (T.parent h) := hc.rooted.lineage_cons hs hg
      rw [hchain, List.cons_append, List.take_succ_cons]
      exact congrArg (fun e => e >>= fun l => Except.ok (h :: l)) (ih (Nat.le_of_succ_le hm) (hc.rooted.parent_mem h hs hg))

/-- If the loop comes to its end, all of the memo is written. -/
theorem written_of_hashesFrom {c : BlockChain} {n : Nat} {h : H256} {l : LastHashes} (hl : c.hashesFrom P n h = .ok l) :
    MemoChain.written P c n h = l ∧ l.length = n + 1 := by
  induction n generalizing h l with
  | zero =>
    cases hl
    exact ⟨rfl, rfl⟩
  | succ n ih =>
    have hstep : ∀ {parent l}, (do return h :: (← c.hashesFrom P n parent) : Except BlockError LastHashes) = .ok l →
        ∃ l', l = h :: l' ∧ c.hashesFrom P n parent = .ok l' := by
      intro parent l hl
      cases hnext : c.hashesFrom P n parent with
      | error e =>
        rw [hnext] at hl
        cases hl
      | ok l' =>
        rw [hnext] at hl
        cases hl
        exact ⟨l', rfl, rfl⟩
    rw [hashesFrom] at hl
    rw [MemoChain.written]
    by_cases hnull : h = nullHash
    · rw [if_pos hnull, pure_bind] at hl
      obtain ⟨l', rfl, hl'⟩ := hstep hl
      obtain ⟨heq, hlen⟩ := ih hl'
      rw [if_pos hnull, heq, List.length_cons, hlen]
      exact ⟨rfl, rfl⟩
    · rw [if_neg hnull] at hl
      rw [if_neg hnull]
      cases hinfo : BlockChain.info P c h with
      | error e =>
        rw [hinfo] at hl
        cases hl
      | ok i =>
        rw [hinfo] at hl
        obtain ⟨l', rfl, hl'⟩ := hstep hl
        obtain ⟨heq, hlen⟩ := ih hl'
        dsimp only
        rw [heq, List.length_cons, hlen]
        exact ⟨rfl, rfl⟩

/-! ## Hashes -/

theorem length_hashes (h : H256) : (T.hashes h).length = 256 := by
  rw [BlockTree.hashes, List.length_take, List.length_append, List.length_replicate]
  omega

/-- The hash at a place is that of the block so many steps up. -/
theorem hashes_get {h : H256} {i : Nat} (hi : i < 256) : (T.hashes h)[i]? = some (T.above h i) := by
  rw [BlockTree.hashes, List.getElem?_take_of_lt hi, BlockTree.above]
  have hlen : (T.chain h).length = T.height h + 1 := by rw [BlockTree.chain, lineage, List.length_map, List.length_range]
  by_cases hle : i ≤ T.height h
  · rw [if_pos hle, List.getElem?_append_left (by omega), BlockTree.chain, lineage, List.getElem?_map,
      List.getElem?_range (Nat.lt_succ_of_le hle), BlockTree.ancestor, ancestorAt, Nat.sub_sub_self hle]
    rfl
  · rw [if_neg hle, List.getElem?_append_right (by omega), List.getElem?_replicate, if_pos (by omega)]

/-- A block is not the last of its hashes. -/
theorem getLast_hashes_ne {c : BlockChain} (hc : Sound T c) {h : H256} (hs : BlockChain.Stored P c h) : (T.hashes h).getLast? ≠ some h := by
  rw [List.getLast?_eq_getElem?, length_hashes, hashes_get (by decide), BlockTree.above]
  intro heq
  have heq := Option.some.inj heq
  by_cases hle : 255 ≤ T.height h
  · rw [if_pos hle] at heq
    have hheight := hc.rooted.height_ancestorAt hs (Nat.sub_le (T.height h) 255)
    rw [BlockTree.ancestor] at heq
    rw [heq] at hheight
    omega
  · rw [if_neg hle] at heq
    exact hc.ne_null hs heq.symm

/-! ## Runs -/

namespace MemoChain

/-- The blocks that are asked for are known. -/
def Allowed (T : BlockTree P) (x : MemoChain) : MemoOp → Prop
  | .chain op => op.Allowed T
  | .lastHashes parent => BlockChain.Stored P x.chain parent

/-- The memo is empty, or the answer for a stored block. -/
structure Right (T : BlockTree P) (x : MemoChain) : Prop where
  sound : Sound T x.chain
  memo : x.m_lastLastHashes = [] ∨ ∃ h, BlockChain.Stored P x.chain h ∧ x.m_lastLastHashes = T.hashes h

/-- A query that is not answered from the memo leaves its answer there. -/
theorem remember_eq {c : BlockChain} (hc : Sound T c) (hgenesis : P.genesisBlock.info.parentHash = nullHash) {memo : LastHashes}
    {parent : H256} (hs : BlockChain.Stored P c parent) (hlast : memo.getLast? ≠ some parent) : remember P c memo parent = T.hashes parent := by
  obtain ⟨heq, hlen⟩ := written_of_hashesFrom (hashesFrom_eq hc hgenesis (by decide : 255 ≤ 256) hs)
  rw [remember, if_neg hlast]
  dsimp only
  rw [heq, hlen, List.drop_eq_nil_of_le (List.length_take_le _ _), List.append_nil, BlockTree.hashes]

theorem right_new : Right T (new P) := ⟨sound_new, .inl rfl⟩

/-- A known block stays known. -/
theorem stored_next {c : BlockChain} (hc : Sound T c) {op : ChainOp} (hop : op.Allowed T) {h : H256} (hs : BlockChain.Stored P c h) :
    BlockChain.Stored P (op.next P c) h := by
  rcases ChainOp.next_cases hc hop with ⟨b, o, mustBeNew, r, -, -, -, -, himp, -⟩ | ⟨hq, -⟩
  · rw [himp.stored]
    exact .inr hs
  · rw [BlockChain.Stored, hq.blocksDB]
    exact hs

theorem Right.next {x : MemoChain} (hx : Right T x) (hgenesis : P.genesisBlock.info.parentHash = nullHash) {op : MemoOp}
    (hop : Allowed T x op) : Right T (x.next P op) := by
  cases op with
  | chain op =>
    refine ⟨ChainOp.next_sound hx.sound hop, ?_⟩
    rw [MemoChain.next]
    by_cases hchanged : canonChanged P x.chain op = true
    · rw [if_pos hchanged]
      exact .inl rfl
    · rw [if_neg hchanged]
      rcases hx.memo with hnil | ⟨h, hs, heq⟩
      · exact .inl hnil
      · exact .inr ⟨h, stored_next hx.sound hop hs, heq⟩
  | lastHashes parent =>
    refine ⟨hx.sound, ?_⟩
    by_cases hlast : x.m_lastLastHashes.getLast? = some parent
    · rw [MemoChain.next, remember, if_pos hlast]
      exact hx.memo
    · exact .inr ⟨parent, hop, remember_eq hx.sound hgenesis hop hlast⟩

theorem right_of_reach (hgenesis : P.genesisBlock.info.parentHash = nullHash) {x : MemoChain}
    (h : Reach (next P) (Allowed T) (new P) x) : Right T x :=
  h.invariant right_new fun _ _ hx hop => hx.next hgenesis hop

end MemoChain

end Webthree
