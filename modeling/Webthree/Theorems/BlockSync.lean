import Webthree.Chain.BlockSync
import Webthree.Theorems.Block
import Webthree.Theorems.TransactionQueue

/-!
# Filling a block from the queue

When the passes over the transactions of the queue come to an end by themselves: only if the first pass executes all of them. A
pass counts the transactions that it executes itself, and the loop goes on until that is as many as there are.
-/

namespace Webthree

namespace Syncing

variable {σ τ : Type} {O : SyncOps σ τ} {lh : LastHashes}

/-- The transactions can all be executed, each on the block that those before it leave, and each at the price that is asked then. -/
def Executable (O : SyncOps σ τ) (lh : LastHashes) : List SignedTransaction → Block σ → List H256 → Prop
  | [], _, _ => True
  | t :: ts, b, set =>
    t.sha3 ∉ set ∧ O.ask b ≤ t.gasPrice ∧
      ∃ r b', Block.execute O.state lh (O.transaction t) .Committed b = .ok r b' ∧ Executable O lh ts b' (t.sha3 :: set)

/-- The loop ends with the deadline never over: with some number of passes, of which each but the last has executed a transaction. -/
def Finishes (O : SyncOps σ τ) (lh : LastHashes) (ts : List SignedTransaction) (s : Syncing σ τ) : Prop :=
  ∃ n r, loop O lh ts (fun _ => false) n 0 s = none ∧ loop O lh ts (fun _ => false) (n + 1) 0 s = some r ∧
    ∀ i, 1 ≤ i → i < n → ((pass O lh ts)^[i] s).goodTxs ≠ 0

/-! ## One pass -/

theorem handle_eq (t : SignedTransaction) (e : BlockError) (s : Syncing σ τ) :
    (handle O t e s).block = s.block ∧ (handle O t e s).m_transactionSet = s.m_transactionSet ∧ (handle O t e s).goodTxs = s.goodTxs := by
  unfold handle
  split
  · dsimp only
    split
    · exact ⟨rfl, rfl, rfl⟩
    · split <;> exact ⟨rfl, rfl, rfl⟩
  · split <;> exact ⟨rfl, rfl, rfl⟩
  · exact ⟨rfl, rfl, rfl⟩

variable (O lh) in
/-- What is done for a transaction: it is executed and counted, or not counted. -/
theorem attempt_cases (s : Syncing σ τ) (t : SignedTransaction) :
    (t.sha3 ∉ s.m_transactionSet ∧ O.ask s.block ≤ t.gasPrice ∧
      ∃ r b, Block.execute O.state lh (O.transaction t) .Committed s.block = .ok r b ∧ (attempt O lh s t).block = b ∧
        (attempt O lh s t).m_transactionSet = t.sha3 :: s.m_transactionSet ∧ (attempt O lh s t).goodTxs = s.goodTxs + 1) ∨
    (¬(t.sha3 ∉ s.m_transactionSet ∧ O.ask s.block ≤ t.gasPrice ∧
        ∃ r b, Block.execute O.state lh (O.transaction t) .Committed s.block = .ok r b) ∧
      (attempt O lh s t).m_transactionSet = s.m_transactionSet ∧ (attempt O lh s t).goodTxs = s.goodTxs) := by
  rw [attempt]
  by_cases hset : t.sha3 ∈ s.m_transactionSet
  · rw [if_pos hset]
    exact .inr ⟨fun h => h.1 hset, rfl, rfl⟩
  · rw [if_neg hset]
    by_cases hprice : t.gasPrice ≥ O.ask s.block
    · rw [if_pos hprice]
      cases hrun : Block.execute O.state lh (O.transaction t) .Committed s.block with
      | ok r b => exact .inl ⟨hset, hprice, r, b, rfl, rfl, rfl, rfl⟩
      | error e b =>
        obtain ⟨-, hs, hg⟩ := handle_eq (O := O) t e { s with block := b }
        refine .inr ⟨?_, hs, hg⟩
        rintro ⟨-, -, r, b', hok⟩
        cases hok
    · rw [if_neg hprice]
      refine .inr ⟨fun h => hprice h.2.1, ?_⟩
      split <;> exact ⟨rfl, rfl⟩

theorem subset_attempt (s : Syncing σ τ) (t : SignedTransaction) : s.m_transactionSet ⊆ (attempt O lh s t).m_transactionSet := by
  rcases attempt_cases O lh s t with ⟨-, -, -, -, -, -, hset, -⟩ | ⟨-, hset, -⟩
  · rw [hset]
    exact List.subset_cons_self _ _
  · rw [hset]
    exact List.Subset.refl _

theorem subset_pass (ts : List SignedTransaction) (s : Syncing σ τ) :
    s.m_transactionSet ⊆ (ts.foldl (attempt O lh) s).m_transactionSet := by
  induction ts generalizing s with
  | nil => exact List.Subset.refl _
  | cons t ts ih => exact List.Subset.trans (subset_attempt s t) (ih _)

variable (O lh) in
/-- No more transactions are counted than there are, and all of them only if all can be executed. -/
theorem goodTxs_foldl (ts : List SignedTransaction) (s : Syncing σ τ) :
    (ts.foldl (attempt O lh) s).goodTxs ≤ s.goodTxs + ts.length ∧
      ((ts.foldl (attempt O lh) s).goodTxs = s.goodTxs + ts.length ↔ Executable O lh ts s.block s.m_transactionSet) := by
  induction ts generalizing s with
  | nil => exact ⟨le_refl _, fun _ => trivial, fun _ => rfl⟩
  | cons t ts ih =>
    obtain ⟨hle, hiff⟩ := ih (attempt O lh s t)
    rw [List.foldl_cons, List.length_cons]
    rcases attempt_cases O lh s t with ⟨hset, hprice, r, b, hrun, hblock, hset', hgood⟩ | ⟨hnot, hset', hgood⟩
    · rw [hblock, hset'] at hiff
      rw [hgood] at hle hiff
      refine ⟨by omega, ?_⟩
      rw [Nat.add_assoc, Nat.add_comm 1, ← Nat.add_assoc] at hiff
      rw [← Nat.add_assoc, hiff]
      constructor
      · exact fun h => ⟨hset, hprice, r, b, hrun, h⟩
      · rintro ⟨-, -, r', b', hrun', h⟩
        rw [hrun] at hrun'
        cases hrun'
        exact h
    · rw [hgood] at hle
      refine ⟨by omega, fun heq => ?_, ?_⟩
      · omega
      · rintro ⟨h, h', r, b, hrun, -⟩
        exact absurd ⟨h, h', r, b, hrun⟩ hnot

variable (O lh) in
/-- A transaction that is counted is in the set afterwards. -/
theorem exists_mem_of_goodTxs (ts : List SignedTransaction) (s : Syncing σ τ) :
    (ts.foldl (attempt O lh) s).goodTxs = s.goodTxs ∨ ∃ t ∈ ts, t.sha3 ∈ (ts.foldl (attempt O lh) s).m_transactionSet := by
  induction ts generalizing s with
  | nil => exact .inl rfl
  | cons t ts ih =>
    rw [List.foldl_cons]
    rcases attempt_cases O lh s t with ⟨-, -, -, -, -, -, hset, -⟩ | ⟨-, -, hgood⟩
    · refine .inr ⟨t, List.mem_cons_self, subset_pass ts _ ?_⟩
      rw [hset]
      exact List.mem_cons_self
    · rcases ih (attempt O lh s t) with heq | ⟨t', ht', hmem⟩
      · exact .inl (heq.trans hgood)
      · exact .inr ⟨t', List.mem_cons_of_mem _ ht', hmem⟩

theorem not_mem_of_executable {ts : List SignedTransaction} {b : Block σ} {set : List H256} (h : Executable O lh ts b set) :
    ∀ t ∈ ts, t.sha3 ∉ set := by
  induction ts generalizing b set with
  | nil => exact fun t ht => absurd ht List.not_mem_nil
  | cons t ts ih =>
    obtain ⟨hset, -, r, b', -, h⟩ := h
    intro t' ht'
    rcases List.mem_cons.mp ht' with rfl | ht'
    · exact hset
    · exact fun hmem => ih h t' ht' (List.mem_cons_of_mem _ hmem)

/-! ## The loop -/

/-- The loop without a deadline: as long as a pass has not executed all transactions, there is another one. -/
theorem loop_spec (ts : List SignedTransaction) (n i : Nat) (s : Syncing σ τ) :
    (loop O lh ts (fun _ => false) n i s = none ↔ ∀ j < n, ((pass O lh ts)^[j] s).goodTxs < ts.length) ∧
      (loop O lh ts (fun _ => false) n i s = none → ∀ r, loop O lh ts (fun _ => false) (n + 1) i s = some r →
        ¬((pass O lh ts)^[n] s).goodTxs < ts.length) := by
  induction n generalizing i s with
  | zero =>
    refine ⟨⟨fun _ j hj => absurd hj (Nat.not_lt_zero j), fun _ => rfl⟩, fun _ r hr hlt => ?_⟩
    have hlt : s.goodTxs < ts.length := hlt
    rw [loop, if_pos hlt] at hr
    cases hr
  | succ n ih =>
    by_cases hlt : s.goodTxs < ts.length
    · obtain ⟨hnone, hsome⟩ := ih (i + 1) (pass O lh ts s)
      have hstep : ∀ k, loop O lh ts (fun _ => false) (k + 1) i s = loop O lh ts (fun _ => false) k (i + 1) (pass O lh ts s) := fun k => by
        rw [loop, if_pos hlt]
        rfl
      rw [hstep, hstep]
      refine ⟨hnone.trans ⟨fun h j hj => ?_, fun h j hj => ?_⟩, hsome⟩
      · cases j with
        | zero => exact hlt
        | succ j => exact h j (Nat.lt_of_succ_lt_succ hj)
      · exact h (j + 1) (Nat.succ_lt_succ hj)
    · have hstop : ∀ k, loop O lh ts (fun _ => false) (k + 1) i s = some s := fun k => by rw [loop, if_neg hlt]
      rw [hstop]
      exact ⟨⟨fun h => (by cases h), fun h => absurd (h 0 (Nat.succ_pos n)) hlt⟩, fun h => (by cases h)⟩

theorem pass_goodTxs (ts : List SignedTransaction) (s : Syncing σ τ) :
    (pass O lh ts s).goodTxs = ts.length ↔ Executable O lh ts s.block s.m_transactionSet := by
  have h := (goodTxs_foldl O lh ts { s with goodTxs := 0 }).2
  rwa [Nat.zero_add] at h

variable (O lh) in
theorem pass_goodTxs_le (ts : List SignedTransaction) (s : Syncing σ τ) : (pass O lh ts s).goodTxs ≤ ts.length := by
  have h := (goodTxs_foldl O lh ts { s with goodTxs := 0 }).1
  rwa [Nat.zero_add] at h

/-- A transaction that has once been executed is in the set after every later pass. -/
theorem mem_iterate {ts : List SignedTransaction} {s : Syncing σ τ} {h : H256} (hmem : h ∈ s.m_transactionSet) (n : Nat) :
    h ∈ ((pass O lh ts)^[n] s).m_transactionSet := by
  induction n with
  | zero => exact hmem
  | succ n ih =>
    rw [Function.iterate_succ_apply']
    exact subset_pass ts { (pass O lh ts)^[n] s with goodTxs := 0 } ih

/-- If the first pass does not execute all transactions, it executes some and no later one executes all, or it executes none. -/
theorem executable_of_finishes {ts : List SignedTransaction} {s : Syncing σ τ} (h : Finishes O lh ts s)
    (hs : s.goodTxs = ts.length - 1) : Executable O lh ts s.block s.m_transactionSet := by
  obtain ⟨n, r, hnone, hsome, hprogress⟩ := h
  have hend := (loop_spec ts n 0 s).2 hnone r hsome
  cases n with
  | zero =>
    have hnil : ts = [] := by
      rw [Function.iterate_zero, id_eq, hs] at hend
      cases ts with
      | nil => rfl
      | cons t ts => exact absurd (Nat.lt_succ_self _) hend
    rw [hnil]
    trivial
  | succ n =>
    rw [← pass_goodTxs]
    by_contra hne
    cases n with
    | zero =>
      have hle := pass_goodTxs_le O lh ts s
      exact hne (Nat.le_antisymm hle (Nat.le_of_not_lt hend))
    | succ n =>
      have hsome' : ((pass O lh ts s)).goodTxs ≠ 0 := hprogress 1 (le_refl 1) (by omega)
      rcases exists_mem_of_goodTxs O lh ts { s with goodTxs := 0 } with hzero | ⟨t, ht, hmem⟩
      · exact hsome' hzero
      · -- the transaction is passed over in the last pass
        have hlast : ¬Executable O lh ts ((pass O lh ts)^[n + 1] s).block ((pass O lh ts)^[n + 1] s).m_transactionSet := fun h =>
          not_mem_of_executable h t ht (by
            rw [Function.iterate_succ_apply]
            exact mem_iterate hmem n)
        rw [Function.iterate_succ_apply'] at hend
        have hle := pass_goodTxs_le O lh ts ((pass O lh ts)^[n + 1] s)
        exact hlast (pass_goodTxs ts _ |>.mp (Nat.le_antisymm hle (Nat.le_of_not_lt hend)))

theorem finishes_of_executable {ts : List SignedTransaction} {s : Syncing σ τ} (hs : s.goodTxs = ts.length - 1)
    (h : Executable O lh ts s.block s.m_transactionSet) : Finishes O lh ts s := by
  cases ts with
  | nil =>
    refine ⟨0, s, rfl, ?_, fun i h1 h0 => absurd h0 (Nat.not_lt_zero i)⟩
    rw [loop]
    exact if_neg (Nat.not_lt_zero _)
  | cons t ts =>
    have hlt : s.goodTxs < (t :: ts).length := by
      rw [hs]
      exact Nat.lt_succ_self _
    have hall := (pass_goodTxs (t :: ts) s).mpr h
    refine ⟨1, pass O lh (t :: ts) s, ?_, ?_, fun i h1 h0 => absurd h0 (Nat.not_lt.mpr h1)⟩
    · rw [loop, if_pos hlt]
      rfl
    · rw [loop, if_pos hlt]
      change loop O lh (t :: ts) (fun _ => false) 1 1 (pass O lh (t :: ts) s) = _
      rw [loop, if_neg (by rw [hall]; exact Nat.lt_irrefl _)]

end Syncing

open Syncing

/-- `sync` throws before its loop, or it returns with the deadline never over: after some number of passes, of which each but the last has
executed a transaction. -/
def SyncFinishes {σ τ : Type} (O : SyncOps σ τ) (lh : LastHashes) (b : Block σ) (set : List H256) (tq : τ) : Prop :=
  (∀ late turns, sync O lh late turns b set tq = .error .InvalidOperationOnSealedBlock) ∨
    ∃ n r, sync O lh (fun _ => false) n b set tq = .ok none ∧ sync O lh (fun _ => false) (n + 1) b set tq = .ok (some r) ∧
      ∀ i, 1 ≤ i → i < n →
        ((pass O lh (O.topTransactions tq c_maxSyncTransactions fun h => h ∈ set))^[i] (start O b set tq)).goodTxs ≠ 0

/-- On a block that is not sealed `sync` finishes exactly if its loop does. -/
theorem syncFinishes_iff {σ τ : Type} {O : SyncOps σ τ} {lh : LastHashes} {b : Block σ} {set : List H256} {tq : τ}
    (hb : b.isSealed = false) : SyncFinishes O lh b set tq ↔
      Finishes O lh (O.topTransactions tq c_maxSyncTransactions fun h => h ∈ set) (start O b set tq) := by
  have hsync : ∀ late turns, sync O lh late turns b set tq =
      .ok (loop O lh (O.topTransactions tq c_maxSyncTransactions fun h => h ∈ set) late turns 0 (start O b set tq)) := by
    intro late turns
    rw [sync, hb]
    rfl
  constructor
  · rintro (hthrow | ⟨n, r, hnone, hsome, hprogress⟩)
    · have h := hthrow (fun _ => false) 0
      rw [hsync] at h
      cases h
    · rw [hsync] at hnone hsome
      exact ⟨n, r, Except.ok.inj hnone, Except.ok.inj hsome, hprogress⟩
  · rintro ⟨n, r, hnone, hsome, hprogress⟩
    exact .inr ⟨n, r, by rw [hsync, hnone], by rw [hsync, hsome], hprogress⟩

/-- `sync` throws on a sealed block, and on any other one its passes come to an end without the deadline if and only if the first pass can
execute all transactions. -/
theorem sync_finishes {σ τ : Type} (O : SyncOps σ τ) (lh : LastHashes) (b : Block σ) (set : List H256) (tq : τ) :
    SyncFinishes O lh b set tq ↔
      b.isSealed = true ∨ Executable O lh (O.topTransactions tq c_maxSyncTransactions fun h => h ∈ set) b set := by
  cases hb : b.isSealed with
  | true =>
    refine ⟨fun _ => .inl rfl, fun _ => .inl fun late turns => ?_⟩
    rw [sync, hb]
    rfl
  | false =>
    rw [syncFinishes_iff hb]
    constructor
    · exact fun h => .inr (executable_of_finishes h rfl)
    · rintro (h | h)
      · cases h
      · exact finishes_of_executable rfl h

namespace SyncSample

open QueueSample SealSample

/-- The gas price that is asked is 10. -/
def syncOps : SyncOps State TransactionQueue :=
  .ofQueue library ops (fun a s => ((s.m_state a).map fun x => x.nonce).getD 0)
    (fun t =>
      { isCreation := false, sender := t.from, nonce := t.nonce, value := 0, receiveAddress := 2, gasPrice := t.gasPrice, gas := 21000
        data := [] })
    fun _ => 10

/-- A queue with a transaction whose gas price is 9. -/
def cheap : TransactionQueue := endState (QueueOp.runAll library [.import (transaction 1 0 9 1) .Ignore] (TransactionQueue.new 10 10))

end SyncSample

open SyncSample

/-- A transaction at nine tenths of the price is not executed and not dropped, and the passes over it never end. -/
theorem sync_not_finishes : ¬SyncFinishes syncOps [] SealSample.start [] cheap := by
  intro h
  rw [syncFinishes_iff rfl] at h
  have htop : syncOps.topTransactions cheap c_maxSyncTransactions (fun h => h ∈ ([] : List H256)) = [QueueSample.transaction 1 0 9 1] := by
    decide +kernel
  have hall := executable_of_finishes h rfl
  rw [htop] at hall
  exact absurd hall.2.1 (by decide)

end Webthree
