import Webthree.Lemmas.QueueDrop

/-!
# The transaction queue

The containers of the queue agree after any operations, as long as every transaction given to `import` has a valid signature. Two
more promises hold on fewer runs: `m_known` keeps the hashes of some transactions that have left, and the order of `m_current`
is one by keys that change under it. A transaction that is dropped while it is a future one is not dropped.
-/

namespace Webthree

open TransactionQueue

namespace QueueSample

/-- A queue that is not given byte strings; with up to three transactions no tree has to be balanced. -/
def library : Library where
  sha3 _ := H256.ofU256 0
  read _ := none
  balance := .plain VerifiedTransaction
  «begin» _ := 0

/-- A transaction of the sender `a`. -/
def transaction (a : Address) (nonce gasPrice : U256) (hash : U256) : SignedTransaction :=
  { recovered := some a, nonce := nonce, gasPrice := gasPrice, sha3 := H256.ofU256 hash }

/-- A transaction whose signature is not valid. -/
def unsigned (nonce : U256) (hash : U256) : SignedTransaction :=
  { recovered := none, nonce := nonce, gasPrice := 1, sha3 := H256.ofU256 hash }

end QueueSample

open QueueSample

/-! ## The indices -/

/-- After any operations the containers agree: the indices hold exactly the current transactions, no two transactions share sender
and nonce, the number of future transactions is right, and no map is empty. -/
theorem queue_consistent (L : Library) (limit futureLimit : Nat) (ops : List QueueOp) (hops : ∀ op ∈ ops, op.Recoverable) :
    Runs (QueueOp.runAll L ops) (new limit futureLimit) (fun _ q => Consistent q) fun e _ => e = .assertionFailed :=
  (QueueOp.runAll_inv (inv_of_empty rfl rfl rfl rfl rfl) hops).mono (fun _ _ h => h.1.toConsistent) fun _ _ h => h

theorem queue_consistent_sample :
    Runs (QueueOp.runAll library [.import (transaction 1 0 5 1) .Ignore, .import (transaction 1 1 5 2) .Ignore,
      .setFuture (H256.ofU256 2), .import (transaction 1 0 6 3) .Ignore]) (new 10 10) (fun _ q => Consistent q)
      fun e _ => e = .assertionFailed := by
  refine queue_consistent library 10 10 _ ?_
  simp [QueueOp.Recoverable, transaction]

/-- The operations after which the index has an iterator that is not set. -/
def unsignedRun : List QueueOp := [.import (transaction 1 0 5 1) .Ignore, .import (QueueSample.unsigned 7 2) .Ignore]

/-- A transaction whose sender cannot be recovered is put into the index, then the order throws, and the entry stays. -/
theorem queue_not_consistent :
    ¬Runs (QueueOp.runAll library unsignedRun) (new 10 10) (fun _ q => Consistent q) fun e _ => e = .assertionFailed := by
  have hend : ∃ q, QueueOp.runAll library unsignedRun (new 10 10) = .ok () q ∧ (q.nonces 0)[(7 : U256)]? = some none := by
    refine ⟨endState (QueueOp.runAll library unsignedRun (new 10 10)), ?_, ?_⟩
    · exact eq_ok_endState (by decide +kernel)
    · decide +kernel
  obtain ⟨q, hq, hnone⟩ := hend
  intro h
  obtain ⟨v, -, hv, -⟩ := ((h.of_ok hq).byNonce 0 7 none).mp hnone
  cases hv

/-! ## The known transactions -/

/-- `m_known` is the set of the hashes of the transactions held, and no other transaction is refused as known. -/
structure KnownExact (L : Library) (q : TransactionQueue) : Prop where
  known_iff : ∀ h, q.m_known h = true ↔ ∃ t ∈ q.held, t.sha3 = h
  import_known : ∀ t ik q', TransactionQueue.import L t ik q = .ok .AlreadyKnown q' → ∃ u ∈ q.held, u.sha3 = t.sha3
  importRLP_known : ∀ rlp ik q', importRLP L rlp ik q = .ok .AlreadyKnown q' → ∃ u ∈ q.held, u.sha3 = L.sha3 rlp

/-- After operations that replace no future transaction and never leave too many of them, `m_known` is exact. -/
theorem known_of_cleanRun (L : Library) (limit futureLimit : Nat) (ops : List QueueOp) (hops : ∀ op ∈ ops, op.Recoverable)
    (hclean : QueueOp.CleanRun L (new limit futureLimit) ops) :
    Runs (QueueOp.runAll L ops) (new limit futureLimit) (fun _ q => KnownExact L q) fun e _ => e = .assertionFailed := by
  have hnew : Inv (new limit futureLimit) := inv_of_empty rfl rfl rfl rfl rfl
  refine ((QueueOp.runAll_inv hnew hops).and (QueueOp.runAll_knownHeld hnew hops hclean fun _ h => nomatch h)).mono ?_
    fun _ _ h => h.1
  rintro - q ⟨hq, hkh⟩
  refine ⟨fun h => ⟨hkh h, ?_⟩, ?_, ?_⟩
  · rintro ⟨t, ht, rfl⟩
    exact hq.2 t ht
  · exact fun t ik q' h => hkh _ (known_of_import h)
  · exact fun rlp ik q' h => hkh _ (known_of_importRLP h)

theorem known_of_cleanRun_sample :
    Runs (QueueOp.runAll library [.import (transaction 1 0 5 1) .Ignore, .import (transaction 1 1 5 2) .Ignore,
      .setFuture (H256.ofU256 2), .dropGood (transaction 1 0 5 1)]) (new 10 10)
      (fun _ q => KnownExact library q) fun e _ => e = .assertionFailed := by
  refine known_of_cleanRun library 10 10 _ ?_ ?_
  · simp [QueueOp.Recoverable, transaction]
  · decide +kernel

/-- A future transaction is replaced by one with a higher gas price. -/
def replacedRun : List QueueOp :=
  [.import (transaction 1 0 5 1) .Ignore, .import (transaction 1 1 5 2) .Ignore, .setFuture (H256.ofU256 2),
    .import (transaction 1 1 6 3) .Ignore]

/-- It is not held any more and still refused as known. -/
theorem known_not_held :
    ¬Runs (QueueOp.runAll library replacedRun) (new 10 10) (fun _ q => KnownExact library q) fun e _ => e = .assertionFailed := by
  have hend : ∃ q, QueueOp.runAll library replacedRun (new 10 10) = .ok () q ∧ q.m_known (H256.ofU256 2) = true ∧
      q.held = [transaction 1 0 5 1, transaction 1 1 6 3] := by
    refine ⟨endState (QueueOp.runAll library replacedRun (new 10 10)), ?_, ?_⟩
    · exact eq_ok_endState (by decide +kernel)
    · decide +kernel
  obtain ⟨q, hq, hknown, hheld⟩ := hend
  intro h
  obtain ⟨t, ht, hsha⟩ := ((h.of_ok hq).known_iff (H256.ofU256 2)).mp hknown
  rw [hheld] at ht
  revert t
  decide +kernel

/-! ## The order -/

/-- The transactions of a sender are listed in the order of their nonces. -/
def NoncesIncrease (ts : List SignedTransaction) : Prop := ts.Pairwise fun t u => t.from = u.from → t.nonce < u.nonce

/-- If every insertion has met an `m_current` in order for the new element, the transactions of each sender are listed in the
order of their nonces. -/
theorem topTransactions_of_ordered (L : Library) (limit futureLimit : Nat) (ops : List QueueOp) (hops : ∀ op ∈ ops, op.Recoverable) :
    Runs (QueueOp.runAll L ops) (new limit futureLimit)
      (fun _ q => q.disordered = false → ∀ n avoid, NoncesIncrease (q.topTransactions n avoid)) fun e _ => e = .assertionFailed := by
  refine (QueueOp.runAll_inv (inv_of_empty rfl rfl rfl rfl rfl) hops).mono ?_ fun _ _ h => h
  intro _ q hq hd n avoid
  exact (hq.1.ordered hd).sublist ((List.take_sublist _ _).trans List.filter_sublist)

theorem topTransactions_of_ordered_sample :
    Runs (QueueOp.runAll library [.import (transaction 1 3 1 1) .Ignore, .import (transaction 1 5 3 2) .Ignore]) (new 10 10)
      (fun _ q => ∀ n avoid, NoncesIncrease (q.topTransactions n avoid)) fun e _ => e = .assertionFailed := by
  have hordered : Runs (QueueOp.runAll library [.import (transaction 1 3 1 1) .Ignore, .import (transaction 1 5 3 2) .Ignore])
      (new 10 10) (fun _ q => q.disordered = false) fun _ _ => False := by decide +kernel
  have hlisted := topTransactions_of_ordered library 10 10
    [.import (transaction 1 3 1 1) .Ignore, .import (transaction 1 5 3 2) .Ignore] (by simp [QueueOp.Recoverable, transaction])
  exact (hlisted.and hordered).mono (fun _ _ h => h.1 h.2) fun _ _ h => h.1

/-- A transaction of one sender with nonce 3 is imported behind one with nonce 5. -/
def disorderedRun : List QueueOp :=
  [.import (transaction 2 0 2 1) .Ignore, .import (transaction 1 5 3 2) .Ignore, .import (transaction 1 3 1 3) .Ignore]

theorem topTransactions_disordered :
    ¬Runs (QueueOp.runAll library disorderedRun) (new 10 10) (fun _ q => ∀ n avoid, NoncesIncrease (q.topTransactions n avoid))
      fun e _ => e = .assertionFailed := by
  have hend : ∃ q, QueueOp.runAll library disorderedRun (new 10 10) = .ok () q ∧
      q.topTransactions 3 (fun _ => false) = [transaction 1 5 3 2, transaction 2 0 2 1, transaction 1 3 1 3] := by
    refine ⟨endState (QueueOp.runAll library disorderedRun (new 10 10)), ?_, ?_⟩
    · exact eq_ok_endState (by decide +kernel)
    · decide +kernel
  obtain ⟨q, hq, htop⟩ := hend
  intro h
  have := h.of_ok hq 3 fun _ => false
  rw [htop] at this
  exact absurd this (by unfold NoncesIncrease; decide +kernel)

/-! ## Dropping -/

/-- Once the hash has been dropped, and whatever is done as long as it is not tried again, it is neither known nor listed. -/
def DropFinal (L : Library) (q : TransactionQueue) (h : H256) : Prop :=
  ∀ q', Reach (QueueOp.next L) (fun _ op => op.Ignores) (QueueOp.next L q (.drop h)) q' →
    q'.m_known h = false ∧ ∀ limit avoid, ∀ t ∈ q'.topTransactions limit avoid, t.sha3 ≠ h

/-- Only a current transaction can be dropped for good, and it is, in every queue that has been given valid signatures only. -/
theorem drop_final_iff (L : Library) (limit futureLimit : Nat) (ops : List QueueOp) (q : TransactionQueue) (h : H256)
    (hrun : QueueOp.runAll L ops (new limit futureLimit) = .ok () q) (hknown : q.m_known h = true) :
    (DropFinal L q h → (q.m_currentByHash h).isSome = true) ∧
      ((∀ op ∈ ops, op.Recoverable) → (q.m_currentByHash h).isSome = true → DropFinal L q h) := by
  refine ⟨fun hfinal => ?_, fun hops hcur q' hq' => ?_⟩
  · cases hcur : q.m_currentByHash h with
    | some i => rfl
    | none =>
      have hunknown := (hfinal _ .start).1
      rw [QueueOp.known_of_drop hknown hcur] at hunknown
      cases hunknown
  · have hinv : Inv q := (QueueOp.runAll_inv (inv_of_empty rfl rfl rfl rfl rfl) hops).of_ok hrun
    have hgone := QueueOp.gone_of_reach (QueueOp.gone_of_drop hinv hknown hcur) hq'
    refine ⟨hgone.unknown, fun n avoid t ht => ?_⟩
    obtain ⟨v, hv, rfl⟩ := List.mem_map.mp (List.mem_of_mem_filter (List.mem_of_mem_take ht))
    exact hgone.current v hv

theorem drop_final_iff_sample : ∃ q, QueueOp.runAll library [.import (transaction 1 0 5 1) .Ignore] (new 10 10) = .ok () q ∧
    DropFinal library q (H256.ofU256 1) := by
  have hok := eq_ok_endState (r := QueueOp.runAll library [.import (transaction 1 0 5 1) .Ignore] (new 10 10)) (by decide +kernel)
  refine ⟨_, hok, (drop_final_iff library 10 10 _ _ _ hok (by decide +kernel)).2 ?_ (by decide +kernel)⟩
  simp [QueueOp.Recoverable, transaction]

/-- The second of two transactions has become a future one. -/
def postponedRun : List QueueOp :=
  [.import (transaction 1 0 5 1) .Ignore, .import (transaction 1 1 5 2) .Ignore, .setFuture (H256.ofU256 2)]

/-- It is dropped, promoted when the first one has got into a block, and listed. -/
theorem drop_not_final : ¬∀ (L : Library) (limit futureLimit : Nat) (ops : List QueueOp) (q : TransactionQueue) (h : H256),
    QueueOp.runAll L ops (new limit futureLimit) = .ok () q → q.m_known h = true → DropFinal L q h := by
  intro hall
  have hok := eq_ok_endState (r := QueueOp.runAll library postponedRun (new 10 10)) (by decide +kernel)
  have hfinal := hall library 10 10 _ _ (H256.ofU256 2) hok (by decide +kernel)
  have hignores : (QueueOp.dropGood (transaction 1 0 5 1)).Ignores := trivial
  have htop := (hfinal _ (.step _ .start hignores)).2 1 fun _ => false
  revert htop
  decide +kernel

end Webthree
