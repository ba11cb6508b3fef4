import Webthree.Lemmas.QueueRun
import Webthree.Lib.Transition

/-!
# Dropped transactions

A transaction that is neither held nor known and stands in `m_dropped` does not come back, whatever the state of the other
containers is: every operation only moves the transactions that are held, and the one that is imported has another hash.
-/

namespace Webthree

namespace TransactionQueue

/-- No transaction of the map has this hash. -/
def Lacks (h : H256) (fs : NonceMap SignedTransaction) : Prop := ∀ (n : U256) (t : SignedTransaction), fs[n]? = some t → t.sha3 ≠ h

/-- The transaction with this hash has been dropped and is not in the queue. -/
structure Gone (h : H256) (q : TransactionQueue) : Prop where
  dropped : q.m_dropped h = true
  unknown : q.m_known h = false
  current : ∀ v ∈ q.m_current.toList, v.transaction.sha3 ≠ h
  future : ∀ a fs, q.m_future.find a = some fs → Lacks h fs

variable {h : H256} {L : Library}

/-- Nothing is lacking a hash. -/
theorem Lacks.empty : Lacks h ∅ := by
  intro n t ht
  rw [Std.TreeMap.getElem?_emptyc] at ht
  cases ht

/-- An erasure brings no hash back. -/
theorem Lacks.erase {fs : NonceMap SignedTransaction} (hfs : Lacks h fs) (n : U256) : Lacks h (fs.erase n) := by
  intro k t ht
  rw [Std.TreeMap.getElem?_erase] at ht
  split at ht
  · cases ht
  · exact hfs k t ht

/-- Neither do many erasures. -/
theorem Lacks.foldl_erase {fs : NonceMap SignedTransaction} (hfs : Lacks h fs) (ns : List U256) :
    Lacks h (ns.foldl Std.TreeMap.erase fs) := by
  induction ns generalizing fs with
  | nil => exact hfs
  | cons n ns ih => exact ih (hfs.erase n)

/-- Another transaction does not have the hash. -/
theorem Lacks.insertIfNew {fs : NonceMap SignedTransaction} (hfs : Lacks h fs) (n : U256) {t : SignedTransaction} (ht : t.sha3 ≠ h) :
    Lacks h (fs.insertIfNew n t) := by
  intro k u hu
  rw [Std.TreeMap.getElem?_insertIfNew] at hu
  split at hu
  · cases hu
    exact ht
  · exact hfs k u hu

/-- Whether a hash is gone depends on four fields. -/
theorem Gone.congr {q q' : TransactionQueue} (hq : Gone h q) (h₁ : q'.m_dropped = q.m_dropped) (h₂ : q'.m_known = q.m_known)
    (h₃ : q'.m_current = q.m_current) (h₄ : q'.m_future = q.m_future) : Gone h q' := by
  refine ⟨?_, ?_, ?_, ?_⟩
  · rw [h₁]
    exact hq.dropped
  · rw [h₂]
    exact hq.unknown
  · rw [h₃]
    exact hq.current
  · rw [h₄]
    exact hq.future

/-- The future of no sender has a hash that is gone. -/
theorem Gone.futureOf {q : TransactionQueue} (hq : Gone h q) (a : Address) : Lacks h ((q.m_future.find a).getD ∅) := by
  cases hf : q.m_future.find a with
  | none => exact Lacks.empty
  | some fs => exact hq.future a fs hf

/-- The future transactions of a sender are others. -/
theorem Gone.set {q q' : TransactionQueue} {a : Address} {m : NonceMap SignedTransaction} (hq : Gone h q) (hm : Lacks h m)
    (h₁ : q'.m_dropped = q.m_dropped) (h₂ : q'.m_known = q.m_known)
    (h₃ : ∀ v ∈ q'.m_current.toList, v ∈ q.m_current.toList) (h₄ : q'.m_future = q.m_future.set a m) : Gone h q' := by
  refine ⟨?_, ?_, fun v hv => hq.current v (h₃ v hv), ?_⟩
  · rw [h₁]
    exact hq.dropped
  · rw [h₂]
    exact hq.unknown
  · intro b fs hb
    rw [h₄, Table.find_set] at hb
    split at hb
    · cases hb
      exact hm
    · exact hq.future b fs hb

/-- The future of a sender can be replaced by one that lacks the hash. -/
theorem Gone.setFutureOf {q : TransactionQueue} {a : Address} {m : NonceMap SignedTransaction} (hq : Gone h q) (hm : Lacks h m) :
    Gone h (q.setFutureOf a m) := by
  refine ⟨hq.dropped, hq.unknown, hq.current, ?_⟩
  intro b fs hb
  rw [find_setFutureOf, unlessEmpty] at hb
  split at hb
  · split at hb
    · cases hb
    · cases hb
      exact hm
  · exact hq.future b fs hb

/-- An element that an iterator refers to has another hash. -/
theorem Gone.deref {q : TransactionQueue} (hq : Gone h q) (it : Option Nat) :
    Runs (deref it) q (fun v q' => q' = q ∧ v.transaction.sha3 ≠ h) fun _ q' => Gone h q' := by
  rw [TransactionQueue.deref, runs_bind, runs_get]
  cases hv : it.bind q.element with
  | none => exact hq
  | some v =>
    obtain ⟨i, -, hi⟩ := Option.bind_eq_some_iff.mp hv
    exact ⟨rfl, hq.current v (List.mem_of_find?_eq_some hi)⟩

/-! ## Moving transactions -/

/-- A removal brings no hash back. -/
theorem remove_gone (k : H256) : Maintains (Gone h) (remove_WITH_LOCK L k) := by
  refine Maintains.get_bind fun q hq => ?_
  cases q.m_currentByHash k with
  | none => exact hq
  | some i =>
    simp only [runs_bind]
    refine (hq.deref (some i)).mono ?_ fun e s he => he
    rintro v q' ⟨rfl, -⟩
    rw [runs_get]
    cases q'.m_currentByAddressAndNonce v.transaction.from with
    | none => exact hq
    | some m =>
      refine ⟨hq.dropped, ?_, ?_, hq.future⟩
      · simp only [Function.update_apply]
        split
        · rfl
        · exact hq.unknown
      · intro w hw
        simp only [eraseCurrent, Balance.erase_toList] at hw
        exact hq.current w (List.mem_of_mem_filter hw)

/-- Another transaction can be placed. -/
theorem place_gone {a : Address} {k : H256} {t : SignedTransaction} (ht : t.sha3 ≠ h) : Maintains (Gone h) (place L a k t) := by
  refine Maintains.bind (Maintains.modify fun q hq => hq.congr rfl rfl rfl rfl) fun _ => Maintains.bind ?_ fun _ =>
    Maintains.bind (Maintains.modify fun q hq => hq.congr rfl rfl rfl rfl) fun _ =>
      Maintains.modify fun q hq => hq.congr rfl rfl rfl rfl
  refine Maintains.get_bind fun q hq => ?_
  dsimp only
  cases hi : q.m_current.insertBy q.priorityCompare ⟨q.nextHandle, t⟩ with
  | error e => exact hq
  | ok tree =>
    obtain ⟨l₁, l₂, hl, htree⟩ := SearchTree.insertBy_toList hi
    simp only [runs_bind, runs_set, runs_pure]
    refine ⟨hq.dropped, hq.unknown, ?_, hq.future⟩
    intro v hv
    simp only [Balance.fix_toList] at hv
    rw [htree] at hv
    rcases List.mem_append.mp hv with hv | hv
    · exact hq.current v (hl ▸ List.mem_append_left _ hv)
    · rcases List.mem_cons.mp hv with rfl | hv
      · exact ht
      · exact hq.current v (hl ▸ List.mem_append_right _ hv)

/-- The future transactions that become current lack the hash. -/
theorem promote_gone {a : Address} {nonce : U256} {ft : List (U256 × SignedTransaction)} (hft : ∀ e ∈ ft, e.2.sha3 ≠ h) :
    Maintains (Gone h) (promote L a nonce ft) := by
  induction ft generalizing nonce with
  | nil => exact Maintains.pure []
  | cons e ft ih =>
    obtain ⟨n, t⟩ := e
    rw [promote]
    split
    · refine Maintains.bind (place_gone (hft _ List.mem_cons_self)) fun _ =>
        Maintains.bind (Maintains.modify fun q hq => hq.congr rfl rfl rfl rfl) fun _ =>
          Maintains.bind (ih fun e he => hft e (List.mem_cons_of_mem _ he)) fun ns => Maintains.pure _
    · exact Maintains.pure []

/-- To make the following transactions current brings no hash back. -/
theorem makeFollowing_gone (t : SignedTransaction) : Maintains (Gone h) (makeFollowing L t) := by
  refine Maintains.get_bind fun q hq => ?_
  cases hf : q.m_future.find t.from with
  | none => exact hq
  | some fs =>
    have hfs := hq.future _ fs hf
    dsimp only
    split
    · refine Maintains.bind (promote_gone fun e he => ?_) (fun moved => ?_) q hq
      · exact hfs e.1 e.2 (getElem?_of_mem_iterFrom he)
      · exact Maintains.modify fun q' hq' => hq'.setFutureOf (hfs.foldl_erase moved)
    · exact hq

/-- To drop the future brings no hash back. -/
theorem dropFuture_gone : Maintains (Gone h) (dropFuture L) := by
  refine Maintains.get_bind fun q hq => ?_
  cases he : q.m_future.entries[L.begin q.m_future.entries.length % q.m_future.entries.length]? with
  | none => exact hq
  | some e =>
    obtain ⟨a, m⟩ := e
    have hfind : q.m_future.find a = some m := Table.find_eq_some_iff.mpr (List.mem_of_getElem? he)
    dsimp only
    cases m.keys.getLast? with
    | none => exact hq
    | some n => exact Gone.setFutureOf (hq.congr rfl rfl rfl rfl) ((hq.future a m hfind).erase n)

/-- To make a transaction current brings no hash back. -/
theorem makeCurrent_gone (t : SignedTransaction) : Maintains (Gone h) (makeCurrent_WITH_LOCK L t) := by
  have hdrop : ∀ k, Maintains (Gone h) (dropFutures L k) := by
    intro k
    induction k with
    | zero => exact Maintains.pure ()
    | succ k ih => exact Maintains.bind dropFuture_gone fun _ => ih
  exact Maintains.bind (makeFollowing_gone t) fun _ => Maintains.get_bind fun q hq => hdrop _ q hq

/-- To drop what is out of bounds brings no hash back. -/
theorem dropOutOfBounds_gone (turns : Nat) : Maintains (Gone h) (dropOutOfBounds L turns) := by
  induction turns with
  | zero => exact Maintains.throw _
  | succ turns ih =>
    refine Maintains.get_bind fun q hq => ?_
    split
    · cases q.m_current.toList.getLast? with
      | none => exact hq
      | some v => exact Maintains.bind (remove_gone v.transaction.sha3) (fun _ => ih) q hq
    · exact hq

/-- To demote transactions brings no hash back. -/
theorem demote_gone {a : Address} (ms : List (U256 × Option Nat)) : Maintains (Gone h) (demote L a ms) := by
  induction ms with
  | nil => exact Maintains.pure ()
  | cons e ms ih =>
    intro q hq
    rw [demote, runs_bind]
    refine (hq.deref e.2).mono ?_ fun e s he => he
    rintro v q' ⟨rfl, hv⟩
    rw [runs_bind, runs_modify]
    refine ih _ (hq.set ((hq.futureOf a).insertIfNew v.transaction.nonce hv) rfl rfl ?_ rfl)
    intro w hw
    simp only [eraseCurrent, Balance.erase_toList] at hw
    exact List.mem_of_mem_filter hw

/-! ## The operations -/

/-- To replace a current transaction brings no hash back. -/
theorem replaceCurrent_gone (t : SignedTransaction) : Maintains (Gone h) (replaceCurrent L t) := by
  refine Maintains.get_bind fun q hq => ?_
  cases (q.m_currentByAddressAndNonce t.from).bind fun m => m[t.nonce]? with
  | none => exact hq
  | some it =>
    rw [runs_bind]
    refine (hq.deref it).mono ?_ fun e s he => he
    rintro v q' ⟨rfl, -⟩
    split
    · exact hq
    · exact Maintains.bind (remove_gone _) (fun _ => Maintains.pure true) q' hq

/-- To replace a future transaction brings no hash back. -/
theorem replaceFuture_gone (t : SignedTransaction) : Maintains (Gone h) (replaceFuture t) := by
  refine Maintains.get_bind fun q hq => ?_
  cases hf : q.m_future.find t.from with
  | none => exact hq
  | some fs =>
    dsimp only
    cases fs[t.nonce]? with
    | none => exact hq
    | some prior =>
      dsimp only
      split
      · exact hq
      · exact Gone.setFutureOf (hq.congr rfl rfl rfl rfl) ((hq.future _ fs hf).erase _)

/-- To insert another transaction brings no hash back. -/
theorem insertCurrent_gone {t : SignedTransaction} (ht : t.sha3 ≠ h) : Maintains (Gone h) (insertCurrent_WITH_LOCK L t.sha3 t) := by
  refine Maintains.get_bind fun q hq => ?_
  split
  · exact hq
  · refine Maintains.bind (place_gone ht) (fun _ => Maintains.bind (makeCurrent_gone t) fun _ => ?_) q hq
    refine Maintains.modify fun q hq => ⟨hq.dropped, ?_, hq.current, hq.future⟩
    simp only [Function.update_of_ne ht.symm]
    exact hq.unknown

/-- To import another hash brings no hash back. -/
theorem manageImport_gone {k : H256} {t : SignedTransaction} (hk : k ≠ h) : Maintains (Gone h) (manageImport_WITH_LOCK L k t) := by
  have hall : Maintains (Gone h) (manageImport L k t) := by
    rw [manageImport]
    by_cases hkt : k = t.sha3
    · subst hkt
      rw [if_neg (not_not_intro rfl)]
      refine Maintains.bind (replaceCurrent_gone t) fun b => ?_
      split
      · exact Maintains.pure _
      · refine Maintains.bind (replaceFuture_gone t) fun b' => ?_
        split
        · exact Maintains.pure _
        · exact Maintains.bind (insertCurrent_gone hk) fun _ => Maintains.get_bind fun q hq => Maintains.bind (dropOutOfBounds_gone _) (fun _ => Maintains.pure _) q hq
    · rw [if_pos hkt]
      exact Maintains.throw _
  intro q hq
  have hend := (hall q hq).endState
  unfold Runs manageImport_WITH_LOCK
  cases hr : manageImport L k t q with
  | ok r q' =>
    rw [hr] at hend
    exact hend
  | error e q' =>
    rw [hr] at hend
    cases e with
    | InvalidSignature => exact hend
    | assertionFailed => exact hend
    | undefinedBehaviour => exact hend
    | noProgress => exact hend

/-- A transaction that has been dropped is refused unless it is to be tried again. -/
theorem Gone.check {q : TransactionQueue} {k : H256} (hq : Gone h q) (hc : q.check_WITH_LOCK k .Ignore = .Success) : k ≠ h := by
  intro hkh
  subst hkh
  simp [check_WITH_LOCK, hq.unknown, hq.dropped] at hc

end TransactionQueue

namespace QueueOp

open TransactionQueue

/-- The operation does not import a dropped transaction again and does not clear the queue. -/
def Ignores : QueueOp → Prop
  | .import _ ik => ik = .Ignore
  | .importRLP _ ik => ik = .Ignore
  | .clear => False
  | _ => True

variable {h : H256} {L : Library}

/-- A transaction that has been dropped and is not held stays away. -/
theorem run_gone {op : QueueOp} (hop : op.Ignores) : Maintains (Gone h) (op.run L) := by
  cases op with
  | «import» t ik =>
    cases hop
    refine Maintains.bind (Maintains.get_bind fun q hq => ?_) fun _ => Maintains.pure ()
    cases hc : q.check_WITH_LOCK t.sha3 .Ignore with
    | Success => exact manageImport_gone (hq.check hc) q hq
    | Malformed => exact hq
    | AlreadyInChain => exact hq
    | AlreadyKnown => exact hq
    | OverbidGasPrice => exact hq
  | importRLP rlp ik =>
    cases hop
    refine Maintains.bind (Maintains.get_bind fun q hq => ?_) fun _ => Maintains.pure ()
    cases hc : q.check_WITH_LOCK (L.sha3 rlp) .Ignore with
    | Success =>
      dsimp only
      split
      · exact hq
      · split
        · exact hq
        · exact manageImport_gone (hq.check hc) q hq
    | Malformed => exact hq
    | AlreadyInChain => exact hq
    | AlreadyKnown => exact hq
    | OverbidGasPrice => exact hq
  | drop k =>
    refine Maintains.get_bind fun q hq => ?_
    split
    · exact hq
    · refine Maintains.bind (Maintains.modify fun q hq => ?_) (fun _ => Maintains.bind (remove_gone k) fun _ => Maintains.pure ()) q hq
      refine ⟨?_, hq.unknown, hq.current, hq.future⟩
      simp only [Function.update_apply]
      split
      · rfl
      · exact hq.dropped
  | dropGood t =>
    refine Maintains.bind (makeCurrent_gone t) fun _ => Maintains.get_bind fun q hq => ?_
    split
    · exact hq
    · exact Maintains.bind (remove_gone _) (fun _ => Maintains.pure ()) q hq
  | setFuture k =>
    refine Maintains.get_bind fun q hq => ?_
    cases q.m_currentByHash k with
    | none => exact hq
    | some i =>
      rw [runs_bind]
      refine (hq.deref (some i)).mono ?_ fun e s he => he
      rintro v q' ⟨rfl, -⟩
      rw [runs_bind, runs_get, runs_bind, runs_modify]
      rw [runs_bind]
      refine (demote_gone _ _ ?_).mono (fun _ q₂ hq₂ => ?_) fun _ _ he => he
      · exact hq.set (hq.futureOf v.transaction.from) rfl rfl (fun w hw => hw) rfl
      · exact hq₂.congr rfl rfl rfl rfl
  | clear => exact False.elim hop

/-- The state after an operation, whether it returns or throws. -/
def next (L : Library) (q : TransactionQueue) (op : QueueOp) : TransactionQueue := endState (op.run L q)

/-- A hash that is gone stays so while the operations ignore it. -/
theorem gone_of_reach {q q' : TransactionQueue} (hq : Gone h q) (hr : Reach (next L) (fun _ op => op.Ignores) q q') : Gone h q' :=
  hr.invariant hq fun s _ hs hop => (run_gone hop s hs).endState

/-- A removal does not forget what was dropped. -/
theorem remove_dropped {k : H256} : Maintains (fun q => q.m_dropped h = true) (remove_WITH_LOCK L k) := by
  refine Maintains.get_bind fun q hq => ?_
  cases q.m_currentByHash k with
  | none => exact hq
  | some i =>
    refine Maintains.bind (Maintains.get_bind fun q hq => ?_) (fun v => Maintains.get_bind fun q hq => ?_) q hq
    · cases (some i).bind q.element with
      | none => exact hq
      | some v => exact hq
    · cases q.m_currentByAddressAndNonce v.transaction.from with
      | none => exact hq
      | some m => exact hq

/-- A current transaction is gone after it has been dropped: no other transaction held has its hash. -/
theorem gone_of_drop {q : TransactionQueue} (hq : Inv q) (hknown : q.m_known h = true) (hcur : (q.m_currentByHash h).isSome = true) :
    Gone h (next L q (.drop h)) := by
  obtain ⟨i, hi⟩ := Option.isSome_iff_exists.mp hcur
  obtain ⟨v, hv, -, hvh⟩ := (hq.1.byHash _ _).mp hi
  have hruns : Runs (run L (.drop h)) q (fun _ q' => Gone h q') fun _ q' => Gone h q' := by
    simp only [run, TransactionQueue.drop, runs_bind, runs_get, hknown, Bool.not_true, Bool.false_eq_true, if_false, runs_modify]
    generalize hq₁ : ({ q with m_dropped := _ } : TransactionQueue) = q₁
    have hv₁ : v ∈ q₁.m_current.toList := by
      rw [← hq₁]
      exact hv
    have hdropped : q₁.m_dropped h = true := by
      rw [← hq₁]
      exact Function.update_self _ _ _
    obtain ⟨hs, -⟩ : Sound q₁ ∧ q₁.held = q.held := by
      subst hq₁
      exact hq.1.of_containers rfl rfl rfl rfl rfl rfl rfl
    have hremove := (remove_runs (E := fun _ _ => False) hs hv₁).and (remove_dropped (L := L) q₁ hdropped)
    rw [hvh] at hremove
    refine hremove.mono (fun b q' hb => ?_) fun e s he => he.1.elim
    obtain ⟨⟨-, hq'⟩, hd⟩ := hb
    have hnot : ∀ t ∈ q'.held, t.sha3 ≠ h := by
      have hnodup := (hq'.held.map SignedTransaction.sha3).nodup_iff.mp hs.hashes
      rw [List.map_cons, hvh] at hnodup
      intro t ht heq
      exact (List.nodup_cons.mp hnodup).1 (heq ▸ List.mem_map_of_mem ht)
    refine ⟨hd, ?_, ?_, ?_⟩
    · rw [hq'.known, hvh, Function.update_self]
    · exact fun w hw => hnot _ (List.mem_append_left _ (List.mem_map_of_mem hw))
    · intro a fs hfs n t ht
      refine hnot t (List.mem_append_right _ (mem_future_of_getElem? (a := a) (n := n) ?_))
      rw [TransactionQueue.futureOf, hfs]
      exact ht
  exact hruns.endState

/-- A transaction that is not current stays known when it is dropped. -/
theorem known_of_drop {q : TransactionQueue} (hknown : q.m_known h = true) (hcur : q.m_currentByHash h = none) :
    (next L q (.drop h)).m_known h = true := by
  have hruns : Runs (run L (.drop h)) q (fun _ q' => q'.m_known h = true) fun _ q' => q'.m_known h = true := by
    simp only [run, TransactionQueue.drop, runs_bind, runs_get, hknown, Bool.not_true, Bool.false_eq_true, if_false, runs_modify,
      remove_WITH_LOCK, hcur, runs_pure]
  exact hruns.endState

end QueueOp

end Webthree
