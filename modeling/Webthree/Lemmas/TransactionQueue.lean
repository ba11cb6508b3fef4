import Mathlib.Data.List.Perm.Basic
import Webthree.Queue.TransactionQueue

/-!
# The transaction queue

What it means that the containers of the queue agree, and that every operation keeps them so. The operations are described by
what they do to the list of all transactions held, up to its order, and to `m_known`.
-/

namespace Webthree

/-- What no two transactions in the queue share. -/
def SignedTransaction.key (t : SignedTransaction) : Address × U256 := (t.from, t.nonce)

namespace TransactionQueue

/-! ## The containers -/

/-- The transactions in `m_current`, in its order. -/
def transactions (q : TransactionQueue) : List SignedTransaction := q.m_current.toList.map VerifiedTransaction.transaction

/-- The transactions in `m_future`. -/
def future (q : TransactionQueue) : List SignedTransaction := q.m_future.entries.flatMap fun e => e.2.toList.map Prod.snd

/-- The transactions in the queue. -/
def held (q : TransactionQueue) : List SignedTransaction := q.transactions ++ q.future

/-- The two indices hold exactly the elements of `m_current`, and every iterator in them refers to one. -/
structure Indexed (q : TransactionQueue) : Prop where
  handles : (q.m_current.toList.map VerifiedTransaction.handle).Nodup
  byHash : ∀ h i, q.m_currentByHash h = some i ↔ ∃ v ∈ q.m_current.toList, v.handle = i ∧ v.transaction.sha3 = h
  byNonce : ∀ a n it, (q.nonces a)[n]? = some it ↔
    ∃ v ∈ q.m_current.toList, it = some v.handle ∧ v.transaction.key = (a, n)
  nonces_nonempty : ∀ a m, q.m_currentByAddressAndNonce a = some m → m.isEmpty = false

/-- `m_future` holds every transaction in the place of its sender and nonce, has no empty map, and `m_futureSize` is its size. -/
structure FutureKept (q : TransactionQueue) : Prop where
  keyed : ∀ a fs, q.m_future.find a = some fs → ∀ n (t : SignedTransaction), fs[n]? = some t → t.key = (a, n)
  future_nonempty : ∀ a fs, q.m_future.find a = some fs → fs.isEmpty = false
  size : q.m_futureSize = q.future.length

/-- The containers agree. -/
structure Consistent (q : TransactionQueue) : Prop extends Indexed q, FutureKept q where
  distinct : (q.held.map SignedTransaction.key).Nodup

/-- What is kept of `m_current` besides: signatures are valid, numbers are new, and the transactions of a sender are in the order
of their nonces as long as no insertion has met a disorder. -/
structure CurrentSound (q : TransactionQueue) : Prop extends Indexed q where
  recovered : ∀ v ∈ q.m_current.toList, v.transaction.recovered.isSome = true
  fresh : ∀ v ∈ q.m_current.toList, v.handle < q.nextHandle
  ordered : q.disordered = false → q.transactions.Pairwise fun t u => t.from = u.from → t.nonce < u.nonce

/-- What every operation keeps. -/
structure Sound (q : TransactionQueue) : Prop extends Consistent q, CurrentSound q where
  future_recovered : ∀ t ∈ q.future, t.recovered.isSome = true
  hashes : (q.held.map SignedTransaction.sha3).Nodup

/-! ## The order -/

/-- The lowest nonce of a sender in `m_currentByAddressAndNonce`. -/
def lowest (q : TransactionQueue) (a : Address) : U256 := ((q.m_currentByAddressAndNonce a).bind fun m => m.keys.head?).getD 0

/-- The comparison of two transactions whose heights there are. -/
def precedes (q : TransactionQueue) (t u : SignedTransaction) : Bool :=
  t.nonce - q.lowest t.from < u.nonce - q.lowest u.from ||
    (t.nonce - q.lowest t.from = u.nonce - q.lowest u.from && t.gasPrice > u.gasPrice)

/-- The nonce of the transaction is in the index. -/
structure Ranked (q : TransactionQueue) (t : SignedTransaction) : Prop where
  recovered : t.recovered.isSome = true
  mem : t.nonce ∈ q.nonces t.from

/-- A recoverable transaction has the sender that it names. -/
theorem sender_eq_from {t : SignedTransaction} (h : t.recovered.isSome = true) : t.sender = .ok t.from := by
  obtain ⟨a, ha⟩ := Option.isSome_iff_exists.mp h
  rw [SignedTransaction.sender, SignedTransaction.from, ha]
  rfl

/-- The comparison of nonces is their order. -/
theorem le_of_isLE_compare {x y : U256} (h : (compare x y).isLE = true) : x ≤ y := by
  simp only [compare, compareOfLessAndEq] at h
  split at h
  · exact BitVec.le_of_lt ‹_›
  · split at h
    · rename_i he
      rw [he]
      exact BitVec.le_refl y
    · cases h

/-- A ranked sender has a lowest nonce. -/
theorem Ranked.first {q : TransactionQueue} {t : SignedTransaction} (h : q.Ranked t) :
    ((q.m_currentByAddressAndNonce t.from).bind fun m => m.keys.head?) = some (q.lowest t.from) ∧ q.lowest t.from ≤ t.nonce := by
  have hm := h.mem
  unfold nonces at hm
  unfold lowest
  cases hi : q.m_currentByAddressAndNonce t.from with
  | none =>
    rw [hi] at hm
    exact absurd hm Std.TreeMap.not_mem_emptyc
  | some m =>
    rw [hi, Option.getD_some] at hm
    cases hk : m.minKey? with
    | none =>
      have he := Std.TreeMap.minKey?_eq_none_iff.mp hk
      exact absurd hm (Std.TreeMap.not_mem_of_isEmpty he)
    | some n =>
      have hle := (Std.TreeMap.minKey?_eq_some_iff_mem_and_forall.mp hk).2 t.nonce hm
      simp only [Option.bind_some, ← Std.TreeMap.minKey?_eq_head?_keys, hk, Option.getD_some, true_and]
      exact le_of_isLE_compare hle

/-- The height of a ranked transaction is its distance from the lowest nonce. -/
theorem Ranked.height_eq {q : TransactionQueue} {t : SignedTransaction} (h : q.Ranked t) :
    q.height t = .ok (t.nonce - q.lowest t.from) := by
  rw [height, sender_eq_from h.recovered, ok_bind, h.first.1]
  rfl

/-- The comparator of the source, for ranked transactions. -/
theorem priorityCompare_eq {q : TransactionQueue} {v w : VerifiedTransaction} (hv : q.Ranked v.transaction)
    (hw : q.Ranked w.transaction) : q.priorityCompare v w = .ok (q.precedes v.transaction w.transaction) := by
  rw [priorityCompare, hv.height_eq, hw.height_eq]
  rfl

/-- Of two transactions of one sender, the one that precedes has the lower nonce. -/
theorem nonce_lt_of_precedes {q : TransactionQueue} {t u : SignedTransaction} (ht : q.Ranked t) (hu : q.Ranked u)
    (hfrom : t.from = u.from) (hne : t.nonce ≠ u.nonce) :
    (q.precedes t u = true → t.nonce < u.nonce) ∧ (q.precedes t u = false → u.nonce < t.nonce) := by
  have h1 := ht.first.2
  have h2 := hu.first.2
  rw [precedes]
  rw [hfrom] at h1 ⊢
  generalize q.lowest u.from = n at h1 h2 ⊢
  have hne' : t.nonce - n ≠ u.nonce - n := fun h => hne (by bv_omega)
  simp only [hne', decide_false, Bool.false_and, Bool.or_false, decide_eq_true_eq, decide_eq_false_iff_not]
  refine ⟨fun h => ?_, fun h => ?_⟩
  · bv_omega
  · bv_omega

/-! ## Placing a transaction -/

/-- `q'` is `q` with other current transactions and another `m_futureSize`. -/
structure Frame (q q' : TransactionQueue) : Prop where
  known : q'.m_known = q.m_known
  future : q'.m_future = q.m_future
  futureLimit : q'.m_futureLimit = q.m_futureLimit

/-- Frames compose. -/
theorem Frame.trans {q₁ q₂ q₃ : TransactionQueue} (h : Frame q₁ q₂) (h' : Frame q₂ q₃) : Frame q₁ q₃ :=
  ⟨h'.known.trans h.known, h'.future.trans h.future, h'.futureLimit.trans h.futureLimit⟩

/-- A current transaction has its nonce among those of its sender. -/
theorem mem_nonces {q : TransactionQueue} (hq : Indexed q) {v : VerifiedTransaction} (hv : v ∈ q.m_current.toList) :
    v.transaction.nonce ∈ q.nonces v.transaction.from := by
  rw [Std.TreeMap.mem_iff_isSome_getElem?, (hq.byNonce _ _ (some v.handle)).mpr ⟨v, hv, rfl, rfl⟩]
  rfl

/-- An element is put somewhere between the others; if they were in order for it, behind those that are not greater. -/
theorem emplace_runs {L : Library} {q : TransactionQueue} {t : SignedTransaction} {E : QueueError → TransactionQueue → Prop}
    (ht : q.Ranked t) (hq : ∀ v ∈ q.m_current.toList, q.Ranked v.transaction) :
    Runs (emplace L t) q (fun i q' => i = q.nextHandle ∧ ∃ (tree : SearchTree VerifiedTransaction) (d : Bool)
      (a b : List VerifiedTransaction), q' = { q with m_current := tree, nextHandle := q.nextHandle + 1, disordered := d } ∧
      q.m_current.toList = a ++ b ∧ tree.toList = a ++ ⟨q.nextHandle, t⟩ :: b ∧
      (d = false → q.disordered = false ∧ (∀ v ∈ a, q.precedes t v.transaction = false) ∧
        ∀ v ∈ b, q.precedes t v.transaction = true)) E := by
  have hless : ∀ v ∈ q.m_current.toList, q.priorityCompare ⟨q.nextHandle, t⟩ v = .ok (q.precedes t v.transaction) :=
    fun v hv => priorityCompare_eq ht (hq v hv)
  obtain ⟨tree, htree⟩ := SearchTree.exists_insertBy fun v hv => ⟨_, hless v hv⟩
  simp only [emplace, runs_bind, runs_get, htree, runs_set, runs_pure, true_and]
  by_cases hin : q.inOrderFor ⟨q.nextHandle, t⟩ = true
  · have hmono : q.m_current.toList.Pairwise fun v w =>
        q.precedes t v.transaction = true → q.precedes t w.transaction = true := by
      refine pairwise_of_all_dropWhile (fun v => q.priorityCompare ⟨q.nextHandle, t⟩ v = .ok false) (fun v hv => ?_)
        (List.all_eq_true.mpr fun v hv => ?_)
      · rw [hless v hv]
        cases q.precedes t v.transaction with
        | true => rfl
        | false => rfl
      · have hv' := of_decide_eq_true (List.all_eq_true.mp hin v hv)
        rw [hless v (List.dropWhile_sublist _ |>.subset hv)] at hv'
        exact Except.ok.inj hv'
    obtain ⟨a, b, h1, h2, ha, hb⟩ := SearchTree.insertBy_split hless hmono htree
    exact ⟨_, _, a, b, rfl, h1, by rw [Balance.fix_toList, h2], fun hd => ⟨(Bool.or_eq_false_iff.mp hd).1, ha, hb⟩⟩
  · obtain ⟨a, b, h1, h2⟩ := SearchTree.insertBy_toList htree
    refine ⟨_, _, a, b, rfl, h1, by rw [Balance.fix_toList, h2], ?_⟩
    intro hd
    rw [Bool.eq_false_iff.mpr hin] at hd
    simp at hd

/-- The index after a sender has got another map. -/
theorem nonces_of_update {q q' : TransactionQueue} {a : Address} {x : Option (NonceMap (Option Nat))}
    (h : q'.m_currentByAddressAndNonce = Function.update q.m_currentByAddressAndNonce a x) (b : Address) :
    q'.nonces b = if b = a then x.getD ∅ else q.nonces b := by
  rw [nonces, h]
  by_cases hb : b = a
  · rw [hb, Function.update_self, if_pos rfl]
  · rw [Function.update_of_ne hb, if_neg hb, nonces]

/-- A new element in `m_current` and its indices. -/
theorem CurrentSound.placed {q q' : TransactionQueue} {t : SignedTransaction} {a b : List VerifiedTransaction} (hq : CurrentSound q)
    (ht : t.recovered.isSome = true) (hkey : t.key ∉ q.transactions.map SignedTransaction.key)
    (hhash : t.sha3 ∉ q.transactions.map SignedTransaction.sha3) (hab : q.m_current.toList = a ++ b)
    (hlist : q'.m_current.toList = a ++ ⟨q.nextHandle, t⟩ :: b)
    (hbyHash : q'.m_currentByHash = Function.update q.m_currentByHash t.sha3 (some q.nextHandle))
    (hnonces : ∀ x n, (q'.nonces x)[n]? = if t.key = (x, n) then some (some q.nextHandle) else (q.nonces x)[n]?)
    (hnonempty : ∀ x m, q'.m_currentByAddressAndNonce x = some m → m.isEmpty = false) (hnext : q'.nextHandle = q.nextHandle + 1)
    (hord : q'.disordered = false → q.disordered = false ∧
      (∀ v ∈ a, v.transaction.from = t.from → v.transaction.nonce < t.nonce) ∧
      ∀ v ∈ b, t.from = v.transaction.from → t.nonce < v.transaction.nonce) : CurrentSound q' := by
  have hperm : q'.m_current.toList.Perm (⟨q.nextHandle, t⟩ :: q.m_current.toList) := by
    rw [hlist, hab]
    exact List.perm_middle
  have hmem : ∀ v, v ∈ q'.m_current.toList ↔ v = ⟨q.nextHandle, t⟩ ∨ v ∈ q.m_current.toList := by
    intro v
    rw [hperm.mem_iff, List.mem_cons]
  have hnew : ∀ v ∈ q.m_current.toList, v.transaction.sha3 ≠ t.sha3 ∧ v.transaction.key ≠ t.key := by
    intro v hv
    have hm : v.transaction ∈ q.transactions := List.mem_map_of_mem hv
    exact ⟨fun h => hhash (h ▸ List.mem_map_of_mem hm), fun h => hkey (h ▸ List.mem_map_of_mem hm)⟩
  refine ⟨⟨?_, ?_, ?_, hnonempty⟩, ?_, ?_, ?_⟩
  · refine (hperm.map _).nodup_iff.mpr (List.nodup_cons.mpr ⟨?_, hq.handles⟩)
    intro h
    obtain ⟨v, hv, he⟩ := List.mem_map.mp h
    exact absurd (hq.fresh v hv) (by simp [he])
  · intro h i
    rw [hbyHash]
    simp only [hmem, exists_eq_or_imp]
    by_cases hh : h = t.sha3
    · subst hh
      rw [Function.update_self]
      refine ⟨fun hi => .inl ⟨Option.some.inj hi, rfl⟩, ?_⟩
      rintro (⟨rfl, -⟩ | ⟨v, hv, -, he⟩)
      · rfl
      · exact absurd he (hnew v hv).1
    · rw [Function.update_of_ne hh, hq.byHash h i]
      refine ⟨.inr, ?_⟩
      rintro (⟨-, rfl⟩ | hv)
      · exact absurd rfl hh
      · exact hv
  · intro x n it
    rw [hnonces]
    simp only [hmem, exists_eq_or_imp]
    by_cases hk : t.key = (x, n)
    · rw [if_pos hk]
      refine ⟨fun hi => .inl ⟨(Option.some.inj hi).symm, hk⟩, ?_⟩
      rintro (⟨rfl, -⟩ | ⟨v, hv, -, he⟩)
      · rfl
      · exact absurd (he.trans hk.symm) (hnew v hv).2
    · rw [if_neg hk, hq.byNonce]
      refine ⟨.inr, ?_⟩
      rintro (⟨-, hk'⟩ | hv)
      · exact absurd hk' hk
      · exact hv
  · intro v hv
    rcases (hmem v).mp hv with rfl | hv
    · exact ht
    · exact hq.recovered v hv
  · intro v hv
    rw [hnext]
    rcases (hmem v).mp hv with rfl | hv
    · exact Nat.lt_succ_self _
    · exact Nat.lt_succ_of_lt (hq.fresh v hv)
  · intro hd
    obtain ⟨hd₀, ha, hb⟩ := hord hd
    have hsorted := hq.ordered hd₀
    simp only [transactions, hab, hlist, List.map_append, List.map_cons, List.pairwise_append, List.pairwise_cons,
      List.mem_map, List.mem_cons, forall_exists_index, and_imp, forall_apply_eq_imp_iff₂] at hsorted ⊢
    obtain ⟨h1, h2, h3⟩ := hsorted
    refine ⟨h1, ⟨hb, h2⟩, ?_⟩
    rintro v hv u (rfl | ⟨w, hw, rfl⟩)
    · exact ha v hv
    · exact h3 v hv w hw

/-- A transaction with a new sender and nonce and a new hash gets its place. -/
theorem place_runs {L : Library} {q : TransactionQueue} {t : SignedTransaction} {E : QueueError → TransactionQueue → Prop}
    (hq : CurrentSound q) (ht : t.recovered.isSome = true) (hkey : t.key ∉ q.transactions.map SignedTransaction.key)
    (hhash : t.sha3 ∉ q.transactions.map SignedTransaction.sha3) :
    Runs (place L t.from t.sha3 t) q (fun _ q' => CurrentSound q' ∧ q'.transactions.Perm (t :: q.transactions) ∧
      q'.m_futureSize = q.m_futureSize ∧ Frame q q') E := by
  simp only [place, indexNonce, runs_bind, runs_modify]
  -- the order is the one after the nonce has been put into the index
  generalize hq₁ : ({ q with m_currentByAddressAndNonce := _ } : TransactionQueue) = q₁
  have hnonces₁ : ∀ a, q₁.nonces a = if a = t.from then (q.nonces t.from).insertIfNew t.nonce none else q.nonces a := by
    intro a
    rw [nonces_of_update (q := q) (x := some ((q.nonces t.from).insertIfNew t.nonce none)) (by rw [← hq₁])]
    rfl
  have hmem : ∀ a n, n ∈ q₁.nonces a ↔ t.key = (a, n) ∨ n ∈ q.nonces a := by
    intro a n
    rw [hnonces₁]
    by_cases ha : a = t.from
    · subst ha
      rw [if_pos rfl, Std.TreeMap.mem_insertIfNew]
      simp [SignedTransaction.key]
    · simp [ha, SignedTransaction.key, Ne.symm ha]
  have hlist : q₁.m_current.toList = q.m_current.toList := by rw [← hq₁]
  have ht₁ : q₁.Ranked t := ⟨ht, (hmem _ _).mpr (.inl rfl)⟩
  have hv₁ : ∀ v ∈ q.m_current.toList, q₁.Ranked v.transaction := fun v hv =>
    ⟨hq.recovered v hv, (hmem _ _).mpr (.inr (mem_nonces hq.toIndexed hv))⟩
  refine (emplace_runs ht₁ (by rwa [hlist])).mono ?_ fun e s he => he
  rintro i q₂ ⟨rfl, tree, d, a, b, rfl, hab, htree, hd⟩
  rw [hlist] at hab
  have hne : ∀ v ∈ q.m_current.toList, v.transaction.from = t.from → t.nonce ≠ v.transaction.nonce := by
    intro v hv hfrom hnonce
    refine hkey (List.mem_map.mpr ⟨v.transaction, List.mem_map_of_mem hv, ?_⟩)
    rw [SignedTransaction.key, SignedTransaction.key, hfrom, hnonce]
  have hord : d = false → q.disordered = false ∧
      (∀ v ∈ a, v.transaction.from = t.from → v.transaction.nonce < t.nonce) ∧
      ∀ v ∈ b, t.from = v.transaction.from → t.nonce < v.transaction.nonce := by
    intro hd'
    obtain ⟨hd₀, ha, hb⟩ := hd hd'
    refine ⟨by rw [← hq₁] at hd₀; exact hd₀, ?_, ?_⟩
    · intro v hv hfrom
      have hv' : v ∈ q.m_current.toList := by rw [hab]; exact List.mem_append_left b hv
      exact (nonce_lt_of_precedes ht₁ (hv₁ v hv') hfrom.symm (hne v hv' hfrom)).2 (ha v hv)
    · intro v hv hfrom
      have hv' : v ∈ q.m_current.toList := by rw [hab]; exact List.mem_append_right a hv
      exact (nonce_lt_of_precedes ht₁ (hv₁ v hv') hfrom (hne v hv' hfrom.symm)).1 (hb v hv)
  simp only [setIterator, indexHash, runs_modify]
  generalize hq₂ : ({ q₁ with m_current := tree, nextHandle := _, disordered := d } : TransactionQueue) = q₂
  have hnonces₂ : q₂.nonces = q₁.nonces := by rw [← hq₂]; rfl
  rw [hnonces₂, hnonces₁, if_pos rfl]
  subst hq₂ hq₁
  refine ⟨hq.placed ht hkey hhash hab htree rfl ?_ ?_ rfl hord, ?_, rfl, rfl, rfl, rfl⟩
  · intro x n
    rw [nonces_of_update rfl, hnonces₁]
    by_cases hx : x = t.from
    · subst hx
      rw [if_pos rfl, Option.getD_some, Std.TreeMap.getElem?_insert, Std.TreeMap.getElem?_insertIfNew]
      by_cases hn : t.nonce = n
      · simp [hn, SignedTransaction.key]
      · simp [hn, SignedTransaction.key]
    · rw [if_neg hx, if_neg hx, if_neg]
      intro hk
      exact hx (Prod.mk.inj hk).1.symm
  · intro x m hm
    simp only at hm
    by_cases hx : x = t.from
    · subst hx
      rw [Function.update_self] at hm
      cases hm
      exact Std.TreeMap.isEmpty_insert
    · rw [Function.update_of_ne hx, Function.update_of_ne hx] at hm
      exact hq.nonces_nonempty x m hm
  · simp only [transactions, htree, hab, List.map_append, List.map_cons]
    exact List.perm_middle

/-! ## Changes of a part of the containers -/

/-- Nothing about `m_current` depends on the other containers. -/
theorem CurrentSound.of_eq {q q' : TransactionQueue} (h : CurrentSound q) (h₁ : q'.m_current = q.m_current)
    (h₂ : q'.m_currentByHash = q.m_currentByHash) (h₃ : q'.m_currentByAddressAndNonce = q.m_currentByAddressAndNonce)
    (h₄ : q'.nextHandle = q.nextHandle) (h₅ : q'.disordered = q.disordered) : CurrentSound q' := by
  cases q
  cases q'
  cases h₁
  cases h₂
  cases h₃
  cases h₄
  cases h₅
  exact ⟨⟨h.handles, h.byHash, h.byNonce, h.nonces_nonempty⟩, h.recovered, h.fresh, h.ordered⟩

/-- A queue that holds fewer transactions. -/
theorem Sound.of_drop {q q' : TransactionQueue} {d : List SignedTransaction} (hq : Sound q) (hc : CurrentSound q')
    (hf : FutureKept q') (h : q.held.Perm (d ++ q'.held)) : Sound q' := by
  have hdistinct := (h.map SignedTransaction.key).nodup_iff.mp hq.distinct
  have hhashes := (h.map SignedTransaction.sha3).nodup_iff.mp hq.hashes
  rw [List.map_append] at hdistinct hhashes
  refine ⟨⟨hc.toIndexed, hf, hdistinct.of_append_right⟩, hc.recovered, hc.fresh, hc.ordered, ?_,
    hhashes.of_append_right⟩
  intro t ht
  have ht' : t ∈ q.held := h.mem_iff.mpr (List.mem_append_right _ (List.mem_append_right _ ht))
  rcases List.mem_append.mp ht' with ht' | ht'
  · obtain ⟨v, hv, rfl⟩ := List.mem_map.mp ht'
    exact hq.recovered v hv
  · exact hq.future_recovered t ht'

/-- The future transactions of a sender. -/
def futureOf (q : TransactionQueue) (a : Address) : NonceMap SignedTransaction := (q.m_future.find a).getD ∅

/-- The future transactions of the other senders. -/
def futureRest (q : TransactionQueue) (a : Address) : List SignedTransaction :=
  (q.m_future.remove a).entries.flatMap fun e => e.2.toList.map Prod.snd

/-- The empty map has no entries. -/
theorem toList_emptyMap {β : Type} : (∅ : NonceMap β).toList = [] := by
  rw [← List.isEmpty_iff, Std.TreeMap.isEmpty_toList]
  exact Std.TreeMap.isEmpty_emptyc

/-- The future is that of one sender and that of the others. -/
theorem future_perm (q : TransactionQueue) (a : Address) : q.future.Perm ((q.futureOf a).toList.map Prod.snd ++ q.futureRest a) := by
  have h := q.m_future.flatMap_perm a fun e => e.2.toList.map Prod.snd
  unfold future futureOf futureRest
  cases hf : q.m_future.find a with
  | none => simpa [hf, toList_emptyMap] using h
  | some fs => simpa [hf] using h

/-- The future of a sender is replaced, and dropped when it is empty. -/
theorem find_setFutureOf (q : TransactionQueue) (a b : Address) (m : NonceMap SignedTransaction) :
    (q.setFutureOf a m).m_future.find b = if b = a then unlessEmpty m else q.m_future.find b := by
  rw [setFutureOf, unlessEmpty]
  by_cases hm : m.isEmpty = true
  · rw [if_pos hm, if_pos hm, Table.find_remove]
  · rw [if_neg hm, if_neg hm, Table.find_set]

/-- The future behind that replacement. -/
theorem setFutureOf_future_perm (q : TransactionQueue) (a : Address) (m : NonceMap SignedTransaction) :
    (q.setFutureOf a m).future.Perm (m.toList.map Prod.snd ++ q.futureRest a) := by
  rw [future, setFutureOf]
  by_cases hm : m.isEmpty = true
  · have hnil : m.toList = [] := by rw [← List.isEmpty_iff, Std.TreeMap.isEmpty_toList, hm]
    rw [if_pos hm, hnil]
    exact List.Perm.refl _
  · rw [if_neg hm]
    exact q.m_future.flatMap_set_perm a m fun e => e.2.toList.map Prod.snd

/-- The future transactions of a sender are others now. -/
theorem FutureKept.setFutureOf {q : TransactionQueue} {a : Address} {m : NonceMap SignedTransaction}
    (hkeyed : ∀ a fs, q.m_future.find a = some fs → ∀ n (t : SignedTransaction), fs[n]? = some t → t.key = (a, n))
    (hnonempty : ∀ a fs, q.m_future.find a = some fs → fs.isEmpty = false)
    (hm : ∀ n (t : SignedTransaction), m[n]? = some t → t.key = (a, n))
    (hsize : q.m_futureSize = m.toList.length + (q.futureRest a).length) : FutureKept (q.setFutureOf a m) := by
  refine ⟨?_, ?_, ?_⟩
  · intro b fs hfs
    rw [find_setFutureOf] at hfs
    by_cases hb : b = a
    · subst hb
      rw [if_pos rfl, unlessEmpty] at hfs
      split at hfs
      · cases hfs
      · cases hfs
        exact hm
    · rw [if_neg hb] at hfs
      exact hkeyed b fs hfs
  · intro b fs hfs
    rw [find_setFutureOf] at hfs
    by_cases hb : b = a
    · rw [if_pos hb, unlessEmpty] at hfs
      split at hfs
      · cases hfs
      · cases hfs
        exact Bool.eq_false_iff.mpr ‹_›
    · rw [if_neg hb] at hfs
      exact hnonempty b fs hfs
  · rw [(setFutureOf_future_perm q a m).length_eq, List.length_append, List.length_map]
    exact hsize

/-! ## Promotion -/

/-- How many of the future transactions, from the first on, have the nonces from `nonce` on. -/
def following : (nonce : U256) → List (U256 × SignedTransaction) → Nat
  | _, [] => 0
  | nonce, (_, t) :: ft => if t.nonce = nonce then following (nonce + 1) ft + 1 else 0

/-- How many future transactions follow on a transaction. -/
def followers (q : TransactionQueue) (t : SignedTransaction) : Nat :=
  following (t.nonce + 1) (iterFrom (q.futureOf t.from) (t.nonce + 1))

/-- No more transactions follow than there are. -/
theorem following_le (nonce : U256) (ft : List (U256 × SignedTransaction)) : following nonce ft ≤ ft.length := by
  induction ft generalizing nonce with
  | nil => exact Nat.le_refl 0
  | cons e ft ih =>
    rw [following]
    split
    · exact Nat.succ_le_succ (ih _)
    · exact Nat.zero_le _

/-- The loop moves the transactions that follow into `m_current`. -/
theorem promote_runs {L : Library} {a : Address} {E : QueueError → TransactionQueue → Prop} {ft : List (U256 × SignedTransaction)}
    {nonce : U256} {q : TransactionQueue} (hq : CurrentSound q)
    (hft : ∀ e ∈ ft, e.2.recovered.isSome = true ∧ e.2.key = (a, e.1))
    (hkeys : ((ft.map Prod.snd ++ q.transactions).map SignedTransaction.key).Nodup)
    (hhashes : ((ft.map Prod.snd ++ q.transactions).map SignedTransaction.sha3).Nodup) :
    Runs (promote L a nonce ft) q (fun ns q' => ns = (ft.take (following nonce ft)).map Prod.fst ∧ CurrentSound q' ∧
      q'.transactions.Perm ((ft.take (following nonce ft)).map Prod.snd ++ q.transactions) ∧
      q'.m_futureSize = q.m_futureSize - following nonce ft ∧ Frame q q') E := by
  induction ft generalizing nonce q with
  | nil =>
    simp only [promote, runs_pure, following, List.take_nil, List.map_nil, List.nil_append, Nat.sub_zero]
    exact ⟨trivial, hq, List.Perm.refl _, trivial, rfl, rfl, rfl⟩
  | cons e ft ih =>
    obtain ⟨n, t⟩ := e
    obtain ⟨hrec, hkey⟩ := hft (n, t) List.mem_cons_self
    obtain rfl : t.from = a := (Prod.mk.inj hkey).1
    rw [promote, following]
    by_cases hn : t.nonce = nonce
    · rw [if_pos hn, if_pos hn, runs_bind]
      simp only [List.map_cons, List.cons_append, List.nodup_cons, List.map_append, List.mem_append, not_or] at hkeys hhashes
      refine (place_runs hq hrec hkeys.1.2 hhashes.1.2).mono ?_ fun e s he => he
      rintro - q₁ ⟨hq₁, hperm₁, hsize₁, hframe₁⟩
      rw [runs_bind, runs_modify, runs_bind]
      generalize hq₂ : ({ q₁ with m_futureSize := _ } : TransactionQueue) = q₂
      have hsame : q₂.transactions = q₁.transactions := by rw [← hq₂]; rfl
      have hperm₂ : (ft.map Prod.snd ++ q₂.transactions).Perm (t :: (ft.map Prod.snd ++ q.transactions)) := by
        rw [hsame]
        exact (hperm₁.append_left _).trans List.perm_middle
      have hcs₂ : CurrentSound q₂ := by
        subst hq₂
        exact hq₁.of_eq rfl rfl rfl rfl rfl
      refine (ih hcs₂ (fun e he => hft e (List.mem_cons_of_mem _ he)) ?_ ?_).mono ?_ fun e s he => he
      · refine (hperm₂.map _).nodup_iff.mpr ?_
        simpa only [List.map_cons, List.nodup_cons, List.map_append, List.mem_append, not_or] using hkeys
      · refine (hperm₂.map _).nodup_iff.mpr ?_
        simpa only [List.map_cons, List.nodup_cons, List.map_append, List.mem_append, not_or] using hhashes
      · rintro ns q₃ ⟨rfl, hq₃, hperm₃, hsize₃, hframe₃⟩
        have hframe₂ : Frame q₁ q₂ := by rw [← hq₂]; exact ⟨rfl, rfl, rfl⟩
        have hsize₂ : q₂.m_futureSize = q₁.m_futureSize - 1 := by rw [← hq₂]
        refine ⟨rfl, hq₃, ?_, ?_, hframe₁.trans (hframe₂.trans hframe₃)⟩
        · rw [hsame] at hperm₃
          exact hperm₃.trans ((hperm₁.append_left _).trans List.perm_middle)
        · rw [hsize₃, hsize₂, hsize₁]
          omega
    · rw [if_neg hn, if_neg hn, runs_pure]
      exact ⟨rfl, hq, List.Perm.refl _, rfl, rfl, rfl, rfl⟩

/-- Some future transactions of a sender and the current ones are all different. -/
theorem nodup_append_transactions {β : Type} {q : TransactionQueue} {f : SignedTransaction → β} {a : Address}
    {l : List SignedTransaction} (h : (q.held.map f).Nodup) (hl : l.Sublist ((q.futureOf a).toList.map Prod.snd)) :
    ((l ++ q.transactions).map f).Nodup := by
  have hperm : q.held.Perm (q.transactions ++ ((q.futureOf a).toList.map Prod.snd ++ q.futureRest a)) :=
    (q.future_perm a).append_left q.transactions
  have hsub : (q.transactions ++ l).Sublist (q.transactions ++ ((q.futureOf a).toList.map Prod.snd ++ q.futureRest a)) :=
    (hl.trans (List.sublist_append_left _ _)).append_left q.transactions
  have hnodup := ((hperm.map f).nodup_iff.mp h).sublist (hsub.map f)
  exact (List.perm_append_comm.map f).nodup_iff.mp hnodup

/-- A transaction that is found in the future is one of it. -/
theorem mem_future_of_getElem? {q : TransactionQueue} {a : Address} {n : U256} {t : SignedTransaction}
    (h : (q.futureOf a)[n]? = some t) : t ∈ q.future := by
  refine (q.future_perm a).mem_iff.mpr (List.mem_append_left _ (List.mem_map.mpr ⟨(n, t), ?_, rfl⟩))
  exact Std.TreeMap.mem_toList_iff_getElem?_eq_some.mpr h

/-- It is kept under its sender and nonce. -/
theorem FutureKept.key_eq {q : TransactionQueue} (hq : FutureKept q) {a : Address} {n : U256} {t : SignedTransaction}
    (h : (q.futureOf a)[n]? = some t) : t.key = (a, n) := by
  rw [futureOf] at h
  cases hf : q.m_future.find a with
  | none =>
    rw [hf, Option.getD_none, Std.TreeMap.getElem?_emptyc] at h
    cases h
  | some fs =>
    rw [hf] at h
    exact hq.keyed a fs hf n t h

/-- What is iterated over from a nonce is found. -/
theorem getElem?_of_mem_iterFrom {β : Type} {m : NonceMap β} {n : U256} {e : U256 × β} (h : e ∈ iterFrom m n) :
    m[e.1]? = some e.2 :=
  Std.TreeMap.mem_toList_iff_getElem?_eq_some.mp (List.mem_filter.mp h).1

/-- Nothing follows if the next nonce is not there. -/
theorem followers_eq_zero {q : TransactionQueue} (hq : FutureKept q) {t : SignedTransaction}
    (h : (q.futureOf t.from)[t.nonce + 1]? = none) : q.followers t = 0 := by
  rw [followers]
  cases hft : iterFrom (q.futureOf t.from) (t.nonce + 1) with
  | nil => rfl
  | cons e ft =>
    have he := getElem?_of_mem_iterFrom (hft ▸ List.mem_cons_self : e ∈ _)
    rw [following, if_neg]
    intro hn
    have hkey := (Prod.mk.inj (hq.key_eq he)).2
    rw [hn] at hkey
    rw [hkey, he] at h
    cases h

/-- The following transactions move from the future to the current ones. -/
theorem makeFollowing_runs {L : Library} {q : TransactionQueue} {t : SignedTransaction}
    {E : QueueError → TransactionQueue → Prop} (hq : Sound q) :
    Runs (makeFollowing L t) q (fun _ q' => Sound q' ∧ q.held.Perm q'.held ∧
      q'.m_futureSize = q.m_futureSize - q.followers t ∧ q'.m_known = q.m_known ∧ q'.m_futureLimit = q.m_futureLimit) E := by
  have hstay : (q.futureOf t.from)[t.nonce + 1]? = none → Sound q ∧ q.held.Perm q.held ∧
      q.m_futureSize = q.m_futureSize - q.followers t ∧ q.m_known = q.m_known ∧ q.m_futureLimit = q.m_futureLimit := by
    intro hnone
    rw [followers_eq_zero hq.toFutureKept hnone]
    exact ⟨hq, List.Perm.refl _, rfl, rfl, rfl⟩
  rw [makeFollowing, runs_bind, runs_get]
  cases hf : q.m_future.find t.from with
  | none =>
    refine hstay ?_
    rw [futureOf, hf]
    exact Std.TreeMap.getElem?_emptyc
  | some fs =>
    have hfs : q.futureOf t.from = fs := by rw [futureOf, hf]; rfl
    by_cases hs : (fs[t.nonce + 1]?).isSome = true
    · simp only [if_pos hs, runs_bind]
      have hsub : ((iterFrom fs (t.nonce + 1)).map Prod.snd).Sublist ((q.futureOf t.from).toList.map Prod.snd) := by
        rw [hfs]
        exact List.filter_sublist.map Prod.snd
      have hft : ∀ e ∈ iterFrom fs (t.nonce + 1), e.2.recovered.isSome = true ∧ e.2.key = (t.from, e.1) := by
        intro e he
        have he' : (q.futureOf t.from)[e.1]? = some e.2 := by rw [hfs]; exact getElem?_of_mem_iterFrom he
        exact ⟨hq.future_recovered _ (mem_future_of_getElem? he'), hq.key_eq he'⟩
      refine (promote_runs hq.toCurrentSound hft (nodup_append_transactions hq.distinct hsub)
        (nodup_append_transactions hq.hashes hsub)).mono ?_ fun e s he => he
      rintro ns q₁ ⟨rfl, hq₁, hperm₁, hsize₁, hframe⟩
      rw [runs_modify]
      have hk : following (t.nonce + 1) (iterFrom fs (t.nonce + 1)) = q.followers t := by rw [followers, hfs]
      rw [hk] at hperm₁ hsize₁ ⊢
      generalize htaken : (iterFrom fs (t.nonce + 1)).take (q.followers t) = taken at hperm₁ ⊢
      have hlen : taken.length = q.followers t := by
        rw [← htaken, List.length_take, ← hk]
        exact Nat.min_eq_left (following_le _ _)
      have hsubt : taken.Sublist fs.toList := by
        rw [← htaken]
        exact (List.take_sublist _ _).trans List.filter_sublist
      have hperm : fs.toList.Perm (taken ++ ((taken.map Prod.fst).foldl Std.TreeMap.erase fs).toList) := by
        refine toList_perm_append_foldl_erase ((nodup_keys_toList fs).sublist (hsubt.map Prod.fst)) ?_
        exact fun e he => Std.TreeMap.mem_toList_iff_getElem?_eq_some.mp (hsubt.subset he)
      generalize (taken.map Prod.fst).foldl Std.TreeMap.erase fs = fs' at hperm ⊢
      have hfuture := q.future_perm t.from
      rw [hfs] at hfuture
      have hrest : q₁.futureRest t.from = q.futureRest t.from := by rw [futureRest, futureRest, hframe.future]
      have hfuture' := q₁.setFutureOf_future_perm t.from fs'
      rw [hrest] at hfuture'
      have hheld : q.held.Perm (q₁.setFutureOf t.from fs').held := by
        have h₁ := (hfuture.trans ((hperm.map Prod.snd).append_right _)).append_left q.transactions
        rw [List.map_append, List.append_assoc] at h₁
        have h₂ := (hperm₁.append hfuture').symm
        rw [List.append_assoc] at h₂
        exact h₁.trans ((List.perm_append_comm_assoc _ _ _).trans h₂)
      have hkept : FutureKept (q₁.setFutureOf t.from fs') := by
        refine FutureKept.setFutureOf (by rw [hframe.future]; exact hq.keyed) (by rw [hframe.future]; exact hq.future_nonempty)
          ?_ ?_
        · intro n u hu
          refine hq.key_eq (hfs ▸ ?_)
          refine Std.TreeMap.mem_toList_iff_getElem?_eq_some.mp (hperm.mem_iff.mpr (List.mem_append_right _ ?_))
          exact Std.TreeMap.mem_toList_iff_getElem?_eq_some.mpr hu
        · rw [hrest, hsize₁, hq.size, hfuture.length_eq, List.length_append, List.length_map, hperm.length_eq,
            List.length_append, hlen]
          omega
      refine ⟨hq.of_drop (d := []) (hq₁.of_eq rfl rfl rfl rfl rfl) hkept hheld, hheld, hsize₁, hframe.known,
        hframe.futureLimit⟩
    · simp only [if_neg hs]
      refine hstay ?_
      rw [hfs]
      exact Option.not_isSome_iff_eq_none.mp hs

/-- A future transaction is taken out. -/
theorem eraseFuture_sound {q : TransactionQueue} {a : Address} {n : U256} {t : SignedTransaction} (hq : Sound q)
    (ht : (q.futureOf a)[n]? = some t) :
    Sound ({ q with m_futureSize := q.m_futureSize - 1 }.setFutureOf a ((q.futureOf a).erase n)) ∧
      q.held.Perm (t :: ({ q with m_futureSize := q.m_futureSize - 1 }.setFutureOf a ((q.futureOf a).erase n)).held) := by
  generalize hq₁ : ({ q with m_futureSize := q.m_futureSize - 1 } : TransactionQueue) = q₁
  have hrest : q₁.futureRest a = q.futureRest a := by rw [← hq₁]; rfl
  have hfuture := q.future_perm a
  have hperm := toList_perm_cons_erase ht
  have hfuture' := q₁.setFutureOf_future_perm a ((q.futureOf a).erase n)
  rw [hrest] at hfuture'
  have hheld : q.held.Perm ([t] ++ (q₁.setFutureOf a ((q.futureOf a).erase n)).held) := by
    have h₁ := (hfuture.trans ((hperm.map Prod.snd).append_right _)).append_left q.transactions
    have h₂ := ((List.Perm.refl q.transactions).append hfuture').symm
    rw [← hq₁] at h₂ ⊢
    exact h₁.trans (List.perm_middle.trans (h₂.cons t))
  have hkept : FutureKept (q₁.setFutureOf a ((q.futureOf a).erase n)) := by
    refine FutureKept.setFutureOf (by rw [← hq₁]; exact hq.keyed) (by rw [← hq₁]; exact hq.future_nonempty) ?_ ?_
    · intro k u hu
      refine hq.key_eq (Std.TreeMap.mem_toList_iff_getElem?_eq_some.mp (hperm.mem_iff.mpr (List.mem_cons_of_mem _ ?_)))
      exact Std.TreeMap.mem_toList_iff_getElem?_eq_some.mpr hu
    · have hlen := hperm.length_eq
      have hsize := hq.size
      rw [hfuture.length_eq, List.length_append, List.length_map, hlen, List.length_cons] at hsize
      have hsize₁ : q₁.m_futureSize = q.m_futureSize - 1 := by rw [← hq₁]
      rw [hrest, hsize₁, hsize]
      omega
  subst hq₁
  exact ⟨hq.of_drop (hq.toCurrentSound.of_eq rfl rfl rfl rfl rfl) hkept hheld, hheld⟩

/-- A future transaction is dropped. -/
theorem dropFuture_runs {L : Library} {q : TransactionQueue} {E : QueueError → TransactionQueue → Prop} (hq : Sound q)
    (hsize : 0 < q.m_futureSize) :
    Runs (dropFuture L) q (fun _ q' => Sound q' ∧ (∃ t, q.held.Perm (t :: q'.held)) ∧ q'.m_futureSize = q.m_futureSize - 1 ∧
      q'.m_known = q.m_known) E := by
  rw [dropFuture, runs_bind, runs_get]
  have hpos : 0 < q.m_future.entries.length := by
    rw [hq.size, future] at hsize
    refine List.length_pos_iff.mpr ?_
    intro hnil
    rw [hnil] at hsize
    exact absurd hsize (Nat.lt_irrefl 0)
  have hlt : L.begin q.m_future.entries.length % q.m_future.entries.length < q.m_future.entries.length := Nat.mod_lt _ hpos
  generalize L.begin q.m_future.entries.length % q.m_future.entries.length = i at hlt ⊢
  rw [List.getElem?_eq_getElem hlt]
  have hmem : q.m_future.entries[i] ∈ q.m_future.entries := List.getElem_mem hlt
  generalize q.m_future.entries[i] = e at hmem ⊢
  obtain ⟨a, m⟩ := e
  have hfind : q.m_future.find a = some m := Table.find_eq_some_iff.mpr hmem
  have hm : q.futureOf a = m := by rw [futureOf, hfind]; rfl
  simp only [← Std.TreeMap.maxKey?_eq_getLast?_keys]
  cases hk : m.maxKey? with
  | none =>
    have hempty := hq.future_nonempty a m hfind
    rw [Std.TreeMap.maxKey?_eq_none_iff.mp hk] at hempty
    cases hempty
  | some n =>
    have hn : n ∈ m := (Std.TreeMap.maxKey?_eq_some_iff_mem_and_forall.mp hk).1
    obtain ⟨t, ht⟩ := Option.isSome_iff_exists.mp (Std.TreeMap.mem_iff_isSome_getElem?.mp hn)
    simp only [runs_set]
    have h := eraseFuture_sound hq (hm ▸ ht)
    rw [hm] at h
    exact ⟨h.1, ⟨t, h.2⟩, rfl, rfl⟩

/-- The last future transactions are dropped, as many as asked for. -/
theorem dropFutures_runs {L : Library} {E : QueueError → TransactionQueue → Prop} {k : Nat} {q : TransactionQueue} (hq : Sound q)
    (hk : k ≤ q.m_futureSize) :
    Runs (dropFutures L k) q (fun _ q' => Sound q' ∧ (∃ d, q.held.Perm (d ++ q'.held) ∧ d.length = k) ∧ q'.m_known = q.m_known) E := by
  induction k generalizing q with
  | zero => exact ⟨hq, ⟨[], List.Perm.refl _, rfl⟩, rfl⟩
  | succ k ih =>
    rw [dropFutures, runs_bind]
    refine (dropFuture_runs hq (Nat.lt_of_lt_of_le (Nat.succ_pos k) hk)).mono ?_ fun e s he => he
    rintro - q₁ ⟨hq₁, ⟨t, ht⟩, hsize, hknown⟩
    refine (ih hq₁ (by omega)).mono ?_ fun e s he => he
    rintro - q₂ ⟨hq₂, ⟨d, hd, hlen⟩, hknown₂⟩
    exact ⟨hq₂, ⟨t :: d, ht.trans (hd.cons t), by simp [hlen]⟩, hknown₂.trans hknown⟩

/-- How many future transactions are too many once those that follow on a transaction have left. -/
def overflow (q : TransactionQueue) (t : SignedTransaction) : Nat := q.m_futureSize - q.followers t - q.m_futureLimit

/-- `makeCurrent_WITH_LOCK` drops transactions only if there are too many. -/
theorem makeCurrent_runs {L : Library} {q : TransactionQueue} {t : SignedTransaction} {E : QueueError → TransactionQueue → Prop}
    (hq : Sound q) :
    Runs (makeCurrent_WITH_LOCK L t) q (fun _ q' => Sound q' ∧
      (∃ d, q.held.Perm (d ++ q'.held) ∧ d.length = q.overflow t) ∧ q'.m_known = q.m_known) E := by
  rw [makeCurrent_WITH_LOCK, runs_bind]
  refine (makeFollowing_runs hq).mono ?_ fun e s he => he
  rintro - q₁ ⟨hq₁, hheld, hsize, hknown, hlimit⟩
  rw [runs_bind, runs_get, hsize, hlimit]
  refine (dropFutures_runs hq₁ (by omega)).mono ?_ fun e s he => he
  rintro - q₂ ⟨hq₂, ⟨d, hd, hlen⟩, hknown₂⟩
  exact ⟨hq₂, ⟨d, hheld.trans hd, hlen⟩, hknown₂.trans hknown⟩

/-! ## Taking a transaction out of `m_current` -/

/-- A handle of a current transaction leads to it. -/
theorem deref_runs {q : TransactionQueue} (hq : (q.m_current.toList.map VerifiedTransaction.handle).Nodup) {v : VerifiedTransaction}
    (hv : v ∈ q.m_current.toList) {Q : VerifiedTransaction → TransactionQueue → Prop} {E : QueueError → TransactionQueue → Prop} :
    Runs (deref (some v.handle)) q Q E ↔ Q v q := by
  have he : q.element v.handle = some v := find?_key_eq hq hv
  rw [deref, runs_bind, runs_get, Option.bind_some, he, runs_pure]

/-- Elements with one hash are one. -/
theorem Indexed.eq_of_sha3_eq {q : TransactionQueue} (hq : Indexed q) {v w : VerifiedTransaction} (hv : v ∈ q.m_current.toList)
    (hw : w ∈ q.m_current.toList) (h : v.transaction.sha3 = w.transaction.sha3) : v = w := by
  have hv' := (hq.byHash _ _).mpr ⟨v, hv, rfl, rfl⟩
  have hw' := (hq.byHash _ _).mpr ⟨w, hw, rfl, rfl⟩
  rw [h, hw'] at hv'
  exact List.inj_on_of_nodup_map hq.handles hv hw (Option.some.inj hv').symm

/-- Elements with one sender and nonce are one. -/
theorem Indexed.eq_of_key_eq {q : TransactionQueue} (hq : Indexed q) {v w : VerifiedTransaction} (hv : v ∈ q.m_current.toList)
    (hw : w ∈ q.m_current.toList) (h : v.transaction.key = w.transaction.key) : v = w := by
  have hv' := (hq.byNonce v.transaction.from v.transaction.nonce _).mpr ⟨v, hv, rfl, rfl⟩
  have hw' := (hq.byNonce v.transaction.from v.transaction.nonce _).mpr ⟨w, hw, rfl, h.symm⟩
  rw [hw'] at hv'
  exact List.inj_on_of_nodup_map hq.handles hv hw (Option.some.inj (Option.some.inj hv')).symm

/-- Elements are taken out of `m_current` and its indices. -/
theorem CurrentSound.erased {q q' : TransactionQueue} {gone : VerifiedTransaction → Bool} (hq : CurrentSound q)
    (hlist : q'.m_current.toList = q.m_current.toList.filter fun v => !gone v)
    (hbyHash : ∀ h i, q'.m_currentByHash h = some i ↔
      q.m_currentByHash h = some i ∧ ∀ v ∈ q.m_current.toList, v.transaction.sha3 = h → gone v = false)
    (hnonces : ∀ a (n : U256) it, (q'.nonces a)[n]? = some it ↔
      (q.nonces a)[n]? = some it ∧ ∀ v ∈ q.m_current.toList, v.transaction.key = (a, n) → gone v = false)
    (hnonempty : ∀ a m, q'.m_currentByAddressAndNonce a = some m → m.isEmpty = false) (hnext : q'.nextHandle = q.nextHandle)
    (hdis : q'.disordered = q.disordered) : CurrentSound q' := by
  have hsub : q'.m_current.toList.Sublist q.m_current.toList := by
    rw [hlist]
    exact List.filter_sublist
  have hmem : ∀ v, v ∈ q'.m_current.toList ↔ v ∈ q.m_current.toList ∧ gone v = false := by
    intro v
    rw [hlist, List.mem_filter, Bool.not_eq_true']
  refine ⟨⟨hq.handles.sublist (hsub.map _), ?_, ?_, hnonempty⟩, fun v hv => hq.recovered v (hsub.subset hv), ?_, ?_⟩
  · intro h i
    rw [hbyHash, hq.byHash]
    refine ⟨?_, ?_⟩
    · rintro ⟨⟨v, hv, hi, hh⟩, hgone⟩
      exact ⟨v, (hmem v).mpr ⟨hv, hgone v hv hh⟩, hi, hh⟩
    · rintro ⟨v, hv, hi, hh⟩
      obtain ⟨hv, hgone⟩ := (hmem v).mp hv
      refine ⟨⟨v, hv, hi, hh⟩, ?_⟩
      intro w hw hhw
      rw [hq.eq_of_sha3_eq hw hv (hhw.trans hh.symm)]
      exact hgone
  · intro a n it
    rw [hnonces, hq.byNonce]
    refine ⟨?_, ?_⟩
    · rintro ⟨⟨v, hv, hi, hk⟩, hgone⟩
      exact ⟨v, (hmem v).mpr ⟨hv, hgone v hv hk⟩, hi, hk⟩
    · rintro ⟨v, hv, hi, hk⟩
      obtain ⟨hv, hgone⟩ := (hmem v).mp hv
      refine ⟨⟨v, hv, hi, hk⟩, ?_⟩
      intro w hw hkw
      rw [hq.eq_of_key_eq hw hv (hkw.trans hk.symm)]
      exact hgone
  · intro v hv
    rw [hnext]
    exact hq.fresh v (hsub.subset hv)
  · intro hd
    exact (hq.ordered (hdis ▸ hd)).sublist (hsub.map _)

/-- A map that is kept unless it is empty finds what it had. -/
theorem getElem?_unlessEmpty {β : Type} (m : NonceMap β) (n : U256) : ((unlessEmpty m).getD ∅)[n]? = m[n]? := by
  rw [unlessEmpty]
  by_cases hm : m.isEmpty = true
  · rw [if_pos hm, Option.getD_none, Std.TreeMap.getElem?_emptyc, Std.TreeMap.getElem?_of_isEmpty hm]
  · rw [if_neg hm, Option.getD_some]

/-- A map that is kept is not empty. -/
theorem isEmpty_of_unlessEmpty {β : Type} {m m' : NonceMap β} (h : unlessEmpty m = some m') : m'.isEmpty = false := by
  rw [unlessEmpty] at h
  split at h
  · cases h
  · cases h
    exact Bool.eq_false_iff.mpr ‹_›

/-- The queue without the element `v`. -/
structure Removed (q q' : TransactionQueue) (v : VerifiedTransaction) : Prop where
  mem : v ∈ q.m_current.toList
  sound : Sound q'
  held : q.held.Perm (v.transaction :: q'.held)
  known : q'.m_known = Function.update q.m_known v.transaction.sha3 false
  future : q'.m_future = q.m_future
  futureSize : q'.m_futureSize = q.m_futureSize
  futureLimit : q'.m_futureLimit = q.m_futureLimit
  currentSize : q.currentSize = q'.currentSize + 1

/-- A removal keeps the queue sound. -/
theorem Sound.removed {q q' : TransactionQueue} {v : VerifiedTransaction} {m : NonceMap (Option Nat)} (hq : Sound q)
    (hv : v ∈ q.m_current.toList) (hm : q.m_currentByAddressAndNonce v.transaction.from = some m)
    (hlist : q'.m_current.toList = q.m_current.toList.filter fun w => !decide (w.handle = v.handle))
    (hbyHash : q'.m_currentByHash = Function.update q.m_currentByHash v.transaction.sha3 none)
    (hbyNonce : q'.m_currentByAddressAndNonce =
      Function.update q.m_currentByAddressAndNonce v.transaction.from (unlessEmpty (m.erase v.transaction.nonce)))
    (hknown : q'.m_known = Function.update q.m_known v.transaction.sha3 false) (hfuture : q'.m_future = q.m_future)
    (hsize : q'.m_futureSize = q.m_futureSize) (hlimit : q'.m_futureLimit = q.m_futureLimit)
    (hnext : q'.nextHandle = q.nextHandle) (hdis : q'.disordered = q.disordered) : Removed q q' v := by
  have hm' : q.nonces v.transaction.from = m := by rw [nonces, hm]; rfl
  have hc : CurrentSound q' := by
    refine hq.toCurrentSound.erased hlist ?_ ?_ ?_ hnext hdis
    · intro h i
      rw [hbyHash]
      by_cases hh : h = v.transaction.sha3
      · rw [hh, Function.update_self]
        refine ⟨nofun, ?_⟩
        rintro ⟨-, hgone⟩
        exact absurd (hgone v hv rfl) (by simp)
      · rw [Function.update_of_ne hh]
        refine ⟨fun hi => ⟨hi, ?_⟩, fun hi => hi.1⟩
        rintro w hw rfl
        refine decide_eq_false fun hwv => hh ?_
        rw [List.inj_on_of_nodup_map hq.handles hw hv hwv]
    · intro a n it
      have hentry : (q'.nonces a)[n]? = if v.transaction.key = (a, n) then none else (q.nonces a)[n]? := by
        rw [nonces_of_update hbyNonce]
        by_cases ha : a = v.transaction.from
        · rw [if_pos ha, getElem?_unlessEmpty, Std.TreeMap.getElem?_erase, ha, hm']
          simp [SignedTransaction.key]
        · rw [if_neg ha, if_neg (show v.transaction.key ≠ (a, n) from fun h => ha (Prod.mk.inj h).1.symm)]
      rw [hentry]
      by_cases hk : v.transaction.key = (a, n)
      · rw [if_pos hk]
        refine ⟨nofun, ?_⟩
        rintro ⟨-, hgone⟩
        exact absurd (hgone v hv hk) (by simp)
      · rw [if_neg hk]
        refine ⟨fun hi => ⟨hi, ?_⟩, fun hi => hi.1⟩
        intro w hw hkw
        refine decide_eq_false fun hwv => hk ?_
        rw [← List.inj_on_of_nodup_map hq.handles hw hv hwv]
        exact hkw
    · intro a m' hma
      rw [hbyNonce] at hma
      by_cases ha : a = v.transaction.from
      · rw [ha, Function.update_self] at hma
        exact isEmpty_of_unlessEmpty hma
      · rw [Function.update_of_ne ha] at hma
        exact hq.nonces_nonempty a m' hma
  have hperm := perm_cons_filter_key hq.handles hv
  have hfuture' : q'.future = q.future := by rw [future, future, hfuture]
  have hheld : q.held.Perm ([v.transaction] ++ q'.held) := by
    have h := (hperm.map VerifiedTransaction.transaction).append_right q.future
    rw [← hlist] at h
    rw [held, held, hfuture']
    exact h
  have hkept : FutureKept q' := ⟨hfuture ▸ hq.keyed, hfuture ▸ hq.future_nonempty, by rw [hsize, hq.size, hfuture']⟩
  refine ⟨hv, hq.of_drop hc hkept hheld, hheld, hknown, hfuture, hsize, hlimit, ?_⟩
  rw [currentSize, currentSize, hlist, hperm.length_eq, List.length_cons]

/-- `remove_WITH_LOCK` of the hash of an element. -/
theorem remove_runs {L : Library} {q : TransactionQueue} {v : VerifiedTransaction} {E : QueueError → TransactionQueue → Prop}
    (hq : Sound q) (hv : v ∈ q.m_current.toList) :
    Runs (remove_WITH_LOCK L v.transaction.sha3) q (fun b q' => b = true ∧ Removed q q' v) E := by
  have hhash := (hq.byHash _ _).mpr ⟨v, hv, rfl, rfl⟩
  have hnonce : (q.nonces v.transaction.from)[v.transaction.nonce]? = some (some v.handle) :=
    (hq.byNonce _ _ _).mpr ⟨v, hv, rfl, rfl⟩
  rw [remove_WITH_LOCK, runs_bind, runs_get, hhash]
  simp only [runs_bind, deref_runs hq.handles hv, runs_get]
  cases hm : q.m_currentByAddressAndNonce v.transaction.from with
  | none =>
    rw [nonces, hm, Option.getD_none, Std.TreeMap.getElem?_emptyc] at hnonce
    cases hnonce
  | some m =>
    simp only [runs_bind, runs_modify, runs_pure, true_and]
    exact hq.removed hv hm (Balance.erase_toList _ _ _) rfl rfl rfl rfl rfl rfl rfl rfl

end TransactionQueue

end Webthree
