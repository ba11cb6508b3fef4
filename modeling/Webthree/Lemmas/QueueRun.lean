import Webthree.Lemmas.TransactionQueue

/-!
# Runs of the transaction queue

What the operations do to the transactions held and to `m_known`, from `import` to a run of any operations.
-/

namespace Webthree

namespace TransactionQueue

/-! ## Importing -/

/-- The queue has lost some transactions, and `m_known` their hashes. -/
structure Forgets (q q' : TransactionQueue) (d : List SignedTransaction) : Prop where
  sound : Sound q'
  held : q.held.Perm (d ++ q'.held)
  known : ∀ h, q'.m_known h = true ↔ q.m_known h = true ∧ h ∉ d.map SignedTransaction.sha3

/-- Nothing is forgotten when nothing happens. -/
theorem Forgets.refl {q : TransactionQueue} (hq : Sound q) : Forgets q q [] :=
  ⟨hq, List.Perm.refl _, fun h => by simp⟩

/-- What is forgotten in two steps is what each of them forgets. -/
theorem Forgets.trans {q₁ q₂ q₃ : TransactionQueue} {d d' : List SignedTransaction} (h : Forgets q₁ q₂ d) (h' : Forgets q₂ q₃ d') :
    Forgets q₁ q₃ (d ++ d') := by
  refine ⟨h'.sound, ?_, ?_⟩
  · rw [List.append_assoc]
    exact h.held.trans (h'.held.append_left d)
  · intro x
    rw [h'.known, h.known, List.map_append, List.mem_append, not_or, and_assoc]

/-- A removal forgets the transaction that is removed. -/
theorem Removed.forgets {q q' : TransactionQueue} {v : VerifiedTransaction} (h : Removed q q' v) : Forgets q q' [v.transaction] := by
  refine ⟨h.sound, h.held, ?_⟩
  intro x
  rw [h.known, Function.update_apply]
  by_cases hx : x = v.transaction.sha3
  · simp [hx]
  · simp [hx]

/-- The loop that drops transactions out of bounds comes to an end. -/
theorem dropOutOfBounds_runs {L : Library} {E : QueueError → TransactionQueue → Prop} {turns : Nat} {q : TransactionQueue}
    (hq : Sound q) (hturns : q.currentSize < turns) :
    Runs (dropOutOfBounds L turns) q (fun _ q' => ∃ d, Forgets q q' d) E := by
  induction turns generalizing q with
  | zero => exact absurd hturns (Nat.not_lt_zero _)
  | succ turns ih =>
    rw [dropOutOfBounds, runs_bind, runs_get]
    by_cases hsize : q.currentSize > q.m_limit
    · rw [if_pos hsize]
      cases hlast : q.m_current.toList.getLast? with
      | none =>
        rw [List.getLast?_eq_none_iff] at hlast
        rw [currentSize, hlast] at hsize
        exact absurd hsize (Nat.not_lt_zero _)
      | some v =>
        simp only [runs_bind]
        refine (remove_runs hq (List.mem_of_getLast? hlast)).mono ?_ fun e s he => he
        rintro b q₁ ⟨-, hq₁⟩
        have hless : q₁.currentSize < turns := by
          have := hq₁.currentSize
          omega
        refine (ih hq₁.sound hless).mono ?_ fun e s he => he
        rintro - q₂ ⟨d, hd⟩
        exact ⟨_, hq₁.forgets.trans hd⟩
    · rw [if_neg hsize, runs_pure]
      exact ⟨[], Forgets.refl hq⟩

/-- A new transaction is put into the queue. -/
theorem insertCurrent_runs {L : Library} {q : TransactionQueue} {t : SignedTransaction} {E : QueueError → TransactionQueue → Prop}
    (hq : Sound q) (ht : t.recovered.isSome = true) (hkey : t.key ∉ q.held.map SignedTransaction.key)
    (hhash : t.sha3 ∉ q.held.map SignedTransaction.sha3) :
    Runs (insertCurrent_WITH_LOCK L t.sha3 t) q (fun _ q' => Sound q' ∧
      (∃ d, (t :: q.held).Perm (d ++ q'.held) ∧ d.length = q.overflow t) ∧
      q'.m_known = Function.update q.m_known t.sha3 true) E := by
  have hnone : q.m_currentByHash t.sha3 = none := by
    cases hi : q.m_currentByHash t.sha3 with
    | none => rfl
    | some i =>
      obtain ⟨v, hv, -, hsha⟩ := (hq.byHash _ _).mp hi
      refine absurd (List.mem_map.mpr ⟨v.transaction, ?_, hsha⟩) hhash
      exact List.mem_append_left _ (List.mem_map_of_mem hv)
  rw [insertCurrent_WITH_LOCK, runs_bind, runs_get, hnone]
  simp only [Option.isSome_none, Bool.false_eq_true, if_false, runs_bind]
  rw [held, List.map_append, List.mem_append, not_or] at hkey hhash
  refine (place_runs hq.toCurrentSound ht hkey.1 hhash.1).mono ?_ fun e s he => he
  rintro - q₁ ⟨hc₁, hperm₁, hsize₁, hframe₁⟩
  have hfuture : q₁.future = q.future := by rw [future, future, hframe₁.future]
  have hheld : q₁.held.Perm (t :: q.held) := by
    rw [held, held, hfuture]
    exact hperm₁.append_right q.future
  have hq₁ : Sound q₁ := by
    refine ⟨⟨hc₁.toIndexed, ⟨hframe₁.future ▸ hq.keyed, hframe₁.future ▸ hq.future_nonempty, ?_⟩, ?_⟩, hc₁.recovered, hc₁.fresh,
      hc₁.ordered, hfuture ▸ hq.future_recovered, ?_⟩
    · rw [hsize₁, hq.size, hfuture]
    · refine (hheld.map _).nodup_iff.mpr (List.nodup_cons.mpr ⟨?_, hq.distinct⟩)
      rw [held, List.map_append, List.mem_append, not_or]
      exact hkey
    · refine (hheld.map _).nodup_iff.mpr (List.nodup_cons.mpr ⟨?_, hq.hashes⟩)
      rw [held, List.map_append, List.mem_append, not_or]
      exact hhash
  have hover : q₁.overflow t = q.overflow t := by
    rw [overflow, overflow, followers, followers, futureOf, futureOf, hsize₁, hframe₁.future, hframe₁.futureLimit]
  refine (makeCurrent_runs hq₁).mono ?_ fun e s he => he
  rintro - q₂ ⟨hq₂, ⟨d, hd, hlen⟩, hknown⟩
  rw [know, runs_modify]
  refine ⟨?_, ⟨d, hheld.symm.trans hd, hlen.trans hover⟩, ?_⟩
  · exact hq₂.of_drop (d := []) (hq₂.toCurrentSound.of_eq rfl rfl rfl rfl rfl) ⟨hq₂.keyed, hq₂.future_nonempty, hq₂.size⟩
      (List.Perm.refl _)
  · rw [hknown, hframe₁.known]

/-- There is a prior transaction with the same sender and nonce and a higher gas price. -/
def Outbid (q : TransactionQueue) (t : SignedTransaction) : Prop :=
  ∃ u ∈ q.held, u.key = t.key ∧ t.gasPrice < u.gasPrice

/-- There is a future transaction with the same sender and nonce and a gas price that is not higher. -/
def ReplacesFuture (q : TransactionQueue) (t : SignedTransaction) : Prop :=
  ∃ u ∈ q.future, u.key = t.key ∧ ¬t.gasPrice < u.gasPrice

instance (q : TransactionQueue) (t : SignedTransaction) : Decidable (q.Outbid t) :=
  inferInstanceAs (Decidable (∃ u ∈ q.held, u.key = t.key ∧ t.gasPrice < u.gasPrice))

instance (q : TransactionQueue) (t : SignedTransaction) : Decidable (q.ReplacesFuture t) :=
  inferInstanceAs (Decidable (∃ u ∈ q.future, u.key = t.key ∧ ¬t.gasPrice < u.gasPrice))

/-- A prior current transaction is removed, unless its gas price is higher. -/
theorem replaceCurrent_runs {L : Library} {q : TransactionQueue} {t : SignedTransaction} {E : QueueError → TransactionQueue → Prop}
    (hq : Sound q) :
    Runs (replaceCurrent L t) q (fun b q' => b = false ∧ q' = q ∧ q.Outbid t ∨
      b = true ∧ t.key ∉ q'.transactions.map SignedTransaction.key ∧ q'.m_future = q.m_future ∧ q'.overflow t = q.overflow t ∧
        (∃ d, Forgets q q' d) ∧ (∀ u ∈ q.transactions, u.key = t.key → ¬t.gasPrice < u.gasPrice)) E := by
  rw [replaceCurrent, runs_bind, runs_get]
  have hentry : (q.m_currentByAddressAndNonce t.from).bind (fun m => m[t.nonce]?) = (q.nonces t.from)[t.nonce]? := by
    rw [nonces]
    cases q.m_currentByAddressAndNonce t.from with
    | none => exact Std.TreeMap.getElem?_emptyc.symm
    | some m => rfl
  rw [hentry]
  cases hn : (q.nonces t.from)[t.nonce]? with
  | none =>
    have hkey : ∀ u ∈ q.transactions, u.key ≠ t.key := by
      intro u hu hk
      obtain ⟨v, hv, rfl⟩ := List.mem_map.mp hu
      have := (hq.byNonce t.from t.nonce _).mpr ⟨v, hv, rfl, hk⟩
      rw [hn] at this
      cases this
    simp only [runs_pure]
    refine .inr ⟨trivial, ?_, trivial, trivial, ⟨[], Forgets.refl hq⟩, fun u hu hk => absurd hk (hkey u hu)⟩
    intro hm
    obtain ⟨u, hu, hk⟩ := List.mem_map.mp hm
    exact hkey u hu hk
  | some it =>
    obtain ⟨v, hv, rfl, hk⟩ := (hq.byNonce _ _ _).mp hn
    have hmem : v.transaction ∈ q.transactions := List.mem_map_of_mem hv
    simp only [runs_bind, deref_runs hq.handles hv]
    by_cases hprice : t.gasPrice < v.transaction.gasPrice
    · simp only [if_pos hprice, runs_pure]
      exact .inl ⟨trivial, trivial, v.transaction, List.mem_append_left _ hmem, hk, hprice⟩
    · simp only [if_neg hprice, runs_bind]
      refine (remove_runs hq hv).mono ?_ fun e s he => he
      rintro b q₁ ⟨-, hq₁⟩
      simp only [runs_pure]
      refine .inr ⟨trivial, ?_, hq₁.future, ?_, ⟨_, hq₁.forgets⟩, ?_⟩
      · have hnodup := (hq₁.held.map SignedTransaction.key).nodup_iff.mp hq.distinct
        rw [List.map_cons, List.nodup_cons, hk] at hnodup
        intro hm
        refine hnodup.1 ?_
        rw [held, List.map_append]
        exact List.mem_append_left _ hm
      · rw [overflow, overflow, followers, followers, futureOf, futureOf, hq₁.future, hq₁.futureSize, hq₁.futureLimit]
      · intro u hu hku
        obtain ⟨w, hw, rfl⟩ := List.mem_map.mp hu
        rw [hq.eq_of_key_eq hw hv (hku.trans hk.symm)]
        exact hprice

/-- A future transaction is found under its sender and nonce. -/
theorem FutureKept.getElem?_futureOf {q : TransactionQueue} (hq : FutureKept q) {t : SignedTransaction} (ht : t ∈ q.future) :
    (q.futureOf t.from)[t.nonce]? = some t := by
  obtain ⟨⟨a, m⟩, he, ht⟩ := List.mem_flatMap.mp ht
  obtain ⟨⟨n, t'⟩, hn, rfl⟩ := List.mem_map.mp ht
  have hfind := Table.find_eq_some_iff.mpr he
  have hn := Std.TreeMap.mem_toList_iff_getElem?_eq_some.mp hn
  obtain ⟨rfl, rfl⟩ := Prod.mk.inj (hq.keyed a m hfind n t' hn)
  rw [futureOf, hfind]
  exact hn

/-- No future transaction has a sender and nonce that are not found. -/
theorem FutureKept.key_notMem {q : TransactionQueue} (hq : FutureKept q) {t : SignedTransaction}
    (ht : (q.futureOf t.from)[t.nonce]? = none) : t.key ∉ q.future.map SignedTransaction.key := by
  intro hm
  obtain ⟨u, hu, hk⟩ := List.mem_map.mp hm
  have h := hq.getElem?_futureOf hu
  obtain ⟨hfrom, hnonce⟩ := Prod.mk.inj hk
  rw [hfrom, hnonce, ht] at h
  cases h

/-- A prior future transaction is removed, unless its gas price is higher. -/
theorem replaceFuture_runs {q : TransactionQueue} {t : SignedTransaction} {E : QueueError → TransactionQueue → Prop}
    (hq : Sound q) :
    Runs (replaceFuture t) q (fun b q' => b = false ∧ q' = q ∧ q.Outbid t ∨
      b = true ∧ t.key ∉ q'.future.map SignedTransaction.key ∧ Sound q' ∧ q'.transactions = q.transactions ∧
        q'.m_known = q.m_known ∧ (∃ d, q.held.Perm (d ++ q'.held)) ∧ (¬q.ReplacesFuture t → q' = q) ∧
        ∀ u ∈ q.future, u.key = t.key → ¬t.gasPrice < u.gasPrice) E := by
  have hstay : (q.futureOf t.from)[t.nonce]? = none → t.key ∉ q.future.map SignedTransaction.key ∧ Sound q ∧
      q.transactions = q.transactions ∧ q.m_known = q.m_known ∧ (∃ d, q.held.Perm (d ++ q.held)) ∧
      (¬q.ReplacesFuture t → q = q) ∧ ∀ u ∈ q.future, u.key = t.key → ¬t.gasPrice < u.gasPrice := by
    intro h
    refine ⟨hq.key_notMem h, hq, rfl, rfl, ⟨[], List.Perm.refl _⟩, fun _ => rfl, ?_⟩
    intro u hu hk
    exact absurd (List.mem_map.mpr ⟨u, hu, hk⟩) (hq.key_notMem h)
  rw [replaceFuture, runs_bind, runs_get]
  cases hf : q.m_future.find t.from with
  | none =>
    refine .inr ⟨rfl, hstay ?_⟩
    rw [futureOf, hf]
    exact Std.TreeMap.getElem?_emptyc
  | some fs =>
    have hfs : q.futureOf t.from = fs := by rw [futureOf, hf]; rfl
    rw [hfs] at hstay
    cases hn : fs[t.nonce]? with
    | none =>
      simp only [hn]
      exact .inr ⟨rfl, hstay hn⟩
    | some prior =>
      have hprior : (q.futureOf t.from)[t.nonce]? = some prior := by rw [hfs, hn]
      have hkey : prior.key = t.key := hq.key_eq hprior
      have hmem := mem_future_of_getElem? hprior
      simp only [hn]
      by_cases hprice : t.gasPrice < prior.gasPrice
      · simp only [if_pos hprice, runs_pure]
        exact .inl ⟨trivial, trivial, prior, List.mem_append_right _ hmem, hkey, hprice⟩
      · simp only [if_neg hprice, runs_bind, runs_modify, runs_pure]
        obtain ⟨hsound, hperm⟩ := eraseFuture_sound hq hprior
        rw [hfs] at hsound hperm
        refine .inr ⟨trivial, ?_, hsound, rfl, rfl, ⟨[prior], hperm⟩, ?_, ?_⟩
        · refine hsound.key_notMem ?_
          rw [futureOf, find_setFutureOf, if_pos rfl, getElem?_unlessEmpty, Std.TreeMap.getElem?_erase_self]
        · exact fun h => absurd ⟨prior, hmem, hkey, hprice⟩ h
        · intro u hu hk
          have hu' := hq.getElem?_futureOf hu
          obtain ⟨hfrom, hnonce⟩ := Prod.mk.inj hk
          rw [hfrom, hnonce, hprior] at hu'
          rw [← Option.some.inj hu']
          exact hprice

/-- Every transaction held is known. -/
def HeldKnown (q : TransactionQueue) : Prop := ∀ t ∈ q.held, q.m_known t.sha3 = true

/-- Every known hash is that of a transaction held. -/
def KnownHeld (q : TransactionQueue) : Prop := ∀ h, q.m_known h = true → ∃ t ∈ q.held, t.sha3 = h

/-- To forget transactions keeps what is held known. -/
theorem Forgets.heldKnown {q q' : TransactionQueue} {d : List SignedTransaction} (h : Forgets q q' d) (hq : Sound q)
    (hk : HeldKnown q) : HeldKnown q' := by
  intro t ht
  refine (h.known _).mpr ⟨hk t (h.held.mem_iff.mpr (List.mem_append_right _ ht)), ?_⟩
  have hnodup := (h.held.map SignedTransaction.sha3).nodup_iff.mp hq.hashes
  rw [List.map_append] at hnodup
  exact fun hd => List.disjoint_of_nodup_append hnodup hd (List.mem_map_of_mem ht)

/-- To forget transactions keeps what is known held. -/
theorem Forgets.knownHeld {q q' : TransactionQueue} {d : List SignedTransaction} (h : Forgets q q' d) (hk : KnownHeld q) :
    KnownHeld q' := by
  intro x hx
  obtain ⟨hx, hd⟩ := (h.known x).mp hx
  obtain ⟨t, ht, rfl⟩ := hk x hx
  rcases List.mem_append.mp (h.held.mem_iff.mp ht) with ht | ht
  · exact absurd (List.mem_map_of_mem ht) hd
  · exact ⟨t, ht, rfl⟩

/-- What an import must not meet for `m_known` to stay exact: a future transaction that it replaces, and too many future
transactions once it is in the queue. -/
def CleanImport (q : TransactionQueue) (t : SignedTransaction) : Prop :=
  ¬q.ReplacesFuture t ∧ (¬q.Outbid t → q.overflow t = 0)

instance (q : TransactionQueue) (t : SignedTransaction) : Decidable (q.CleanImport t) :=
  inferInstanceAs (Decidable (¬q.ReplacesFuture t ∧ (¬q.Outbid t → q.overflow t = 0)))

/-- The import of a new transaction with a valid signature. -/
theorem manageImport_runs {L : Library} {q : TransactionQueue} {t : SignedTransaction} {E : QueueError → TransactionQueue → Prop}
    (hq : Sound q) (hk : HeldKnown q) (ht : t.recovered.isSome = true) (hnew : q.m_known t.sha3 = false) :
    Runs (manageImport L t.sha3 t) q (fun _ q' => Sound q' ∧ HeldKnown q' ∧
      (q.CleanImport t → KnownHeld q → KnownHeld q')) E := by
  simp only [manageImport, ne_eq, not_true_eq_false, if_false, runs_bind]
  refine (replaceCurrent_runs hq).mono ?_ fun e s he => he
  rintro b q₁ (⟨rfl, rfl, -⟩ | ⟨rfl, hkey₁, hfuture₁, hover₁, ⟨d₁, hd₁⟩, hprice₁⟩)
  · exact ⟨hq, hk, fun _ h => h⟩
  have hk₁ := hd₁.heldKnown hq hk
  have hnew₁ : q₁.m_known t.sha3 = false := by
    refine Bool.eq_false_iff.mpr fun h => ?_
    rw [((hd₁.known _).mp h).1] at hnew
    cases hnew
  simp only [Bool.not_true, Bool.false_eq_true, if_false, runs_bind]
  refine (replaceFuture_runs hd₁.sound).mono ?_ fun e s he => he
  rintro b q₂ (⟨rfl, rfl, -⟩ | ⟨rfl, hkey₂, hq₂, hsame₂, hknown₂, ⟨d₂, hd₂⟩, hclean₂, hprice₂⟩)
  · exact ⟨hd₁.sound, hk₁, fun _ h => hd₁.knownHeld h⟩
  have hkey : t.key ∉ q₂.held.map SignedTransaction.key := by
    rw [held, List.map_append, List.mem_append, not_or, hsame₂]
    exact ⟨hkey₁, hkey₂⟩
  have hk₂ : HeldKnown q₂ := by
    intro u hu
    rw [hknown₂]
    exact hk₁ u (hd₂.mem_iff.mpr (List.mem_append_right _ hu))
  have hhash : t.sha3 ∉ q₂.held.map SignedTransaction.sha3 := by
    intro hm
    obtain ⟨u, hu, hsha⟩ := List.mem_map.mp hm
    have := hk₂ u hu
    rw [hsha, hknown₂, hnew₁] at this
    cases this
  simp only [Bool.not_true, Bool.false_eq_true, if_false, runs_bind, runs_get]
  refine (insertCurrent_runs hq₂ ht hkey hhash).mono ?_ fun e s he => he
  rintro - q₃ ⟨hq₃, ⟨d₃, hd₃, hlen₃⟩, hknown₃⟩
  refine (dropOutOfBounds_runs hq₃ (Nat.lt_succ_self _)).mono ?_ fun e s he => he
  rintro - q₄ ⟨d₄, hd₄⟩
  rw [runs_pure]
  refine ⟨hd₄.sound, hd₄.heldKnown hq₃ ?_, ?_⟩
  · intro u hu
    rw [hknown₃, Function.update_apply]
    split
    · rfl
    · rename_i hne
      rcases List.mem_cons.mp (hd₃.mem_iff.mpr (List.mem_append_right _ hu)) with rfl | hu
      · exact absurd rfl hne
      · exact hk₂ u hu
  · rintro ⟨hreplace, hoverflow⟩ hkh
    refine hd₄.knownHeld ?_
    have hfuture : q₁.future = q.future := by rw [future, future, hfuture₁]
    have heq : q₂ = q₁ := hclean₂ fun ⟨u, hu, h⟩ => hreplace ⟨u, hfuture ▸ hu, h⟩
    subst heq
    have hzero : q₂.overflow t = 0 := by
      refine hover₁.trans (hoverflow ?_)
      rintro ⟨u, hu, hku, hlt⟩
      rcases List.mem_append.mp hu with hu | hu
      · exact hprice₁ u hu hku hlt
      · exact hprice₂ u (hfuture ▸ hu) hku hlt
    rw [hzero, List.length_eq_zero_iff] at hlen₃
    subst hlen₃
    intro h hh
    rw [hknown₃, Function.update_apply] at hh
    split at hh
    · rename_i he
      exact ⟨t, hd₃.mem_iff.mp List.mem_cons_self, he.symm⟩
    · obtain ⟨u, hu, hsha⟩ := hd₁.knownHeld hkh h hh
      exact ⟨u, hd₃.mem_iff.mp (List.mem_cons_of_mem _ hu), hsha⟩

/-! ## Demotion -/

/-- The transactions in `vs` have moved to the future transactions of the sender, but their nonces are still in the index. -/
structure Demoted (q q' : TransactionQueue) (a : Address) (vs : List VerifiedTransaction) : Prop where
  list : q'.m_current.toList = q.m_current.toList.filter fun w => !decide (w ∈ vs)
  byHash : ∀ h, q'.m_currentByHash h = if h ∈ vs.map (fun v => v.transaction.sha3) then none else q.m_currentByHash h
  byNonce : q'.m_currentByAddressAndNonce = q.m_currentByAddressAndNonce
  futureOf : (q'.futureOf a).toList.Perm (vs.map (fun v => (v.transaction.nonce, v.transaction)) ++ (q.futureOf a).toList)
  find : q'.m_future.find a = some (q'.futureOf a)
  find_of_ne : ∀ b, b ≠ a → q'.m_future.find b = q.m_future.find b
  rest : q'.futureRest a = q.futureRest a
  size : q'.m_futureSize = q.m_futureSize + vs.length
  known : q'.m_known = q.m_known
  next : q'.nextHandle = q.nextHandle
  disordered : q'.disordered = q.disordered

/-- The state after one turn of the loop. -/
theorem Demoted.cons {L : Library} {q q' : TransactionQueue} {a : Address} {v : VerifiedTransaction} {vs : List VerifiedTransaction}
    (hv : v ∈ q.m_current.toList) (hhandles : (q.m_current.toList.map VerifiedTransaction.handle).Nodup)
    (hnew : (q.futureOf a)[v.transaction.nonce]? = none)
    (h : Demoted { eraseCurrent L q v.handle with
        m_currentByHash := Function.update q.m_currentByHash v.transaction.sha3 none
        m_future := q.m_future.set a (((q.m_future.find a).getD ∅).insertIfNew v.transaction.nonce v.transaction)
        m_futureSize := q.m_futureSize + 1 } q' a vs) : Demoted q q' a (v :: vs) := by
  refine ⟨?_, ?_, h.byNonce, ?_, h.find, ?_, ?_, ?_, h.known, h.next, h.disordered⟩
  · rw [h.list]
    simp only [eraseCurrent, Balance.erase_toList, List.filter_filter]
    refine List.filter_congr ?_
    intro w hw
    have : w.handle = v.handle ↔ w = v := ⟨fun he => List.inj_on_of_nodup_map hhandles hw hv he, fun he => by rw [he]⟩
    simp [this, Bool.and_comm]
  · intro x
    rw [h.byHash]
    by_cases hx : x = v.transaction.sha3
    · simp [hx]
    · simp [hx]
  · refine h.futureOf.trans ?_
    simp only [TransactionQueue.futureOf, Table.find_set, if_pos, Option.getD_some]
    refine ((toList_insertIfNew_perm hnew v.transaction).append_left _).trans ?_
    exact List.perm_middle
  · intro b hb
    rw [h.find_of_ne b hb, Table.find_set, if_neg hb]
  · rw [h.rest]
    simp only [futureRest, Table.remove, Table.set, Assoc.remove_set q.m_future.proper]
  · rw [h.size, List.length_cons]
    simp only
    omega

/-- The loop of `setFuture`. -/
theorem demote_runs {L : Library} {a : Address} {E : QueueError → TransactionQueue → Prop} {vs : List VerifiedTransaction}
    {q : TransactionQueue} (hfind : q.m_future.find a = some (q.futureOf a))
    (hhandles : (q.m_current.toList.map VerifiedTransaction.handle).Nodup) (hvs : ∀ v ∈ vs, v ∈ q.m_current.toList)
    (hnonces : (vs.map fun v => v.transaction.nonce).Nodup) (hnew : ∀ v ∈ vs, (q.futureOf a)[v.transaction.nonce]? = none) :
    Runs (demote L a (vs.map fun v => (v.transaction.nonce, some v.handle))) q (fun _ q' => Demoted q q' a vs) E := by
  induction vs generalizing q with
  | nil =>
    simp only [List.map_nil, demote, runs_pure]
    exact ⟨by simp, by simp, rfl, List.Perm.refl _, hfind, fun _ _ => rfl, rfl, rfl, rfl, rfl, rfl⟩
  | cons v vs ih =>
    have hv := hvs v List.mem_cons_self
    have hnv := hnew v List.mem_cons_self
    obtain ⟨hnotin, hnonces⟩ := List.nodup_cons.mp hnonces
    simp only [List.map_cons, demote, runs_bind, deref_runs hhandles hv, runs_modify]
    refine (ih ?_ ?_ ?_ hnonces ?_).mono (fun _ q' h => Demoted.cons hv hhandles hnv h) fun e s he => he
    · simp [TransactionQueue.futureOf, Table.find_set]
    · simp only [eraseCurrent, Balance.erase_toList]
      exact hhandles.sublist (List.filter_sublist.map _)
    · intro w hw
      simp only [eraseCurrent, Balance.erase_toList, List.mem_filter, Bool.not_eq_true', decide_eq_false_iff_not]
      refine ⟨hvs w (List.mem_cons_of_mem _ hw), ?_⟩
      intro he
      rw [List.inj_on_of_nodup_map hhandles (hvs w (List.mem_cons_of_mem _ hw)) hv he] at hw
      exact hnotin (List.mem_map_of_mem hw)
    · intro w hw
      have hne : v.transaction.nonce ≠ w.transaction.nonce := fun he => hnotin (List.mem_map.mpr ⟨w, hw, he.symm⟩)
      have hnw := hnew w (List.mem_cons_of_mem _ hw)
      simp only [TransactionQueue.futureOf] at hnw
      simp [TransactionQueue.futureOf, Table.find_set, Std.TreeMap.getElem?_insertIfNew, hne, hnw]

/-- The iterators from a nonce on are those of elements. -/
theorem exists_elements {q : TransactionQueue} (hq : Indexed q) {a : Address} {l : List (U256 × Option Nat)}
    (hl : ∀ e ∈ l, (q.nonces a)[e.1]? = some e.2) :
    ∃ vs : List VerifiedTransaction, l = vs.map (fun v => (v.transaction.nonce, some v.handle)) ∧
      ∀ v ∈ vs, v ∈ q.m_current.toList ∧ v.transaction.from = a := by
  induction l with
  | nil => exact ⟨[], rfl, fun v hv => absurd hv List.not_mem_nil⟩
  | cons e l ih =>
    obtain ⟨vs, hvs, hmem⟩ := ih fun e he => hl e (List.mem_cons_of_mem _ he)
    obtain ⟨v, hv, hi, hk⟩ := (hq.byNonce a e.1 e.2).mp (hl e List.mem_cons_self)
    obtain ⟨hfrom, hnonce⟩ := Prod.mk.inj hk
    refine ⟨v :: vs, ?_, ?_⟩
    · rw [List.map_cons, hvs, hnonce, ← hi]
    · intro w hw
      rcases List.mem_cons.mp hw with rfl | hw
      · exact ⟨hv, hfrom⟩
      · exact hmem w hw

/-- The map of the sender is made before the loop. -/
theorem Demoted.of_set {q q' : TransactionQueue} {a : Address} {vs : List VerifiedTransaction}
    (h : Demoted { q with m_future := q.m_future.set a ((q.m_future.find a).getD ∅) } q' a vs) : Demoted q q' a vs := by
  refine ⟨h.list, h.byHash, h.byNonce, ?_, h.find, ?_, ?_, h.size, h.known, h.next, h.disordered⟩
  · have := h.futureOf
    simp only [TransactionQueue.futureOf, Table.find_set, if_true, Option.getD_some] at this
    exact this
  · intro b hb
    rw [h.find_of_ne b hb, Table.find_set, if_neg hb]
  · rw [h.rest]
    simp only [futureRest, Table.remove, Table.set, Assoc.remove_set q.m_future.proper]

/-- `setFuture` after its loop: the nonces leave the index. -/
theorem Sound.demoted {q q' : TransactionQueue} {a : Address} {cutoff : U256} {vs : List VerifiedTransaction} (hq : Sound q)
    (hvs : ∀ v, v ∈ vs ↔ v ∈ q.m_current.toList ∧ v.transaction.from = a ∧ cutoff ≤ v.transaction.nonce) (hnodup : vs.Nodup)
    (hne : vs ≠ []) (h : Demoted q q' a vs) :
    Sound { q' with m_currentByAddressAndNonce :=
      Function.update q'.m_currentByAddressAndNonce a (unlessEmpty ((q.nonces a).filter fun n _ => n < cutoff)) } ∧
    q.held.Perm q'.held := by
  have hperm : q.m_current.toList.Perm (vs ++ q'.m_current.toList) := by
    rw [h.list]
    refine (List.filter_append_perm (fun w => decide (w ∈ vs)) _).symm.trans (List.Perm.append_right _ ?_)
    refine (List.perm_ext_iff_of_nodup (hq.handles.of_map.filter _) hnodup).mpr ?_
    intro v
    simp only [List.mem_filter, decide_eq_true_eq]
    exact ⟨fun hv => hv.2, fun hv => ⟨((hvs v).mp hv).1, hv⟩⟩
  have hvals := h.futureOf.map Prod.snd
  have hfuture : q'.future.Perm (vs.map VerifiedTransaction.transaction ++ q.future) := by
    refine (q'.future_perm a).trans ?_
    rw [h.rest]
    refine (hvals.append_right _).trans ?_
    simp only [List.map_append, List.map_map, List.append_assoc]
    exact ((q.future_perm a).symm).append_left _
  have hheld : q.held.Perm q'.held := by
    have h₁ := (hperm.map VerifiedTransaction.transaction).append_right q.future
    rw [List.map_append, List.append_assoc] at h₁
    have h₂ := hfuture.append_left q'.transactions
    exact h₁.trans ((List.perm_append_comm_assoc _ _ _).trans h₂.symm)
  refine ⟨hq.of_drop (d := []) ?_ ?_ hheld, hheld⟩
  · refine hq.toCurrentSound.erased h.list ?_ ?_ ?_ h.next h.disordered
    · intro x i
      simp only [h.byHash]
      by_cases hx : x ∈ vs.map fun v => v.transaction.sha3
      · obtain ⟨v, hv, rfl⟩ := List.mem_map.mp hx
        rw [if_pos hx]
        refine ⟨nofun, ?_⟩
        rintro ⟨-, hgone⟩
        exact absurd (hgone v ((hvs v).mp hv).1 rfl) (by simp [hv])
      · rw [if_neg hx]
        refine ⟨fun hi => ⟨hi, ?_⟩, fun hi => hi.1⟩
        rintro v - rfl
        exact decide_eq_false fun hv => hx (List.mem_map.mpr ⟨v, hv, rfl⟩)
    · intro b n it
      rw [nonces_of_update rfl]
      by_cases hb : b = a
      · subst hb
        have hfilter : ((q.nonces b).filter fun n _ => n < cutoff)[n]? = some it ↔ (q.nonces b)[n]? = some it ∧ n < cutoff := by
          rw [Std.TreeMap.getElem?_filter]
          simp [Option.filter_eq_some_iff]
        rw [if_pos rfl, getElem?_unlessEmpty, hfilter]
        refine and_congr_right fun hn => ⟨?_, ?_⟩
        · rintro hlt v - hk
          refine decide_eq_false fun hv => ?_
          have hle := ((hvs v).mp hv).2.2
          rw [(Prod.mk.inj hk).2] at hle
          exact absurd hlt (BitVec.not_lt.mpr hle)
        · intro hgone
          obtain ⟨v, hv, -, hk⟩ := (hq.byNonce _ _ _).mp hn
          refine BitVec.not_le.mp fun hle => ?_
          have hv' : v ∈ vs := (hvs v).mpr ⟨hv, (Prod.mk.inj hk).1, (Prod.mk.inj hk).2 ▸ hle⟩
          exact absurd (hgone v hv hk) (by simp [hv'])
      · rw [if_neg hb, nonces, h.byNonce, ← nonces]
        refine ⟨fun hn => ⟨hn, ?_⟩, fun hn => hn.1⟩
        rintro v - hk
        refine decide_eq_false fun hv => hb ?_
        rw [← (Prod.mk.inj hk).1, ((hvs v).mp hv).2.1]
    · intro b m hm
      simp only at hm
      by_cases hb : b = a
      · rw [hb, Function.update_self] at hm
        exact isEmpty_of_unlessEmpty hm
      · rw [Function.update_of_ne hb, h.byNonce] at hm
        exact hq.nonces_nonempty b m hm
  · refine ⟨?_, ?_, ?_⟩
    · intro b fs hfs n t ht
      simp only at hfs
      by_cases hb : b = a
      · subst hb
        rw [h.find] at hfs
        cases hfs
        have hm := h.futureOf.mem_iff.mp (Std.TreeMap.mem_toList_iff_getElem?_eq_some.mpr ht)
        rcases List.mem_append.mp hm with hm | hm
        · obtain ⟨v, hv, he⟩ := List.mem_map.mp hm
          cases he
          rw [SignedTransaction.key, ((hvs v).mp hv).2.1]
        · exact hq.key_eq (Std.TreeMap.mem_toList_iff_getElem?_eq_some.mp hm)
      · rw [h.find_of_ne b hb] at hfs
        exact hq.keyed b fs hfs n t ht
    · intro b fs hfs
      simp only at hfs
      by_cases hb : b = a
      · subst hb
        rw [h.find] at hfs
        cases hfs
        rw [← Std.TreeMap.isEmpty_toList, h.futureOf.isEmpty_eq]
        cases vs with
        | nil => exact absurd rfl hne
        | cons v vs => rfl
      · rw [h.find_of_ne b hb] at hfs
        exact hq.future_nonempty b fs hfs
    · have := hfuture.length_eq
      rw [List.length_append, List.length_map, ← hq.size, Nat.add_comm, ← h.size] at this
      exact this.symm

/-- No future transaction has the sender and nonce of a current one. -/
theorem Consistent.getElem?_futureOf_eq_none {q : TransactionQueue} (hq : Consistent q) {v : VerifiedTransaction}
    (hv : v ∈ q.m_current.toList) : (q.futureOf v.transaction.from)[v.transaction.nonce]? = none := by
  cases hu : (q.futureOf v.transaction.from)[v.transaction.nonce]? with
  | none => rfl
  | some u =>
    have hnodup := hq.distinct
    rw [held, List.map_append] at hnodup
    refine absurd (hq.key_eq hu) fun hk => ?_
    refine List.disjoint_of_nodup_append hnodup (List.mem_map_of_mem (List.mem_map_of_mem hv)) ?_
    exact List.mem_map.mpr ⟨u, mem_future_of_getElem? hu, hk⟩

/-- `setFuture` moves transactions from the current to the future ones. -/
theorem setFuture_runs {L : Library} {q : TransactionQueue} {h : H256} {E : QueueError → TransactionQueue → Prop} (hq : Sound q) :
    Runs (setFuture L h) q (fun _ q' => Sound q' ∧ q.held.Perm q'.held ∧ q'.m_known = q.m_known) E := by
  rw [setFuture, runs_bind, runs_get]
  cases hi : q.m_currentByHash h with
  | none =>
    rw [runs_pure]
    exact ⟨hq, List.Perm.refl _, rfl⟩
  | some i =>
    obtain ⟨st, hst, rfl, -⟩ := (hq.byHash _ _).mp hi
    simp only [runs_bind, deref_runs hq.handles hst, runs_get, runs_modify]
    obtain ⟨vs, hms, hvs⟩ := exists_elements hq.toIndexed fun e he =>
      getElem?_of_mem_iterFrom (m := q.nonces st.transaction.from) (n := st.transaction.nonce) he
    have hmem : ∀ v, v ∈ vs ↔
        v ∈ q.m_current.toList ∧ v.transaction.from = st.transaction.from ∧ st.transaction.nonce ≤ v.transaction.nonce := by
      intro v
      refine ⟨?_, ?_⟩
      · intro hv
        have he : (v.transaction.nonce, some v.handle) ∈ iterFrom (q.nonces st.transaction.from) st.transaction.nonce := by
          rw [hms]
          exact List.mem_map_of_mem hv
        exact ⟨(hvs v hv).1, (hvs v hv).2, of_decide_eq_true (List.mem_filter.mp he).2⟩
      · rintro ⟨hv, hfrom, hle⟩
        have hentry := (hq.byNonce v.transaction.from v.transaction.nonce _).mpr ⟨v, hv, rfl, rfl⟩
        rw [hfrom] at hentry
        have he : (v.transaction.nonce, some v.handle) ∈ iterFrom (q.nonces st.transaction.from) st.transaction.nonce :=
          List.mem_filter.mpr ⟨Std.TreeMap.mem_toList_iff_getElem?_eq_some.mpr hentry, decide_eq_true hle⟩
        rw [hms] at he
        obtain ⟨w, hw, hvw⟩ := List.mem_map.mp he
        rw [← List.inj_on_of_nodup_map hq.handles (hvs w hw).1 hv (Option.some.inj (Prod.mk.inj hvw).2)]
        exact hw
    have hnonces : (vs.map fun v => v.transaction.nonce).Nodup := by
      have hsub : (iterFrom (q.nonces st.transaction.from) st.transaction.nonce).Sublist
        (q.nonces st.transaction.from).toList := List.filter_sublist
      have hnodup := (nodup_keys_toList _).sublist (hsub.map Prod.fst)
      rw [hms, List.map_map] at hnodup
      exact hnodup
    rw [hms]
    refine (demote_runs ?_ ?_ ?_ hnonces ?_).mono ?_ fun e s he => he
    · simp [futureOf, Table.find_set]
    · exact hq.handles
    · exact fun v hv => (hvs v hv).1
    · intro v hv
      simp only [futureOf, Table.find_set, if_true, Option.getD_some]
      have hnone := hq.toConsistent.getElem?_futureOf_eq_none (hvs v hv).1
      rw [(hvs v hv).2] at hnone
      exact hnone
    · intro _ q₁ hq₁
      have hne : vs ≠ [] := List.ne_nil_of_mem ((hmem st).mpr ⟨hst, rfl, BitVec.le_refl _⟩)
      obtain ⟨hsound, hperm⟩ := hq.demoted hmem hnonces.of_map hne hq₁.of_set
      exact ⟨hsound, hperm, hq₁.known⟩

/-! ## Operations -/

/-- What every operation keeps. -/
def Inv (q : TransactionQueue) : Prop := Sound q ∧ HeldKnown q

/-- A queue with the same containers is sound as well. -/
theorem Sound.of_containers {q q' : TransactionQueue} (hq : Sound q) (h₁ : q'.m_current = q.m_current)
    (h₂ : q'.m_currentByHash = q.m_currentByHash) (h₃ : q'.m_currentByAddressAndNonce = q.m_currentByAddressAndNonce)
    (h₄ : q'.nextHandle = q.nextHandle) (h₅ : q'.disordered = q.disordered) (h₆ : q'.m_future = q.m_future)
    (h₇ : q'.m_futureSize = q.m_futureSize) : Sound q' ∧ q'.held = q.held := by
  have hfuture : q'.future = q.future := by rw [future, future, h₆]
  have hheld : q'.held = q.held := by rw [held, held, transactions, transactions, h₁, hfuture]
  refine ⟨hq.of_drop (d := []) (hq.toCurrentSound.of_eq h₁ h₂ h₃ h₄ h₅) ⟨h₆ ▸ hq.keyed, h₆ ▸ hq.future_nonempty, ?_⟩ ?_, hheld⟩
  · rw [h₇, hq.size, hfuture]
  · rw [hheld]
    exact List.Perm.refl _

/-- A queue that holds nothing. -/
theorem inv_of_empty {q : TransactionQueue} (h₁ : q.m_current = .nil) (h₂ : q.m_currentByHash = fun _ => none)
    (h₃ : q.m_currentByAddressAndNonce = fun _ => none) (h₄ : q.m_future = .empty) (h₅ : q.m_futureSize = 0) : Inv q := by
  have hlist : q.m_current.toList = [] := by rw [h₁]; rfl
  have hnonces : ∀ a, q.nonces a = ∅ := fun a => by rw [nonces, h₃]; rfl
  have hfuture : q.future = [] := by rw [future, h₄]; rfl
  have htransactions : q.transactions = [] := by rw [transactions, hlist]; rfl
  have hheld : q.held = [] := by rw [held, htransactions, hfuture]; rfl
  refine ⟨⟨⟨⟨?_, ?_, ?_, ?_⟩, ⟨?_, ?_, ?_⟩, ?_⟩, ?_, ?_, ?_, ?_, ?_⟩, ?_⟩
  · simp [hlist]
  · simp [h₂, hlist]
  · simp [hnonces, hlist]
  · simp [h₃]
  · simp [h₄]
  · simp [h₄]
  · simp [h₅, hfuture]
  · simp [hheld]
  · simp [hlist]
  · simp [hlist]
  · simp [htransactions]
  · simp [hfuture]
  · simp [hheld]
  · simp [HeldKnown, hheld]

/-- What is caught is only `InvalidSignature`. -/
theorem manageImport_WITH_LOCK_runs {L : Library} {h : H256} {t : SignedTransaction} {q : TransactionQueue}
    {Q : QueueImport → TransactionQueue → Prop} {E : QueueError → TransactionQueue → Prop}
    (hm : Runs (manageImport L h t) q Q fun e s => e ≠ .InvalidSignature ∧ E e s) :
    Runs (manageImport_WITH_LOCK L h t) q Q E := by
  unfold Runs manageImport_WITH_LOCK at *
  cases hr : manageImport L h t q with
  | ok a s =>
    rw [hr] at hm
    exact hm
  | error e s =>
    rw [hr] at hm
    cases e with
    | InvalidSignature => exact absurd rfl hm.1
    | assertionFailed => exact hm.2
    | undefinedBehaviour => exact hm.2
    | noProgress => exact hm.2

/-- A hash that passes the check was not known. -/
theorem check_eq_success {q : TransactionQueue} {h : H256} {ik : IfDropped} (hc : q.check_WITH_LOCK h ik = .Success) :
    q.m_known h = false := by
  rw [check_WITH_LOCK] at hc
  split at hc
  · cases hc
  · exact Bool.eq_false_iff.mpr ‹_›

/-- A hash that the check calls known is known. -/
theorem check_eq_known {q : TransactionQueue} {h : H256} {ik : IfDropped} (hc : q.check_WITH_LOCK h ik = .AlreadyKnown) :
    q.m_known h = true := by
  rw [check_WITH_LOCK] at hc
  split at hc
  · assumption
  · split at hc
    · cases hc
    · cases hc

/-- An import of a transaction that has got past the check does not refuse it as known. -/
theorem manageImport_ne_known {L : Library} {h : H256} {t : SignedTransaction} {q : TransactionQueue} :
    Runs (manageImport_WITH_LOCK L h t) q (fun r _ => r ≠ .AlreadyKnown) fun _ _ => True := by
  have hm : Runs (manageImport L h t) q (fun r _ => r ≠ .AlreadyKnown) fun _ _ => True := by
    rw [manageImport]
    split
    · rw [runs_bind]
      exact trivial
    refine runs_bind_of_forall (fun b s => ?_) fun _ _ => trivial
    split
    · exact nofun
    refine runs_bind_of_forall (fun b s => ?_) fun _ _ => trivial
    split
    · exact nofun
    refine runs_bind_of_forall (fun _ s => ?_) fun _ _ => trivial
    refine runs_bind_of_forall (fun _ s => ?_) fun _ _ => trivial
    exact runs_bind_of_forall (fun _ _ => nofun) fun _ _ => trivial
  unfold Runs manageImport_WITH_LOCK at *
  cases hr : manageImport L h t q with
  | ok a s =>
    rw [hr] at hm
    exact hm
  | error e s =>
    cases e with
    | InvalidSignature => exact nofun
    | assertionFailed => trivial
    | undefinedBehaviour => trivial
    | noProgress => trivial

/-- An import that says so has met a known hash. -/
theorem known_of_import {L : Library} {t : SignedTransaction} {ik : IfDropped} {q q' : TransactionQueue}
    (h : TransactionQueue.import L t ik q = .ok .AlreadyKnown q') : q.m_known t.sha3 = true := by
  have hr : Runs (TransactionQueue.import L t ik) q (fun r _ => r = .AlreadyKnown → q.m_known t.sha3 = true) fun _ _ => True := by
    rw [TransactionQueue.import, runs_bind, runs_get]
    cases hc : q.check_WITH_LOCK t.sha3 ik with
    | Success => exact manageImport_ne_known.mono (fun r _ hr he => absurd he hr) fun _ _ h => h
    | AlreadyKnown => exact fun _ => check_eq_known hc
    | Malformed => exact fun h => absurd h (by decide)
    | AlreadyInChain => exact fun h => absurd h (by decide)
    | OverbidGasPrice => exact fun h => absurd h (by decide)
  exact hr.of_ok h rfl

/-- An import of bytes that says so has met a known hash. -/
theorem known_of_importRLP {L : Library} {rlp : Bytes} {ik : IfDropped} {q q' : TransactionQueue}
    (h : importRLP L rlp ik q = .ok .AlreadyKnown q') : q.m_known (L.sha3 rlp) = true := by
  have hr : Runs (importRLP L rlp ik) q (fun r _ => r = .AlreadyKnown → q.m_known (L.sha3 rlp) = true) fun _ _ => True := by
    rw [importRLP, runs_bind, runs_get]
    cases hc : q.check_WITH_LOCK (L.sha3 rlp) ik with
    | Success =>
      cases L.read rlp with
      | none => exact fun h => absurd h (by decide)
      | some t =>
        cases hs : t.sender with
        | error e =>
          simp only [hs, runs_pure]
          exact fun h => absurd h (by decide)
        | ok a =>
          simp only [hs]
          exact manageImport_ne_known.mono (fun r _ hr he => absurd he hr) fun _ _ h => h
    | AlreadyKnown => exact fun _ => check_eq_known hc
    | Malformed => exact fun h => absurd h (by decide)
    | AlreadyInChain => exact fun h => absurd h (by decide)
    | OverbidGasPrice => exact fun h => absurd h (by decide)
  exact hr.of_ok h rfl

end TransactionQueue

namespace QueueOp

open TransactionQueue

/-- The signature of a transaction that is imported as such is valid. -/
def Recoverable : QueueOp → Prop
  | .import t _ => t.recovered.isSome = true
  | _ => True

/-- No future transaction is replaced, and there are never too many of them. -/
def Clean (L : Library) (q : TransactionQueue) : QueueOp → Prop
  | .import t ik => q.check_WITH_LOCK t.sha3 ik = .Success → q.CleanImport t
  | .importRLP rlp ik => q.check_WITH_LOCK (L.sha3 rlp) ik = .Success →
      ∀ t ∈ L.read rlp, t.recovered.isSome = true → q.CleanImport t
  | .dropGood t => q.overflow t = 0
  | _ => True

instance (L : Library) (q : TransactionQueue) : (op : QueueOp) → Decidable (op.Clean L q)
  | .import t ik => inferInstanceAs (Decidable (q.check_WITH_LOCK t.sha3 ik = .Success → q.CleanImport t))
  | .importRLP rlp ik => inferInstanceAs (Decidable (q.check_WITH_LOCK (L.sha3 rlp) ik = .Success →
      ∀ t ∈ L.read rlp, t.recovered.isSome = true → q.CleanImport t))
  | .drop _ => inferInstanceAs (Decidable True)
  | .dropGood t => inferInstanceAs (Decidable (q.overflow t = 0))
  | .setFuture _ => inferInstanceAs (Decidable True)
  | .clear => inferInstanceAs (Decidable True)

/-- What an operation keeps. -/
def Keeps (L : Library) (op : QueueOp) (q : TransactionQueue) : Prop :=
  Runs (op.run L) q (fun _ q' => Inv q' ∧ (op.Clean L q → KnownHeld q → KnownHeld q')) fun e _ => e = .assertionFailed

variable {L : Library} {q : TransactionQueue}

/-- An import of a recoverable transaction keeps the invariant. -/
theorem keeps_import {t : SignedTransaction} {ik : IfDropped} (hq : Inv q) (ht : t.recovered.isSome = true) :
    Keeps L (.import t ik) q := by
  simp only [Keeps, run, TransactionQueue.import, runs_bind, runs_get]
  cases hc : q.check_WITH_LOCK t.sha3 ik with
  | Success =>
    refine manageImport_WITH_LOCK_runs ((manageImport_runs hq.1 hq.2 ht (check_eq_success hc)).mono ?_ fun e s he => he)
    rintro - q' ⟨hs, hk, hclean⟩
    exact ⟨⟨hs, hk⟩, fun h => hclean (h hc)⟩
  | Malformed => exact ⟨hq, fun _ h => h⟩
  | AlreadyInChain => exact ⟨hq, fun _ h => h⟩
  | AlreadyKnown => exact ⟨hq, fun _ h => h⟩
  | OverbidGasPrice => exact ⟨hq, fun _ h => h⟩

/-- An import of bytes keeps the invariant. -/
theorem keeps_importRLP {rlp : Bytes} {ik : IfDropped} (hq : Inv q) : Keeps L (.importRLP rlp ik) q := by
  simp only [Keeps, run, TransactionQueue.importRLP, runs_bind, runs_get]
  cases hc : q.check_WITH_LOCK (L.sha3 rlp) ik with
  | Success =>
    cases hr : L.read rlp with
    | none => exact ⟨hq, fun _ h => h⟩
    | some t =>
      cases hrec : t.recovered with
      | none =>
        simp only [SignedTransaction.sender, hrec, runs_pure]
        exact ⟨hq, fun _ h => h⟩
      | some a =>
        have ht : t.recovered.isSome = true := by rw [hrec]; rfl
        simp only [sender_eq_from ht]
        refine manageImport_WITH_LOCK_runs ?_
        by_cases hh : L.sha3 rlp = t.sha3
        · rw [hh] at hc ⊢
          refine (manageImport_runs hq.1 hq.2 ht (check_eq_success hc)).mono ?_ fun e s he => he
          rintro - q' ⟨hs, hk, hclean⟩
          refine ⟨⟨hs, hk⟩, fun h => hclean (h ?_ t hr ht)⟩
          rw [hh, hc]
        · -- the source asserts that the bytes are those the transaction is serialised to
          rw [manageImport, if_pos hh]
          exact ⟨fun h => QueueError.noConfusion h, rfl⟩
  | Malformed => exact ⟨hq, fun _ h => h⟩
  | AlreadyInChain => exact ⟨hq, fun _ h => h⟩
  | AlreadyKnown => exact ⟨hq, fun _ h => h⟩
  | OverbidGasPrice => exact ⟨hq, fun _ h => h⟩

/-- `remove_WITH_LOCK` of any hash. -/
theorem remove_keeps {h : H256} {E : QueueError → TransactionQueue → Prop} (hq : Inv q) :
    Runs (remove_WITH_LOCK L h) q (fun _ q' => Inv q' ∧ (KnownHeld q → KnownHeld q')) E := by
  cases hi : q.m_currentByHash h with
  | none =>
    rw [remove_WITH_LOCK, runs_bind, runs_get, hi]
    exact ⟨hq, fun h => h⟩
  | some i =>
    obtain ⟨v, hv, -, rfl⟩ := (hq.1.byHash _ _).mp hi
    refine (remove_runs hq.1 hv).mono ?_ fun e s he => he
    rintro b q' ⟨-, hq'⟩
    exact ⟨⟨hq'.sound, hq'.forgets.heldKnown hq.1 hq.2⟩, hq'.forgets.knownHeld⟩

/-- A drop keeps the invariant. -/
theorem keeps_drop {h : H256} (hq : Inv q) : Keeps L (.drop h) q := by
  simp only [Keeps, run, TransactionQueue.drop, runs_bind, runs_get]
  cases hk : q.m_known h with
  | false => exact ⟨hq, fun _ h => h⟩
  | true =>
    simp only [Bool.not_true, Bool.false_eq_true, if_false, runs_bind, runs_modify]
    generalize hq₁ : ({ q with m_dropped := _ } : TransactionQueue) = q₁
    have hknown : q₁.m_known = q.m_known := by rw [← hq₁]
    obtain ⟨hs, hheld⟩ : Sound q₁ ∧ q₁.held = q.held := by
      subst hq₁
      exact hq.1.of_containers rfl rfl rfl rfl rfl rfl rfl
    have hinv : Inv q₁ := by
      refine ⟨hs, ?_⟩
      rw [HeldKnown, hheld, hknown]
      exact hq.2
    refine (remove_keeps hinv).mono ?_ fun e s he => he
    rintro b q' ⟨hq', hkh⟩
    refine ⟨hq', fun _ h => hkh ?_⟩
    rw [KnownHeld, hheld, hknown]
    exact h

/-- To note a good transaction keeps the invariant. -/
theorem keeps_dropGood {t : SignedTransaction} (hq : Inv q) : Keeps L (.dropGood t) q := by
  simp only [Keeps, run, TransactionQueue.dropGood, runs_bind]
  refine (makeCurrent_runs hq.1).mono ?_ fun e s he => he
  rintro - q₁ ⟨hs, ⟨d, hd, hlen⟩, hknown⟩
  have hinv : Inv q₁ := by
    refine ⟨hs, fun u hu => ?_⟩
    rw [hknown]
    exact hq.2 u (hd.mem_iff.mpr (List.mem_append_right _ hu))
  have hkh : Clean L q (.dropGood t) → KnownHeld q → KnownHeld q₁ := by
    intro hclean hkh h hh
    rw [Clean] at hclean
    rw [hclean, List.length_eq_zero_iff] at hlen
    subst hlen
    rw [hknown] at hh
    obtain ⟨u, hu, hsha⟩ := hkh h hh
    exact ⟨u, hd.mem_iff.mp hu, hsha⟩
  rw [runs_get]
  cases hk : q₁.m_known t.sha3 with
  | false => exact ⟨hinv, hkh⟩
  | true =>
    simp only [Bool.not_true, Bool.false_eq_true, if_false, runs_bind]
    refine (remove_keeps hinv).mono ?_ fun e s he => he
    rintro b q' ⟨hq', hkh'⟩
    exact ⟨hq', fun hc h => hkh' (hkh hc h)⟩

/-- To put a transaction into the future keeps the invariant. -/
theorem keeps_setFuture {h : H256} (hq : Inv q) : Keeps L (.setFuture h) q := by
  refine (setFuture_runs hq.1).mono ?_ fun e s he => he
  rintro - q' ⟨hs, hheld, hknown⟩
  refine ⟨⟨hs, fun u hu => ?_⟩, fun _ hkh h hh => ?_⟩
  · rw [hknown]
    exact hq.2 u (hheld.mem_iff.mpr hu)
  · rw [hknown] at hh
    obtain ⟨u, hu, hsha⟩ := hkh h hh
    exact ⟨u, hheld.mem_iff.mp hu, hsha⟩

/-- A clear keeps the invariant. -/
theorem keeps_clear : Keeps L .clear q := by
  simp only [Keeps, run, TransactionQueue.clear, runs_modify]
  exact ⟨inv_of_empty rfl rfl rfl rfl rfl, fun _ _ _ h => absurd h Bool.false_ne_true⟩

/-- An operation keeps what every operation keeps. -/
theorem keeps {op : QueueOp} (hq : Inv q) (hop : op.Recoverable) : Keeps L op q := by
  cases op with
  | «import» t ik => exact keeps_import hq hop
  | importRLP rlp ik => exact keeps_importRLP hq
  | drop h => exact keeps_drop hq
  | dropGood t => exact keeps_dropGood hq
  | setFuture h => exact keeps_setFuture hq
  | clear => exact keeps_clear

/-- A run of operations keeps it. -/
theorem runAll_inv {ops : List QueueOp} {q : TransactionQueue} (hq : Inv q) (hops : ∀ op ∈ ops, op.Recoverable) :
    Runs (runAll L ops) q (fun _ q' => Inv q') fun e _ => e = .assertionFailed := by
  induction ops generalizing q with
  | nil => exact hq
  | cons op ops ih =>
    rw [runAll, runs_bind]
    refine (keeps hq (hops op List.mem_cons_self)).mono ?_ fun e s he => he
    rintro - q₁ ⟨hq₁, -⟩
    exact ih hq₁ fun op hop => hops op (List.mem_cons_of_mem _ hop)

/-- Every operation of a run is clean in the state it meets. -/
def CleanRun (L : Library) : TransactionQueue → List QueueOp → Prop
  | _, [] => True
  | q, op :: ops => op.Clean L q ∧
    match op.run L q with
    | .ok _ q' => CleanRun L q' ops
    | .error _ _ => True

instance (L : Library) : (q : TransactionQueue) → (ops : List QueueOp) → Decidable (CleanRun L q ops)
  | _, [] => inferInstanceAs (Decidable True)
  | q, op :: ops =>
    match h : op.run L q with
    | .ok _ q' =>
      have := instDecidableCleanRun L q' ops
      decidable_of_iff (op.Clean L q ∧ CleanRun L q' ops) (by rw [CleanRun, h])
    | .error _ _ => decidable_of_iff (op.Clean L q) (by rw [CleanRun, h, and_true])

/-- After a clean run every known hash is held. -/
theorem runAll_knownHeld {ops : List QueueOp} {q : TransactionQueue} (hq : Inv q) (hops : ∀ op ∈ ops, op.Recoverable)
    (hclean : CleanRun L q ops) (hk : KnownHeld q) :
    Runs (runAll L ops) q (fun _ q' => KnownHeld q') fun e _ => e = .assertionFailed := by
  induction ops generalizing q with
  | nil => exact hk
  | cons op ops ih =>
    have hkeeps := keeps (L := L) hq (hops op List.mem_cons_self)
    obtain ⟨hop, hrest⟩ := hclean
    rw [runAll, runs_bind]
    unfold Keeps at hkeeps
    unfold Runs at hkeeps ⊢
    cases hr : op.run L q with
    | error e s =>
      rw [hr] at hkeeps
      exact hkeeps
    | ok u q₁ =>
      rw [hr] at hkeeps hrest
      exact ih hkeeps.1 (fun op hop => hops op (List.mem_cons_of_mem _ hop)) hrest (hkeeps.2 hop hk)

end QueueOp

end Webthree
