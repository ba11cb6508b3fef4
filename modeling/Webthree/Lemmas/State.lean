import Webthree.Lib.EState
import Webthree.Lib.Ledger
import Webthree.Evm.State

/-!
# What the functions of the state do to the balances

The balance of an address is that of its account in the cache, or what the trie holds. Filling the cache changes no balance;
the other functions change the balances they name.
-/

namespace Webthree

namespace State

/-- The balance of an address. -/
def balanceOf (s : State) (a : Address) : U256 :=
  match s.m_cache a with
  | some x => x.m_balance
  | none =>
    match s.m_state a with
    | some t => t.balance
    | none => 0

/-- All balances, as numbers. -/
def balances (s : State) (a : Address) : Nat := (s.balanceOf a).toNat

/-- An account may be put at an address: there is one, or the start nonce of new accounts is set. -/
def MayHold (s : State) (a : Address) : Prop :=
  s.m_accountStartNonce = Invalid256 → (s.m_cache a).isSome ∨ (s.m_state a).isSome

/-- What no function of the state changes, and the cache only grows, by accounts that may be there. -/
structure Extends (s t : State) : Prop where
  sha3 : t.sha3 = s.sha3
  db : t.m_db = s.m_db
  storage : t.m_storage = s.m_storage
  state : t.m_state = s.m_state
  startNonce : t.m_accountStartNonce = s.m_accountStartNonce
  cached : ∀ a, (s.m_cache a).isSome → (t.m_cache a).isSome
  mayHold : ∀ a, (t.m_cache a).isSome → MayHold s a

/-- No balance is changed either. -/
structure Keeps (s t : State) : Prop extends Extends s t where
  balances : t.balances = s.balances

/-- An account with its code, which is read from the database when it is not cached. -/
def fill (s : State) (x : Account) : Account :=
  if !x.isFreshCode && !x.codeCacheValid s.sha3 then
    x.noteCode (if x.m_codeHash = EmptySHA3 s.sha3 then [] else s.m_db x.m_codeHash)
  else x

/-- What the state says of an address, whether it is in the cache or in the trie: nonce, balance, storage and code of the
account, or that there is none. -/
def known (s : State) (a : Address) : Option Account :=
  match s.m_cache a with
  | some x => some (s.fill x)
  | none => (s.m_state a).map fun t => s.fill (.ofTrie s.sha3 t)

/-- Looking things up fills the cache and changes nothing that is known. -/
structure Looks (s t : State) : Prop extends Keeps s t where
  known : t.known = s.known

/-- A state extends itself. -/
theorem Extends.refl (s : State) : Extends s s := ⟨rfl, rfl, rfl, rfl, rfl, fun _ h => h, fun _ h _ => Or.inl h⟩

/-- Extensions compose. -/
theorem Extends.trans {s t u : State} (h : Extends s t) (h' : Extends t u) : Extends s u :=
  ⟨h'.sha3.trans h.sha3, h'.db.trans h.db, h'.storage.trans h.storage, h'.state.trans h.state,
    h'.startNonce.trans h.startNonce, fun a ha => h'.cached a (h.cached a ha), fun a ha hinv =>
      (h'.mayHold a ha (h.startNonce.trans hinv)).elim (fun hc => h.mayHold a hc hinv) (fun hc => Or.inr (h.state ▸ hc))⟩

/-- A state keeps its own accounts. -/
theorem Keeps.refl (s : State) : Keeps s s := ⟨.refl s, rfl⟩

/-- To keep the accounts composes. -/
theorem Keeps.trans {s t u : State} (h : Keeps s t) (h' : Keeps t u) : Keeps s u :=
  ⟨h.toExtends.trans h'.toExtends, h'.balances.trans h.balances⟩

/-- A state looks at nothing. -/
theorem Looks.refl (s : State) : Looks s s := ⟨.refl s, rfl⟩

/-- Looks compose. -/
theorem Looks.trans {s t u : State} (h : Looks s t) (h' : Looks t u) : Looks s u :=
  ⟨h.toKeeps.trans h'.toKeeps, h'.known.trans h.known⟩

/-! ## The cache -/

/-- Filling in the code once is enough. -/
theorem fill_fill (s : State) (x : Account) : s.fill (s.fill x) = s.fill x := by
  by_cases hx : (!x.isFreshCode && !x.codeCacheValid s.sha3) = true
  · have h1 : s.fill x = x.noteCode (if x.m_codeHash = EmptySHA3 s.sha3 then [] else s.m_db x.m_codeHash) := if_pos hx
    rw [h1]
    generalize hc : (if x.m_codeHash = EmptySHA3 s.sha3 then [] else s.m_db x.m_codeHash) = c
    have h2 : s.fill (x.noteCode c) =
        if !(x.noteCode c).isFreshCode && !(x.noteCode c).codeCacheValid s.sha3 then
          x.noteCode (if x.m_codeHash = EmptySHA3 s.sha3 then [] else s.m_db x.m_codeHash)
        else x.noteCode c := rfl
    rw [h2, hc, ite_self]
  · have h1 : s.fill x = x := if_neg hx
    rw [h1, h1]

/-- Putting an account into the cache sets the balance of its address. -/
theorem extends_insert {s : State} {a : Address} (h : MayHold s a) (x : Account) :
    Extends s { s with m_cache := s.m_cache.insert a x } := by
  refine ⟨rfl, rfl, rfl, rfl, rfl, fun b hb => ?_, fun b hb hinv => ?_⟩
  · simp only [AccountMap.insert]
    split
    · rfl
    · exact hb
  · simp only [AccountMap.insert] at hb
    split at hb
    · rename_i heq
      exact heq ▸ h hinv
    · exact Or.inl hb

/-- A cached account may hold ether. -/
theorem mayHold_of_cached {s : State} {a : Address} {x : Account} (h : s.m_cache a = some x) : MayHold s a :=
  fun _ => Or.inl (by rw [h]; rfl)

/-- With a start nonce any account may hold ether. -/
theorem mayHold_of_startNonce {s : State} (h : s.m_accountStartNonce ≠ Invalid256) (a : Address) : MayHold s a :=
  fun hinv => absurd hinv h

/-- An insertion into the cache changes one balance. -/
theorem balances_insert (s : State) (a : Address) (x : Account) :
    balances { s with m_cache := s.m_cache.insert a x } = Function.update s.balances a x.m_balance.toNat := by
  funext b
  unfold balances balanceOf
  by_cases hb : b = a
  · subst hb
    simp [AccountMap.insert]
  · simp [AccountMap.insert, hb]

/-- An insertion that keeps the balance keeps the accounts. -/
theorem keeps_insert {s : State} {a : Address} {x : Account} (hm : MayHold s a) (h : x.m_balance = s.balanceOf a) :
    Keeps s { s with m_cache := s.m_cache.insert a x } := by
  refine ⟨extends_insert hm x, ?_⟩
  rw [balances_insert, h]
  exact Function.update_eq_self a s.balances

/-- Putting what is known of an address into the cache changes nothing that is known. -/
theorem known_insert {s : State} {a : Address} {x : Account} (h : some (s.fill x) = s.known a) :
    known { s with m_cache := s.m_cache.insert a x } = s.known := by
  funext b
  by_cases hb : b = a
  · subst hb
    rw [← h]
    simp only [known, AccountMap.insert, if_true]
    rfl
  · simp only [known, AccountMap.insert, hb, if_false]
    rfl

/-- An account that is inserted is cached. -/
theorem cached_insert (s : State) (a : Address) (x : Account) :
    (({ s with m_cache := s.m_cache.insert a x } : State).m_cache a) = some x := by
  simp [AccountMap.insert]

/-- Caching an account inserts it. -/
theorem runs_cache (a : Address) (x : Account) (s : State) (Q : Unit → State → Prop) (E : Stop → State → Prop) :
    Runs (cache a x) s Q E ↔ Q () { s with m_cache := s.m_cache.insert a x } := Iff.rfl

/-- Errors of the state are no exceptions of the machine, and leave all balances as they were. -/
def Refused (s : State) (e : Stop) (t : State) : Prop := Keeps s t ∧ ∃ o, e = .other o

/-- The start nonce is returned unless it is unset, when the call throws. -/
theorem runs_requireAccountStartNonce (s : State) :
    Runs requireAccountStartNonce s (fun n t => t = s ∧ n = s.m_accountStartNonce ∧ s.m_accountStartNonce ≠ Invalid256)
      (fun e t => t = s ∧ (∃ o, e = .other o) ∧ s.m_accountStartNonce = Invalid256) := by
  rw [requireAccountStartNonce, runs_bind, runs_get, runs_ite]
  exact ⟨fun h => ⟨rfl, ⟨_, rfl⟩, h⟩, fun h => ⟨rfl, rfl, h⟩⟩

/-- Filling the cache with an account changes nothing else; forced, it leaves an account there. -/
theorem runs_ensureCachedBasic (a : Address) (force : Bool) (s : State) :
    Runs (ensureCachedBasic a force) s
      (fun _ t => Keeps s t ∧ (force = true → (t.m_cache a).isSome) ∧ (t.m_cache a = none → s.balanceOf a = 0) ∧
        (force = false → t.known = s.known))
      (fun e t => Refused s e t ∧ force = true ∧ s.m_accountStartNonce = Invalid256) := by
  rw [ensureCachedBasic, runs_bind, runs_get]
  cases hc : s.m_cache a with
  | some x => exact ⟨.refl s, fun _ => by rw [hc]; rfl, fun h => absurd (hc.symm.trans h) (by simp), fun _ => rfl⟩
  | none =>
    cases ht : s.m_state a with
    | some t =>
      dsimp only
      rw [runs_cache]
      refine ⟨keeps_insert (fun _ => Or.inr (by rw [ht]; rfl)) (by simp [balanceOf, hc, ht, Account.ofTrie]), fun _ => ?_, fun h => ?_, fun _ => ?_⟩
      · rw [cached_insert]; rfl
      · rw [cached_insert] at h; cases h
      · exact known_insert (by simp [known, hc, ht])
    | none =>
      have hz : s.balanceOf a = 0 := by simp [balanceOf, hc, ht]
      dsimp only
      cases force with
      | false => exact ⟨.refl s, fun h => absurd h (by simp), fun _ => hz, fun _ => rfl⟩
      | true =>
        simp only [if_true]
        rw [runs_bind]
        refine (runs_requireAccountStartNonce s).mono ?_ ?_
        · rintro n t ⟨rfl, -, hne⟩
          rw [runs_cache]
          refine ⟨keeps_insert (mayHold_of_startNonce hne a) hz.symm, fun _ => ?_, fun h => ?_, fun h => absurd h (by simp)⟩
          · rw [cached_insert]; rfl
          · rw [cached_insert] at h; cases h
        · rintro e t ⟨rfl, ho, hinv⟩
          exact ⟨⟨.refl _, ho⟩, trivial, hinv⟩

/-- Loading code does not change an account. -/
theorem runs_ensureCachedCode (a : Address) (s : State) :
    Runs (ensureCachedCode a) s (fun _ t => Looks s t) (fun _ _ => False) := by
  rw [ensureCachedCode, runs_bind, runs_get]
  cases hc : s.m_cache a with
  | none => exact .refl s
  | some x =>
    dsimp only
    rw [runs_ite]
    refine ⟨fun hinv => ?_, fun _ => .refl s⟩
    rw [runs_cache]
    refine ⟨keeps_insert (mayHold_of_cached hc) (by simp [balanceOf, hc, Account.noteCode]), known_insert ?_⟩
    have hfill : s.fill x = x.noteCode (if x.m_codeHash = EmptySHA3 s.sha3 then [] else s.m_db x.m_codeHash) := if_pos hinv
    rw [← hfill, fill_fill]
    simp [known, hc]

/-- An account is loaded when it is there; one that is not is made only when forced to. -/
theorem runs_ensureCached (a : Address) (code force : Bool) (s : State) :
    Runs (ensureCached a code force) s
      (fun _ t => Keeps s t ∧ (force = true → (t.m_cache a).isSome) ∧
        (code = false → t.m_cache a = none → s.balanceOf a = 0) ∧ (force = false → t.known = s.known))
      (fun e t => Refused s e t ∧ force = true ∧ s.m_accountStartNonce = Invalid256) := by
  rw [ensureCached, runs_bind]
  refine (runs_ensureCachedBasic a force s).mono (fun _ t ht => ?_) (fun e t he => he)
  cases code with
  | false => exact ⟨ht.1, ht.2.1, fun _ => ht.2.2.1, ht.2.2.2⟩
  | true =>
    refine (runs_ensureCachedCode a t).mono (fun _ u hu => ?_) (fun _ _ hf => hf.elim)
    exact ⟨ht.1.trans hu.toKeeps, fun hf => hu.cached a (ht.2.1 hf), fun h => absurd h (by simp),
      fun hf => hu.known.trans (ht.2.2.2 hf)⟩

/-- Looking an account up fills the cache and finds the balance. -/
theorem runs_find (a : Address) (s : State) :
    Runs (find a) s
      (fun r t => Looks s t ∧ t.m_cache a = r ∧ (match r with | some x => x.m_balance | none => 0) = s.balanceOf a)
      (fun _ _ => False) := by
  rw [find, runs_bind]
  refine (runs_ensureCached a false false s).mono (fun _ t ht => ?_) (fun e t he => absurd he.2.1 (by simp))
  rw [runs_bind, runs_get, runs_pure]
  refine ⟨⟨ht.1, ht.2.2.2 rfl⟩, rfl, ?_⟩
  have hb : t.balanceOf a = s.balanceOf a := BitVec.eq_of_toNat_eq (congrFun ht.1.balances a)
  cases hc : t.m_cache a with
  | none => exact (ht.2.2.1 rfl hc).symm
  | some x => rw [← hb]; simp [balanceOf, hc]

/-! ## Questions -/

/-- To ask whether an address is in use changes nothing. -/
theorem runs_addressInUse (a : Address) (s : State) :
    Runs (addressInUse a) s (fun _ t => Looks s t) (fun _ _ => False) := by
  rw [addressInUse, runs_bind]
  exact (runs_find a s).mono (fun r t ht => ht.1) (fun _ _ hf => hf)

/-- To ask whether an address has code changes nothing. -/
theorem runs_addressHasCode (a : Address) (s : State) :
    Runs (addressHasCode a) s (fun _ t => Looks s t) (fun _ _ => False) := by
  rw [addressHasCode, runs_bind]
  refine (runs_find a s).mono (fun r t ht => ?_) (fun _ _ hf => hf)
  cases r with
  | none => exact ht.1
  | some x => exact ht.1

/-- The balance is that of the account, zero where there is none. -/
theorem runs_balance (a : Address) (s : State) :
    Runs (balance a) s (fun b t => Looks s t ∧ b = s.balanceOf a) (fun _ _ => False) := by
  rw [balance, runs_bind]
  refine (runs_find a s).mono (fun r t ht => ?_) (fun _ _ hf => hf)
  cases r with
  | none => exact ⟨ht.1, ht.2.2⟩
  | some x => exact ⟨ht.1, ht.2.2⟩

/-- To read a nonce changes nothing. -/
theorem runs_transactionsFrom (a : Address) (s : State) :
    Runs (transactionsFrom a) s (fun _ t => Looks s t) (fun _ _ => False) := by
  rw [transactionsFrom, runs_bind]
  refine (runs_find a s).mono (fun r t ht => ?_) (fun _ _ hf => hf)
  cases r with
  | none => exact ht.1
  | some x => exact ht.1

/-- To read storage keeps the accounts. -/
theorem runs_storage (a : Address) (k : U256) (s : State) :
    Runs (storage a k) s (fun _ t => Keeps s t) (fun _ _ => False) := by
  rw [storage, runs_bind]
  refine (runs_find a s).mono (fun r t ht => ?_) (fun _ _ hf => hf)
  cases r with
  | none => exact ht.1.toKeeps
  | some x =>
    cases hv : x.m_storageOverlay k with
    | some v => simp only [hv]; exact ht.1.toKeeps
    | none =>
      simp only [hv]
      rw [runs_bind, runs_get, runs_bind, runs_cache, runs_pure]
      refine ht.1.toKeeps.trans (keeps_insert (mayHold_of_cached ht.2.1) ?_)
      simp [balanceOf, ht.2.1, Account.setStorage]

/-- To read code changes nothing. -/
theorem runs_code (a : Address) (s : State) : Runs (code a) s (fun _ t => Looks s t) (fun _ _ => False) := by
  rw [code, runs_bind]
  refine (runs_addressHasCode a s).mono (fun b t ht => ?_) (fun _ _ hf => hf)
  rw [runs_ite]
  refine ⟨fun _ => ht, fun _ => ?_⟩
  rw [runs_bind]
  refine (runs_ensureCached a true false t).mono (fun _ u hu => ?_) (fun e u he => absurd he.2.1 (by simp))
  exact ht.trans ⟨hu.1, hu.2.2.2 rfl⟩

/-! ## Changes -/

/-- Changing the storage of an account in the cache changes no balance. -/
theorem runs_setStorage (a : Address) (k v : U256) {s : State} (h : (s.m_cache a).isSome) :
    Runs (setStorage a k v) s (fun _ t => Keeps s t) (fun _ _ => False) := by
  obtain ⟨x, hx⟩ := Option.isSome_iff_exists.mp h
  rw [setStorage, runs_bind, cached, runs_bind, runs_get, runs_pure, runs_cache]
  refine keeps_insert (mayHold_of_cached hx) ?_
  simp [balanceOf, hx, Account.setStorage]

/-- Setting the code of an account in the cache changes no balance. -/
theorem runs_setCode (a : Address) (code : Bytes) {s : State} (h : (s.m_cache a).isSome) :
    Runs (setCode a code) s (fun _ t => Keeps s t) (fun _ _ => False) := by
  obtain ⟨x, hx⟩ := Option.isSome_iff_exists.mp h
  rw [setCode, runs_bind, cached, runs_bind, runs_get, runs_pure, runs_cache]
  refine keeps_insert (mayHold_of_cached hx) ?_
  simp [balanceOf, hx, Account.setCode]

/-- A nonce is counted up, or the call is refused. -/
theorem runs_noteSending (a : Address) (s : State) :
    Runs (noteSending a) s (fun _ t => Keeps s t) (fun e t => Refused s e t) := by
  rw [noteSending, runs_bind]
  refine (runs_find a s).mono (fun r t ht => ?_) (fun _ _ hf => hf.elim)
  have hb : t.balanceOf a = s.balanceOf a := BitVec.eq_of_toNat_eq (congrFun ht.1.balances a)
  cases r with
  | none =>
    dsimp only
    rw [runs_bind, runs_get, runs_bind]
    refine (runs_requireAccountStartNonce t).mono ?_ ?_
    · rintro n u ⟨rfl, -, hne⟩
      rw [runs_cache]
      exact ht.1.toKeeps.trans (keeps_insert (mayHold_of_startNonce hne a) (by rw [hb]; exact ht.2.2))
    · rintro e u ⟨rfl, ho, -⟩
      exact ⟨ht.1.toKeeps, ho⟩
  | some x =>
    dsimp only
    rw [runs_cache]
    exact ht.1.toKeeps.trans (keeps_insert (mayHold_of_cached ht.2.1) (by rw [hb]; exact ht.2.2))

/-- A credit that fits into a word adds up. -/
theorem addBalance_toNat {x : Account} {n : Nat} (h : x.m_balance.toNat + n < 2 ^ 256) :
    (x.addBalance n).m_balance.toNat = x.m_balance.toNat + n := by
  unfold Account.addBalance
  split
  · omega
  · simp only [BitVec.toNat_ofInt]
    omega

/-- A debit of no more than the balance is subtracted. -/
theorem subBalance_toNat {x : Account} {n : Nat} (h : n ≤ x.m_balance.toNat) :
    (x.addBalance (-(n : Int))).m_balance.toNat = x.m_balance.toNat - n := by
  have hlt := x.m_balance.isLt
  unfold Account.addBalance
  split
  · omega
  · simp only [BitVec.toNat_ofInt]
    omega

/-- Adding to a balance, modulo `2 ^ 256`. -/
theorem runs_addBalance (a : Address) (v : U256) (s : State) :
    Runs (addBalance a v) s
      (fun _ t => Extends s t ∧ (t.m_cache a).isSome ∧
        (s.balances a + v.toNat < 2 ^ 256 → t.balances = Function.update s.balances a (s.balances a + v.toNat)) ∧
        ∃ n, t.balances = Function.update s.balances a n)
      (fun e t => Refused s e t ∧ s.m_accountStartNonce = Invalid256) := by
  rw [addBalance, runs_bind]
  refine (runs_find a s).mono (fun r t ht => ?_) (fun _ _ hf => hf.elim)
  obtain ⟨hk, hc, hb⟩ := ht
  cases r with
  | none =>
    dsimp only at hb ⊢
    rw [runs_bind, runs_get, runs_bind]
    refine (runs_requireAccountStartNonce t).mono ?_ ?_
    · rintro n u ⟨rfl, -, hne⟩
      rw [runs_cache]
      refine ⟨hk.toExtends.trans (extends_insert (mayHold_of_startNonce hne a) _), by rw [cached_insert]; rfl, fun _ => ?_, v.toNat, ?_⟩
      · rw [balances_insert, hk.balances]
        have h0 : s.balances a = 0 := by rw [balances, ← hb]; rfl
        rw [h0, Nat.zero_add]
        rfl
      · rw [balances_insert, hk.balances]
        rfl
    · rintro e u ⟨rfl, ho, hinv⟩
      exact ⟨⟨hk.toKeeps, ho⟩, hk.startNonce ▸ hinv⟩
  | some x =>
    dsimp only at hb ⊢
    rw [runs_cache]
    refine ⟨hk.toExtends.trans (extends_insert (mayHold_of_cached hc) _), by rw [cached_insert]; rfl, fun hlt => ?_,
      (x.addBalance v.toNat).m_balance.toNat, ?_⟩
    · rw [balances_insert, hk.balances]
      have h0 : x.m_balance.toNat = s.balances a := by rw [balances, hb]
      rw [addBalance_toNat (by rw [h0]; exact hlt), h0]
    · rw [balances_insert, hk.balances]

/-- Subtracting from a balance never wraps. -/
theorem runs_subBalance (a : Address) (n : Nat) (s : State) :
    Runs (subBalance a n) s
      (fun _ t => Extends s t ∧ n ≤ s.balances a ∧ t.balances = Function.update s.balances a (s.balances a - n))
      (fun e t => Refused s e t ∧ ((s.m_cache a).isSome → s.balances a < n)) := by
  rw [subBalance, runs_bind]
  refine (runs_find a s).mono (fun r t ht => ?_) (fun _ _ hf => hf.elim)
  obtain ⟨hk, hc, hb⟩ := ht
  cases r with
  | none =>
    refine ⟨⟨hk.toKeeps, _, rfl⟩, fun hs => ?_⟩
    have := hk.cached a hs
    rw [hc] at this
    cases this
  | some x =>
    dsimp only at hb ⊢
    have h0 : x.m_balance.toNat = s.balances a := by rw [balances, hb]
    rw [runs_ite]
    refine ⟨fun hlt => ⟨⟨hk.toKeeps, _, rfl⟩, fun _ => by omega⟩, fun hge => ?_⟩
    rw [runs_cache]
    refine ⟨hk.toExtends.trans (extends_insert (mayHold_of_cached hc) _), by omega, ?_⟩
    rw [balances_insert, hk.balances, subBalance_toNat (by omega), h0]

/-- The balances after a transfer. -/
def moved (f : Address → Nat) («from» «to» : Address) (v : Nat) : Address → Nat :=
  Function.update (Function.update f «from» (f «from» - v)) «to» (Function.update f «from» (f «from» - v) «to» + v)

/-- A transfer moves what there is. -/
theorem total_moved {f : Address → Nat} {«from» «to» : Address} {v : Nat} (h : v ≤ f «from») :
    total (moved f «from» «to» v) = total f := by
  have h1 := total_update (Function.update f «from» (f «from» - v)) «to»
    (Function.update f «from» (f «from» - v) «to» + v)
  have h2 := total_update f «from» (f «from» - v)
  unfold moved
  omega

/-- A transfer within a total of less than `2 ^ 256` does not wrap. An exception leaves the balances as they were, unless the
start nonce is not set, when the value is lost. -/
theorem runs_transferBalance («from» «to» : Address) (v : U256) (s : State) :
    Runs (transferBalance «from» «to» v) s
      (fun _ t => Extends s t ∧ v.toNat ≤ s.balances «from» ∧
        (total s.balances < 2 ^ 256 → t.balances = moved s.balances «from» «to» v.toNat))
      (fun e t => (∃ o, e = .other o) ∧ Extends s t ∧ (s.m_accountStartNonce ≠ Invalid256 → Keeps s t)) := by
  rw [transferBalance, runs_bind]
  refine (runs_subBalance «from» v.toNat s).mono (fun _ t ht => ?_) (fun e t he => ⟨he.1.2, he.1.1.toExtends, fun _ => he.1.1⟩)
  obtain ⟨hx, hle, hb⟩ := ht
  have hsum := total_update s.balances «from» (s.balances «from» - v.toNat)
  rw [← hb] at hsum
  have hto := le_total t.balances «to»
  refine (runs_addBalance «to» v t).mono (fun _ u hu => ?_) (fun e u he => ?_)
  · obtain ⟨hx', -, hb', -⟩ := hu
    refine ⟨hx.trans hx', hle, fun hT => ?_⟩
    rw [hb' (by omega), hb]
    rfl
  · obtain ⟨⟨hk, ho⟩, hinv⟩ := he
    exact ⟨ho, hx.trans hk.toExtends, fun hne => absurd (hx.startNonce ▸ hinv) hne⟩

end State

end Webthree
