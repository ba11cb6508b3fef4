import Webthree.Lemmas.State
import Webthree.Lemmas.VmRun
import Webthree.Evm.Executive

/-!
# Calls and creations

What setting up a call or a creation does, what `go` does to a frame, and that `ExtVM` keeps its contract with the machine when
`go` does for the frames inside: from these the properties of whole executions follow by induction on the levels.
-/

namespace Webthree

open VM (Contract Kept NoMore)

/-- Value is neither created nor lost as long as it fits: the start nonce is set, and all balances add up to less than
`2 ^ 256`. -/
structure Solvent (s : State) : Prop where
  startNonce : s.m_accountStartNonce ≠ Invalid256
  total_lt : total s.balances < 2 ^ 256

theorem Solvent.of_keeps {s t : State} (h : Solvent s) (hk : s.Keeps t) : Solvent t :=
  ⟨hk.startNonce ▸ h.startNonce, hk.balances ▸ h.total_lt⟩

/-! ## Computations on the state -/

theorem Executive.runs_onState {α : Type} (m : State.M α) (e : Executive) (Q : α → Executive → Prop)
    (E : Stop → Executive → Prop) :
    Runs (Executive.onState m) e Q E ↔
      Runs m e.m_s (fun a s => Q a { e with m_s := s }) (fun x s => E x { e with m_s := s }) := by
  unfold Runs Executive.onState
  cases m e.m_s with
  | ok a s => exact Iff.rfl
  | error x s => exact Iff.rfl

theorem ExtVM.runs_onState {α : Type} (m : State.M α) (x : ExtVM) (Q : α → ExtVM → Prop) (E : Stop → ExtVM → Prop) :
    Runs (ExtVM.onState m) x Q E ↔
      Runs m x.m_s (fun a s => Q a { x with m_s := s }) (fun e s => E e { x with m_s := s }) := by
  unfold Runs ExtVM.onState
  cases m x.m_s with
  | ok a s => exact Iff.rfl
  | error e s => exact Iff.rfl

namespace Executive

/-! ## Setting up -/

/-- The state a frame is reverted to. -/
def reverted (s : State) (x : Ext) : State := { s with m_cache := x.m_origCache }

/-- A frame that is ready to run: the machine has not run yet, and its account is in the cache. -/
structure Ready (e : Executive) (x : Ext) : Prop where
  ext : e.m_ext = some x
  sub : x.sub = {}
  cached : (e.m_s.m_cache x.fields.myAddress).isSome
  created : e.m_isCreation = true → e.m_newAddress = x.fields.myAddress
  excepted : e.m_excepted = .None
  env : x.fields.envInfo = e.m_envInfo
  depth : x.fields.depth = e.m_depth

/-- What setting up a call or a creation that is given so much gas has done. -/
structure SetUpDone (gas : U256) (e : Executive) (finished : Bool) (e' : Executive) : Prop where
  extends' : e.m_s.Extends e'.m_s
  env : e'.m_envInfo = e.m_envInfo
  depth : e'.m_depth = e.m_depth
  gas_le : e'.m_gas.toNat ≤ gas.toNat
  wealth : Solvent e.m_s → total e'.m_s.balances = total e.m_s.balances
  idle : finished = true → e'.m_ext = none
  ready : finished = false → ∃ x, Ready e' x ∧ e.m_s.Looks (reverted e.m_s x)
  excepted : finished = true → e'.m_excepted ≠ .None → e'.m_s = e.m_s

/-- What an exception while setting up leaves. -/
def SetUpFailed (e : Executive) (err : Stop) (e' : Executive) : Prop :=
  (∃ o, err = .other o) ∧ e.m_s.Extends e'.m_s ∧ (Solvent e.m_s → total e'.m_s.balances = total e.m_s.balances)

/-- The constructor of `ExtVM` keeps the cache as it was, and puts the account of the frame into the cache. -/
theorem runs_makeExt (fields : ExtFields) (e : Executive) :
    Runs (makeExt fields) e
      (fun _ e' => ∃ s', e.m_s.Keeps s' ∧ (s'.m_cache fields.myAddress).isSome ∧
        e' = { e with m_s := s', m_ext := some { fields := fields, m_origCache := e.m_s.m_cache } })
      (fun err e' => e.m_s.Keeps e'.m_s ∧ ∃ o, err = .other o) := by
  rw [makeExt, runs_bind, runs_get, runs_bind, runs_onState]
  refine (State.runs_ensureCached _ true true e.m_s).mono (fun _ s hs => ?_) (fun err s he => he.1)
  exact ⟨s, hs.1, hs.2.1 rfl, rfl⟩

/-- The transfer at the end of `call`. -/
theorem runs_finish (p : CallParameters) (e : Executive) :
    Runs (call.finish p) e
      (fun fin e' => ∃ s', e.m_s.Extends s' ∧ e' = { e with m_s := s' } ∧ fin = e.m_ext.isNone ∧
        p.valueTransfer.toNat ≤ e.m_s.balances p.senderAddress ∧
        (total e.m_s.balances < 2 ^ 256 →
          s'.balances = State.moved e.m_s.balances p.senderAddress p.receiveAddress p.valueTransfer.toNat))
      (fun err e' => (∃ o, err = .other o) ∧ e.m_s.Extends e'.m_s ∧
        (e.m_s.m_accountStartNonce ≠ Invalid256 → e.m_s.Keeps e'.m_s)) := by
  rw [call.finish, runs_bind, runs_onState]
  refine (State.runs_transferBalance _ _ _ e.m_s).mono (fun _ s hs => ?_) (fun err s he => he)
  exact ⟨s, hs.1, rfl, rfl, hs.2.1, hs.2.2⟩

/-- A transfer that ends a call, from any state that keeps the balances of the first. -/
theorem finish_done {p : CallParameters} {e e₁ : Executive} (hk : e.m_s.Keeps e₁.m_s) (henv : e₁.m_envInfo = e.m_envInfo)
    (hdepth : e₁.m_depth = e.m_depth) (hgas : e₁.m_gas.toNat ≤ p.gas.toNat)
    (hready : e₁.m_ext.isNone = false → ∃ x, Ready e₁ x ∧ e.m_s.Looks (reverted e.m_s x))
    (hexc : e₁.m_excepted = .None) :
    Runs (call.finish p) e₁ (SetUpDone p.gas e) (SetUpFailed e) := by
  refine (runs_finish p e₁).mono ?_ ?_
  · rintro fin e' ⟨s', hx, rfl, rfl, hle, hb⟩
    refine ⟨hk.toExtends.trans hx, henv, hdepth, hgas, fun hsol => ?_, fun h => Option.isNone_iff_eq_none.mp h, fun h => ?_,
      fun _ h => absurd hexc h⟩
    · rw [hb (hk.balances ▸ hsol.total_lt), State.total_moved hle, hk.balances]
    · obtain ⟨x, hr, hrev⟩ := hready h
      exact ⟨x, ⟨hr.ext, hr.sub, hx.cached _ hr.cached, hr.created, hr.excepted, hr.env, hr.depth⟩, hrev⟩
  · rintro err e' ⟨ho, hx, hk'⟩
    refine ⟨ho, hk.toExtends.trans hx, fun hsol => ?_⟩
    rw [(hk' (hk.startNonce ▸ hsol.startNonce)).balances, hk.balances]

/-- Reverting to the cache of a state that only looked things up changes nothing that is known. -/
theorem looks_reverted {s t : State} (h : s.Looks t) (fields : ExtFields) :
    s.Looks (reverted s { fields := fields, m_origCache := t.m_cache }) := by
  have heq : reverted s { fields := fields, m_origCache := t.m_cache } = t := by
    unfold reverted
    rw [← h.sha3, ← h.db, ← h.storage, ← h.state, ← h.startNonce]
  rw [heq]
  exact h

/-- What `call` does. -/
theorem runs_call (E : SealEngine) (p : CallParameters) (gasPrice : U256) (origin : Address) {e : Executive}
    (hext : e.m_ext = none) (hgas : e.m_gas = 0) (hexc : e.m_excepted = .None) :
    Runs (call E p gasPrice origin) e (SetUpDone p.gas e) (SetUpFailed e) := by
  rw [call, runs_bind, runs_modify]
  cases hc : E.precompiled p.codeAddress with
  | some c =>
    dsimp only
    rw [runs_ite]
    refine ⟨fun _ => ?_, fun hle => ?_⟩
    · rw [runs_bind, runs_modify, runs_pure]
      refine ⟨.refl _, rfl, rfl, ?_, fun _ => rfl, fun _ => hext, fun h => (by cases h), fun _ _ => rfl⟩
      rw [hgas]
      exact Nat.zero_le _
    · rw [runs_bind, runs_modify]
      refine finish_done (.refl _) rfl rfl ?_ (by rw [hext]; intro h; cases h) hexc
      have hlt := p.gas.isLt
      rw [BitVec.toNat_ofNat, Nat.mod_eq_of_lt (by omega)]
      omega
  | none =>
    dsimp only
    rw [runs_bind, runs_modify, runs_bind, runs_onState]
    refine (State.runs_addressHasCode _ _).mono (fun b s hs => ?_) (fun _ _ hf => hf.elim)
    cases b with
    | false =>
      simp only [Bool.false_eq_true, if_false]
      exact finish_done hs.toKeeps rfl rfl (Nat.le_refl _) (by rw [hext]; intro h; cases h) hexc
    | true =>
      simp only [if_true]
      rw [runs_bind, runs_onState]
      refine (State.runs_code _ s).mono (fun code t ht => ?_) (fun _ _ hf => hf.elim)
      rw [runs_bind, runs_get, runs_bind]
      refine (runs_makeExt _ _).mono ?_ ?_
      · rintro - e' ⟨s', hk, hcached, rfl⟩
        refine finish_done ((hs.trans ht).toKeeps.trans hk) rfl rfl (Nat.le_refl _)
          (fun _ => ⟨_, ⟨rfl, rfl, hcached, ?_, hexc, rfl, rfl⟩, ?_⟩) hexc
        · intro h
          cases h
        · exact looks_reverted (hs.trans ht) _
      · rintro err e' ⟨hk, ho⟩
        have hall : e.m_s.Keeps e'.m_s := (hs.trans ht).toKeeps.trans hk
        exact ⟨ho, hall.toExtends, fun _ => by rw [hall.balances]⟩

/-- The new account and its endowment, from any state that keeps the balances of the first. -/
theorem conceive_done (sender newAddress : Address) (endowment gas : U256) (init : Bytes) {e e₁ : Executive}
    (hk : e.m_s.Keeps e₁.m_s) (henv : e₁.m_envInfo = e.m_envInfo) (hdepth : e₁.m_depth = e.m_depth)
    (hgas : e₁.m_gas.toNat ≤ gas.toNat)
    (hready : e₁.m_ext.isNone = false → ∃ x, Ready e₁ x ∧ e.m_s.Looks (reverted e.m_s x))
    (hexc : e₁.m_excepted = .None) :
    Runs (create.conceive sender newAddress endowment init) e₁ (SetUpDone gas e) (SetUpFailed e) := by
  rw [create.conceive, runs_bind, runs_onState]
  refine (State.runs_requireAccountStartNonce e₁.m_s).mono ?_ ?_
  · rintro n s ⟨rfl, -, hne⟩
    rw [runs_bind, runs_onState]
    refine (State.runs_balance newAddress _).mono ?_ (fun _ _ hf => hf.elim)
    rintro b s ⟨hks, rfl⟩
    have hbal : s.balanceOf newAddress = e₁.m_s.balanceOf newAddress :=
      BitVec.eq_of_toNat_eq (congrFun hks.balances newAddress)
    rw [runs_bind, runs_get, runs_bind, runs_onState, State.runs_cache, runs_bind, runs_onState]
    have hmay : s.MayHold newAddress := State.mayHold_of_startNonce (hks.startNonce ▸ hne) newAddress
    have hkc := hk.trans (hks.toKeeps.trans (State.keeps_insert (s := s) (a := newAddress) hmay
      (x := .contractConception s.sha3 n (e₁.m_s.balanceOf newAddress)) hbal.symm))
    refine (State.runs_transferBalance sender newAddress endowment
      { s with m_cache := s.m_cache.insert newAddress (.contractConception s.sha3 n (e₁.m_s.balanceOf newAddress)) }).mono ?_ ?_
    · rintro - t ⟨hx, hle, hb⟩
      have hnew : (t.m_cache newAddress).isSome := hx.cached _ (by rw [State.cached_insert]; rfl)
      have hdone : ∀ u, t.Keeps u → SetUpDone gas e e₁.m_ext.isNone { e₁ with m_s := u } := by
        intro u hu
        have hxu := hx.trans hu.toExtends
        refine ⟨hkc.toExtends.trans hxu, henv, hdepth, hgas, fun hsol => ?_, fun h => Option.isNone_iff_eq_none.mp h,
          fun h => ?_, fun _ h => absurd hexc h⟩
        · rw [hu.balances, hb (hkc.balances ▸ hsol.total_lt), State.total_moved hle, hkc.balances]
        · obtain ⟨x, hr, hrev⟩ := hready h
          have hcached : (u.m_cache x.fields.myAddress).isSome :=
            hxu.cached _ ((State.extends_insert hmay _).cached _ (hks.cached _ hr.cached))
          exact ⟨x, ⟨hr.ext, hr.sub, hcached, hr.created, hr.excepted, hr.env, hr.depth⟩, hrev⟩
      by_cases hi : init = []
      · simp only [hi, if_true]
        rw [runs_bind, runs_onState]
        exact (State.runs_setCode newAddress [] hnew).mono (fun _ u hu => hdone u hu) (fun _ _ hf => hf.elim)
      · simp only [hi, if_false]
        exact hdone t (.refl t)
    · rintro err t ⟨ho, hx, hkt⟩
      refine ⟨ho, hkc.toExtends.trans hx, fun hsol => ?_⟩
      rw [(hkt (hkc.startNonce ▸ hsol.startNonce)).balances, hkc.balances]
  · rintro err s ⟨rfl, ho, -⟩
    exact ⟨ho, hk.toExtends, fun _ => by rw [hk.balances]⟩

/-- What `create` does. -/
theorem runs_create (sender : Address) (endowment gasPrice gas : U256) (init : Bytes) (origin : Address) {e : Executive}
    (hext : e.m_ext = none) (hexc : e.m_excepted = .None) :
    Runs (create sender endowment gasPrice gas init origin) e (SetUpDone gas e) (SetUpFailed e) := by
  rw [create, runs_bind, runs_modify, runs_bind, runs_onState]
  refine (State.runs_transactionsFrom sender _).mono (fun n s hs => ?_) (fun _ _ hf => hf.elim)
  rw [runs_bind, runs_get, runs_bind, runs_modify]
  by_cases hi : init ≠ []
  · rw [if_pos hi, runs_bind, runs_get, runs_bind]
    refine (runs_makeExt _ _).mono ?_ ?_
    · rintro - e' ⟨s', hk, hcached, rfl⟩
      refine conceive_done _ _ _ _ _ (hs.toKeeps.trans hk) rfl rfl (Nat.le_refl _)
        (fun _ => ⟨_, ⟨rfl, rfl, hcached, fun _ => rfl, hexc, rfl, rfl⟩, ?_⟩) hexc
      exact looks_reverted hs _
    · rintro err e' ⟨hk, ho⟩
      have hall : e.m_s.Keeps e'.m_s := hs.toKeeps.trans hk
      exact ⟨ho, hall.toExtends, fun _ => by rw [hall.balances]⟩
  · rw [if_neg hi]
    exact conceive_done _ _ _ _ _ hs.toKeeps rfl rfl (Nat.le_refl _) (by rw [hext]; intro h; cases h) hexc

/-- What no frame changes is the same in the state it is reverted to. -/
theorem reverted_eq {s t : State} (h : s.Extends t) (x : Ext) : reverted t x = reverted s x := by
  unfold reverted
  rw [h.sha3, h.db, h.storage, h.state, h.startNonce]

end Executive

/-! ## What a frame keeps -/

/-- What a frame that began in the state `base` keeps: the cache grows, and what the accounts hold together with what was burnt
by suicides is what they held at first. -/
structure ExtVM.Within (base : State) (x : ExtVM) : Prop where
  extends' : base.Extends x.m_s
  burnt : ∀ a, x.sub.burnt a ≠ 0 → a ∈ x.sub.suicides
  wealth : Solvent base → total x.m_s.balances + total x.sub.burnt = total base.balances

namespace ExtVM

variable {base : State} {x : ExtVM}

theorem Within.solvent (h : Within base x) (hs : Solvent base) : Solvent x.m_s := by
  have h1 := h.wealth hs
  have h2 := hs.total_lt
  exact ⟨h.extends'.startNonce ▸ hs.startNonce, by omega⟩

theorem within_refl (s : State) : Within s ⟨s, {}⟩ := by
  refine ⟨.refl s, fun a ha => absurd rfl ha, fun _ => ?_⟩
  exact (congrArg (total s.balances + ·) total_zero).trans (Nat.add_zero _)

/-- What leaves the sum of the balances as it was stays within the frame. -/
theorem Within.of_total (h : Within base x) {s : State} (hx : x.m_s.Extends s)
    (ht : Solvent x.m_s → total s.balances = total x.m_s.balances) : Within base { x with m_s := s } := by
  refine ⟨h.extends'.trans hx, h.burnt, fun hs => ?_⟩
  rw [← h.wealth hs, ht (h.solvent hs)]

theorem Within.of_keeps (h : Within base x) {s : State} (hk : x.m_s.Keeps s) : Within base { x with m_s := s } :=
  h.of_total hk.toExtends fun _ => by rw [hk.balances]

/-- What happens to the state within a frame that runs inside this one happens within this one. -/
theorem Within.trans (h : Within base x) {y : ExtVM} (h' : Within x.m_s y) : Within base ⟨y.m_s, x.sub.add y.sub⟩ := by
  refine ⟨h.extends'.trans h'.extends', fun a ha => ?_, fun hs => ?_⟩
  · simp only [SubState.add, Finset.mem_union] at ha ⊢
    by_cases hb : x.sub.burnt a = 0
    · exact Or.inr (h'.burnt a (by omega))
    · exact Or.inl (h.burnt a hb)
  · have h1 := h.wealth hs
    have h2 := h'.wealth (h.solvent hs)
    show total y.m_s.balances + total (fun a => x.sub.burnt a + y.sub.burnt a) = total base.balances
    rw [total_add]
    omega

/-- The balances after a suicide, within a total of less than `2 ^ 256`: what the account had goes to another one, or nowhere. -/
theorem total_suicide {f : Address → Nat} {my dest : Address} {n : Nat} (hn : f dest + f my < 2 ^ 256 → n = f dest + f my)
    (hf : total f < 2 ^ 256) :
    total (Function.update (Function.update f dest n) my 0) + (if dest = my then f my else 0) = total f := by
  have h1 := total_update (Function.update f dest n) my 0
  by_cases hd : dest = my
  · subst hd
    have h2 := total_update f dest 0
    rw [Function.update_idem, if_pos rfl]
    omega
  · have h2 := total_update f dest n
    have h3 := add_le_total f hd
    rw [Function.update_of_ne (Ne.symm hd)] at h1
    rw [if_neg hd]
    have := hn (by omega)
    omega

/-- `suicide` moves the whole balance of the account. -/
theorem runs_suicide (dest : Address) {my : Address} (h : Within base x) (hmy : (base.m_cache my).isSome) :
    Runs (suicide my dest) x (fun _ y => Within base y) (fun err y => (∃ o, err = .other o) ∧ Within base y) := by
  rw [suicide, runs_bind, runs_onState]
  refine (State.runs_balance my x.m_s).mono ?_ (fun _ _ hf => hf.elim)
  rintro b s ⟨hk, rfl⟩
  rw [runs_bind, runs_onState]
  refine (State.runs_addBalance dest _ s).mono ?_ (fun err t he => ⟨he.1.2, h.of_keeps (hk.toKeeps.trans he.1.1)⟩)
  rintro - t ⟨hx, -, hb, n, hn⟩
  rw [runs_bind, runs_onState]
  refine (State.runs_balance my t).mono ?_ (fun _ _ hf => hf.elim)
  rintro b' u ⟨hku, rfl⟩
  have hxu : x.m_s.Extends u := hk.toExtends.trans (hx.trans hku.toExtends)
  rw [runs_bind, runs_onState]
  refine (State.runs_subBalance my _ u).mono ?_ ?_
  · rintro - v ⟨hxv, -, hv⟩
    rw [runs_modify]
    refine ⟨h.extends'.trans (hxu.trans hxv), fun a ha => ?_, fun hs => ?_⟩
    · simp only [Finset.mem_insert] at ha ⊢
      by_cases ham : a = my
      · exact Or.inl ham
      · exact Or.inr (h.burnt a (by simpa [ham] using ha))
    · have hzero : v.balances = Function.update (Function.update x.m_s.balances dest n) my 0 := by
        rw [hv, hku.balances, hn, hk.balances]
        congr 1
        exact Nat.sub_eq_zero_of_le (by rw [← hk.balances, ← hn]; exact Nat.le_refl _)
      have hsum : n = x.m_s.balances dest + x.m_s.balances my ∨ ¬ x.m_s.balances dest + x.m_s.balances my < 2 ^ 256 := by
        by_cases hlt : x.m_s.balances dest + x.m_s.balances my < 2 ^ 256
        · have h1 := hb (by rw [hk.balances]; exact hlt)
          have h2 := congrFun (h1.symm.trans hn) dest
          rw [Function.update_self, Function.update_self, hk.balances] at h2
          exact Or.inl h2.symm
        · exact Or.inr hlt
      have ht := total_suicide (n := n) (fun hlt => hsum.resolve_right (fun hc => hc hlt)) (h.solvent hs).total_lt
      have hburnt : total (fun a => x.sub.burnt a + if a = my ∧ dest = my then x.m_s.balances my else 0) =
          total x.sub.burnt + if dest = my then x.m_s.balances my else 0 := by
        rw [total_add]
        congr 1
        by_cases hd : dest = my
        · simp only [hd, and_true, if_true]
          exact total_single my _
        · simp only [hd, and_false, if_false]
          exact total_zero
      have hw := h.wealth hs
      show total v.balances + total (fun a => x.sub.burnt a + if a = my ∧ dest = my then x.m_s.balances my else 0) = _
      rw [hburnt, hzero]
      omega
  · rintro err v ⟨-, hlt⟩
    have hmem : (u.m_cache my).isSome := hxu.cached my (h.extends'.cached my hmy)
    have := hlt hmem
    rw [hku.balances] at this
    exact absurd this (Nat.lt_irrefl _)

end ExtVM

/-! ## Frames inside frames -/

/-- What `go` has done to a frame that was ready: it ran within the frame, or the machine threw and all of it is undone. -/
structure Executive.GoDone (G : U256 → U256 → Prop) (e : Executive) (x : Ext) (e' : Executive) : Prop where
  gas : G e.m_gas e'.m_gas
  env : e'.m_envInfo = e.m_envInfo
  outcome : ∃ x', e'.m_ext = some x' ∧ x'.fields = x.fields ∧
    ((e'.m_excepted = .None ∧ ExtVM.Within e.m_s ⟨e'.m_s, x'.sub⟩) ∨
      (e'.m_excepted ≠ .None ∧ e'.m_s = reverted e.m_s x ∧ x'.sub = {}))

/-- What a frame of so much gas at most relies on for the frames inside it. -/
def Executive.Does (G : U256 → U256 → Prop) (Y : Stop → Prop) (limit : Nat) (depth : Nat) (env : EnvInfo)
    (nested : Executive.M Unit) : Prop :=
  ∀ e x, Executive.Ready e x → e.m_depth = depth → e.m_envInfo = env → e.m_gas.toNat < limit →
    Runs nested e (fun _ e' => Executive.GoDone G e x e') (fun err _ => Y err ∧ ¬ VM.Caught err)

/-- An order of gas: handing back less is allowed, and so is being given less. -/
structure GasOrder (G : U256 → U256 → Prop) : Prop where
  le : ∀ {x y : U256}, y.toNat ≤ x.toNat → G x y
  trans : ∀ {x y z : U256}, G x y → G y z → G x z

namespace ExtVM

variable {base : State} {x : ExtVM} {G : U256 → U256 → Prop} {X : Stop → Prop} {limit : Nat}

theorem add_empty (s : SubState) : s.add {} = s := by
  simp [SubState.add]

/-- A frame inside this one, whether or not it is reverted, stays within this one. -/
theorem Within.nested (h : Within base x) {gas : U256} {e₀ e e' : Executive} {y : Ext} (h₀ : e₀.m_s = x.m_s)
    (hset : Executive.SetUpDone gas e₀ false e) (hrev : e₀.m_s.Looks (Executive.reverted e₀.m_s y))
    (hgo : Executive.GoDone G e y e') :
    Within base ⟨e'.m_s, e'.accrueSubState x.sub⟩ := by
  obtain ⟨y', hy', -, hout⟩ := hgo.outcome
  simp only [Executive.accrueSubState, hy']
  rcases hout with ⟨-, hin⟩ | ⟨-, hback, hsub⟩
  · have hset' : Within x.m_s ⟨e.m_s, {}⟩ :=
      (within_refl x.m_s).of_total (h₀ ▸ hset.extends') (fun hs => by rw [hset.wealth (h₀ ▸ hs), h₀])
    have hboth := h.trans (hset'.trans hin)
    have hsub : (({} : SubState).add y'.sub) = y'.sub := by simp [SubState.add]
    rw [hsub] at hboth
    exact hboth
  · rw [hsub, add_empty, hback, Executive.reverted_eq hset.extends']
    exact h.of_keeps (h₀ ▸ hrev.toKeeps)

/-- A frame inside this one that ends with an exception adds nothing to the sub-state and leaves what is known as it was. -/
theorem undone_withExecutive {fields : ExtFields} {setUp : Executive.M Bool} {nested : Executive.M Unit} {gas : U256}
    {Y : Stop → Prop} {vm vm' : ExtVM} {e : Executive}
    (hset : ∀ e : Executive, e.m_ext = none → e.m_gas = 0 → e.m_excepted = .None →
      Runs setUp e (Executive.SetUpDone gas e) (Executive.SetUpFailed e))
    (hgo : Executive.Does G Y (2 ^ 256) (fields.depth + 1) fields.envInfo nested)
    (hrun : withExecutive fields setUp nested vm = .ok e vm') (hexc : e.m_excepted ≠ .None) :
    vm'.sub = vm.sub ∧ vm'.m_s.known = vm.m_s.known := by
  have hs := hset { m_s := vm.m_s, m_envInfo := fields.envInfo, m_depth := fields.depth + 1 } rfl rfl rfl
  unfold withExecutive at hrun
  dsimp only at hrun
  cases hset' : setUp { m_s := vm.m_s, m_envInfo := fields.envInfo, m_depth := fields.depth + 1 } with
  | error err e₁ => rw [hset'] at hrun; cases hrun
  | ok fin e₁ =>
    rw [hset'] at hrun
    have hdone := hs.of_ok hset'
    cases fin with
    | true =>
      cases hrun
      exact ⟨rfl, congrArg State.known (hdone.excepted rfl hexc)⟩
    | false =>
      obtain ⟨y, hready, hrev⟩ := hdone.ready rfl
      cases hgr : nested e₁ with
      | error err e₂ => simp only [hgr] at hrun; cases hrun
      | ok _ e₂ =>
        simp only [hgr] at hrun
        cases hrun
        have hg := (hgo e₁ y hready hdone.depth hdone.env e₁.m_gas.isLt).of_ok hgr
        obtain ⟨y', hy', -, hout⟩ := hg.outcome
        rcases hout with ⟨hnone, -⟩ | ⟨-, hback, hsub⟩
        · exact absurd hnone hexc
        · refine ⟨?_, ?_⟩
          · simp only [Executive.accrueSubState, hy', hsub]
            exact add_empty vm.sub
          · show e.m_s.known = vm.m_s.known
            rw [hback, Executive.reverted_eq hdone.extends']
            exact hrev.known

/-- An `Executive` set up and run inside a frame. -/
theorem runs_withExecutive {fields : ExtFields} {setUp : Executive.M Bool} {nested : Executive.M Unit} {gas : U256}
    (hG : GasOrder G) (hX : ∀ o, X (.other o)) (h : Within base x)
    (hset : ∀ e : Executive, e.m_ext = none → e.m_gas = 0 → e.m_excepted = .None →
      Runs setUp e (Executive.SetUpDone gas e) (Executive.SetUpFailed e))
    (hgo : Executive.Does G X limit (fields.depth + 1) fields.envInfo nested) (hgas : gas.toNat < limit) :
    Runs (withExecutive fields setUp nested) x (fun e y => Within base y ∧ G gas e.m_gas)
      (fun err y => Kept (Within base) err y ∧ X err) := by
  have hs := hset { m_s := x.m_s, m_envInfo := fields.envInfo, m_depth := fields.depth + 1 } rfl rfl rfl
  unfold Runs withExecutive at *
  generalize he₀ : ({ m_s := x.m_s, m_envInfo := fields.envInfo, m_depth := fields.depth + 1 } : Executive) = e₀ at hs
  have hm : e₀.m_s = x.m_s := by rw [← he₀]
  have henv : e₀.m_envInfo = fields.envInfo := by rw [← he₀]
  have hdepth : e₀.m_depth = fields.depth + 1 := by rw [← he₀]
  simp only
  cases hrun : setUp e₀ with
  | error err e =>
    rw [hrun] at hs
    obtain ⟨⟨o, rfl⟩, hx, ht⟩ := hs
    exact ⟨fun _ => h.of_total (hm ▸ hx) (fun hsol => by rw [ht (hm ▸ hsol), hm]), hX o⟩
  | ok fin e =>
    rw [hrun] at hs
    cases fin with
    | true => exact ⟨h.of_total (hm ▸ hs.extends') (fun hsol => by rw [hs.wealth (hm ▸ hsol), hm]), hG.le hs.gas_le⟩
    | false =>
      obtain ⟨y, hready, hrev⟩ := hs.ready rfl
      have hle := hs.gas_le
      have hg := hgo e y hready (hs.depth.trans hdepth) (hs.env.trans henv) (by omega)
      unfold Runs at hg
      dsimp only
      cases hgr : nested e with
      | error err e' =>
        rw [hgr] at hg
        exact ⟨fun hc => absurd hc hg.2, hg.1⟩
      | ok _ e' =>
        rw [hgr] at hg
        exact ⟨h.nested hm hs hrev hg, hG.trans (hG.le hs.gas_le) hg.gas⟩

/-- `ExtVM` keeps the contract of the machine, if the frames inside do what they should. -/
theorem face_contract (E : SealEngine) (sha3 : Bytes → H256) (fields : ExtFields) {nested : Executive.M Unit}
    (hG : GasOrder G) (hX : ∀ o, X (.other o)) (hmy : (base.m_cache fields.myAddress).isSome)
    (hgo : fields.depth < 1024 → Executive.Does G X limit (fields.depth + 1) fields.envInfo nested) :
    Contract (face E sha3 fields nested) (Within base) X G limit where
  store := by
    intro k s hs
    refine (runs_onState _ _ _ _).mpr ((State.runs_storage _ _ _).mono (fun _ t ht => hs.of_keeps ht) (fun _ _ hf => hf.elim))
  setStore := by
    intro k v s hs
    refine (runs_onState _ _ _ _).mpr ((State.runs_setStorage _ _ _ (hs.extends'.cached _ hmy)).mono
      (fun _ t ht => hs.of_keeps ht) (fun _ _ hf => hf.elim))
  balance := by
    intro a s hs
    refine (runs_onState _ _ _ _).mpr ((State.runs_balance _ _).mono (fun _ t ht => hs.of_keeps ht.1.toKeeps) (fun _ _ hf => hf.elim))
  codeAt := by
    intro a s hs
    refine (runs_onState _ _ _ _).mpr ((State.runs_code _ _).mono (fun _ t ht => hs.of_keeps ht.toKeeps) (fun _ _ hf => hf.elim))
  «exists» := by
    intro a s hs
    refine (runs_onState _ _ _ _).mpr ((State.runs_addressInUse _ _).mono (fun _ t ht => hs.of_keeps ht.toKeeps)
      (fun _ _ hf => hf.elim))
  suicide := by
    intro a s hs
    refine (runs_suicide a hs hmy).mono (fun _ t ht => ht) ?_
    rintro err t ⟨⟨o, rfl⟩, ht⟩
    exact ⟨fun _ => ht, hX o⟩
  create := by
    intro v gas b s hs hlt hdepth
    show Runs (create fields nested v gas b) s _ _
    rw [create, runs_bind, runs_onState]
    refine (State.runs_noteSending _ _).mono (fun _ t ht => ?_) ?_
    · rw [runs_bind]
      refine (runs_withExecutive hG hX (hs.of_keeps ht) (fun e h1 _ h3 => Executive.runs_create _ _ _ _ _ _ h1 h3)
        (hgo hdepth) hlt).mono (fun e y hy => hy) (fun err y hy => hy)
    · rintro err t ⟨hk, o, rfl⟩
      exact ⟨fun _ => hs.of_keeps hk, hX o⟩
  call := by
    intro p s hs hlt hdepth
    show Runs (call E fields nested p) s _ _
    rw [call, runs_bind]
    exact (runs_withExecutive hG hX hs (fun e h1 h2 h3 => Executive.runs_call E p _ _ h1 h2 h3) (hgo hdepth) hlt).mono
      (fun e y hy => hy) (fun err y hy => hy)
  log := fun ts b s hs => ⟨hs.extends', hs.burnt, hs.wealth⟩
  addRefunds := fun v s hs => ⟨hs.extends', hs.burnt, hs.wealth⟩

end ExtVM

namespace Executive

variable {G : U256 → U256 → Prop} {Y : Stop → Prop}

theorem toTransactionException_ne_none (v : VMException) : toTransactionException v ≠ .None := by
  cases v <;> decide

/-- What the machine leaves of a frame when it returns or throws. -/
def LoopDone (G : U256 → U256 → Prop) (e : Executive) (t : Frame ExtVM) : Prop :=
  ExtVM.Within e.m_s t.ext ∧ G e.m_gas t.io_gas

/-- An exception of the machine undoes the whole frame. -/
theorem catchVM_done (hG : GasOrder G) {e e₁ : Executive} {x : Ext} (hx : e.m_s.Extends e₁.m_s) (v : VMException)
    (henv : e₁.m_envInfo = e.m_envInfo) : GoDone G e x (catchVM x v e₁) := by
  refine ⟨hG.le (Nat.zero_le _), henv, _, rfl, rfl, Or.inr ⟨toTransactionException_ne_none v, ?_, rfl⟩⟩
  exact reverted_eq hx x

/-- Giving the new account its code changes no balance. -/
theorem keeps_setNewCode (out : Bytes) {e : Executive} (h : (e.m_s.m_cache e.m_newAddress).isSome) :
    e.m_s.Keeps (setNewCode out e).m_s := by
  obtain ⟨a, ha⟩ := Option.isSome_iff_exists.mp h
  refine State.keeps_insert (State.mayHold_of_cached ha) ?_
  simp [State.balanceOf, ha, Account.setCode]

/-- What is taken for the code of a creation is there. -/
theorem deposit_gas_le {sched : EVMSchedule} {out : Bytes} {e e' : Executive} (hd : deposit sched out e = .ok e') :
    e'.m_gas.toNat ≤ e.m_gas.toNat := by
  unfold deposit at hd
  split at hd
  · rename_i hle
    cases hd
    have hsub : BitVec.ofNat 256 out.length * sched.createDataGas ≤ e.m_gas := hle
    show (e.m_gas - BitVec.ofNat 256 out.length * sched.createDataGas).toNat ≤ e.m_gas.toNat
    rw [BitVec.toNat_sub_of_le hsub]
    exact Nat.sub_le _ _
  · split at hd
    · cases hd
    · cases hd
      exact Nat.le_refl _

/-- What `go` does with the code that a creation returned keeps the balances. -/
theorem deposit_done {sched : EVMSchedule} {out : Bytes} {e e' : Executive}
    (h : (e.m_s.m_cache e.m_newAddress).isSome) (hd : deposit sched out e = .ok e') :
    e.m_s.Keeps e'.m_s ∧ e'.m_ext = e.m_ext ∧ e'.m_excepted = e.m_excepted ∧ e'.m_envInfo = e.m_envInfo := by
  unfold deposit at hd
  split at hd
  · cases hd
    exact ⟨keeps_setNewCode out h, rfl, rfl, rfl⟩
  · split at hd
    · cases hd
    · cases hd
      exact ⟨keeps_setNewCode [] h, rfl, rfl, rfl⟩

/-- `go`, from what the machine's loop does. -/
theorem runs_goWith (hG : GasOrder G) (E : SealEngine) (turns : Nat) (nested : M Unit) {e : Executive} {x : Ext}
    (hr : Ready e x)
    (hloop : Runs (VM.loop (ExtVM.face E e.m_s.sha3 x.fields nested) turns)
      (VM.initial (ExtVM.face E e.m_s.sha3 x.fields nested) e.m_gas ⟨e.m_s, x.sub⟩) (fun _ t => LoopDone G e t)
      (fun err t => (VM.Caught err → LoopDone G e t) ∧ (VM.Caught err ∨ Y err))) :
    Runs (goWith E turns nested) e (fun _ e' => GoDone G e x e') (fun err _ => Y err ∧ ¬ VM.Caught err) := by
  unfold Runs at hloop ⊢
  simp only [goWith, hr.ext, VM.execImpl]
  cases hrun : VM.loop (ExtVM.face E e.m_s.sha3 x.fields nested) turns
      (VM.initial (ExtVM.face E e.m_s.sha3 x.fields nested) e.m_gas ⟨e.m_s, x.sub⟩) with
  | ok out t =>
    rw [hrun] at hloop
    obtain ⟨hin, hgas⟩ := hloop
    dsimp only
    by_cases hc : e.m_isCreation = true
    · rw [if_pos hc]
      cases hd : deposit (ExtVM.face E e.m_s.sha3 x.fields nested).evmSchedule out
          (noteDeposit out { e with m_gas := t.io_gas, m_s := t.ext.m_s, m_ext := some { x with sub := t.ext.sub } }) with
      | ok e' =>
        have hnew : (t.ext.m_s.m_cache e.m_newAddress).isSome := by
          rw [hr.created hc]
          exact hin.extends'.cached _ hr.cached
        obtain ⟨hk, hext, hexc, henv⟩ := deposit_done (by exact hnew) hd
        refine ⟨hG.trans hgas (hG.le (deposit_gas_le hd)), henv, _, hext, rfl, Or.inl ⟨hexc.trans hr.excepted, ?_⟩⟩
        exact hin.of_keeps hk
      | error v => exact catchVM_done hG hin.extends' v rfl
    · rw [if_neg hc]
      exact ⟨hgas, rfl, _, rfl, rfl, Or.inl ⟨hr.excepted, hin⟩⟩
  | error err t =>
    rw [hrun] at hloop
    obtain ⟨hkept, hwhy⟩ := hloop
    cases err with
    | vm v => exact catchVM_done hG (hkept trivial).1.extends' v rfl
    | other o => exact ⟨(hkept trivial).2, rfl, _, rfl, rfl, Or.inl ⟨hr.excepted, (hkept trivial).1⟩⟩
    | fault f => exact ⟨hwhy.resolve_left id, id⟩
    | outOfFuel => exact ⟨hwhy.resolve_left id, id⟩

/-! ## Induction on the levels -/

theorem Does.mono {Y' : Stop → Prop} {limit limit' depth : Nat} {env : EnvInfo} {nested : M Unit}
    (h : Does G Y limit depth env nested) (hY : ∀ err, Y err → Y' err) (hl : limit' ≤ limit) :
    Does G Y' limit' depth env nested := by
  intro e x hr hd he hg
  exact (h e x hr hd he (by omega)).mono (fun _ _ hq => hq) (fun err _ hq => ⟨hY err hq.1, hq.2⟩)

/-- The contract of a frame that is ready, from what the frames inside it do. -/
theorem Ready.contract (hG : GasOrder G) (E : SealEngine) {nested : M Unit} {e : Executive} {x : Ext} {limit : Nat}
    (hr : Ready e x) (hgo : e.m_depth < 1024 → Does G Y limit (e.m_depth + 1) e.m_envInfo nested) :
    Contract (ExtVM.face E e.m_s.sha3 x.fields nested) (ExtVM.Within e.m_s) (fun err => (∃ o, err = .other o) ∨ Y err) G
      limit := by
  refine ExtVM.face_contract E _ _ hG (fun o => Or.inl ⟨o, rfl⟩) hr.cached ?_
  rw [hr.depth, hr.env]
  exact fun hd => (hgo hd).mono (fun err => Or.inr) (Nat.le_refl _)

theorem Ready.within {e : Executive} {x : Ext} (hr : Ready e x) : ExtVM.Within e.m_s ⟨e.m_s, x.sub⟩ := by
  rw [hr.sub]
  exact ExtVM.within_refl e.m_s

theorem gasOrder_any : GasOrder fun _ _ => True := ⟨fun _ => trivial, fun _ _ => trivial⟩

theorem gasOrder_noMore : GasOrder NoMore := ⟨fun h => h, fun h h' => Nat.le_trans h' h⟩

/-- How `go` may fail under any schedule. -/
def EndsAny (err : Stop) : Prop := err = .fault .temp ∨ err = .outOfFuel

/-- `go` under any schedule. -/
theorem go_does_any (E : SealEngine) (turns levels depth : Nat) (env : EnvInfo) :
    Does (fun _ _ => True) EndsAny (2 ^ 256) depth env (go E turns levels) := by
  induction levels generalizing depth with
  | zero => exact fun e x _ _ _ _ => ⟨Or.inr rfl, id⟩
  | succ n ih =>
    intro e x hr hd he _
    refine runs_goWith gasOrder_any E turns _ hr ?_
    have C := hr.contract gasOrder_any E (fun _ => by rw [he]; exact ih (e.m_depth + 1))
    refine (VM.runs_loop_any C turns hr.within).mono (fun _ t ht => ⟨ht, trivial⟩) ?_
    rintro err t ⟨hk, hwhy⟩
    refine ⟨fun hc => ⟨hk hc, trivial⟩, ?_⟩
    rcases hwhy with (⟨o, rfl⟩ | hy) | ⟨v, rfl⟩ | rfl | rfl
    · exact Or.inl trivial
    · exact Or.inr hy
    · exact Or.inl trivial
    · exact Or.inr (Or.inl rfl)
    · exact Or.inr (Or.inr rfl)

/-- How `go` may fail under a sound schedule, for frames of less gas than `limit`: outside the memory if memory that 32 bits
cannot address can be paid for, and without fuel if there are too few turns or levels. -/
def Ends (sched : EVMSchedule) (turns levels depth limit : Nat) (err : Stop) : Prop :=
  (err = .fault .temp ∧ VM.gasForMem sched (2 ^ 32) < limit) ∨
    (err = .outOfFuel ∧ (turns < limit ∨ levels + depth ≤ 1024))

/-- `go` under a sound schedule. -/
theorem go_does (E : SealEngine) {env : EnvInfo} (hS : VM.SoundSchedule (E.evmSchedule env)) (turns levels depth limit : Nat)
    (hdepth : depth ≤ 1024) :
    Does NoMore (Ends (E.evmSchedule env) turns levels depth limit) limit depth env (go E turns levels) := by
  induction levels generalizing depth limit with
  | zero => exact fun e x _ _ _ _ => ⟨Or.inr ⟨rfl, Or.inr (by omega)⟩, id⟩
  | succ n ih =>
    intro e x hr hd he hlt
    refine runs_goWith gasOrder_noMore E turns _ hr ?_
    have C := hr.contract gasOrder_noMore E (fun hd' => by rw [he]; exact ih (e.m_depth + 1) e.m_gas.toNat hd')
    have hsched : (ExtVM.face E e.m_s.sha3 x.fields (go E turns n)).evmSchedule = E.evmSchedule env := by
      rw [← he, ← hr.env]
      rfl
    refine (VM.runs_loop (hsched ▸ hS) C turns hr.within (Nat.le_refl _)).mono (fun _ t ht => ht) ?_
    rintro err t ⟨⟨hk, hle⟩, hwhy⟩
    refine ⟨fun hc => ⟨hk hc, hle⟩, ?_⟩
    rcases hwhy with (⟨o, rfl⟩ | ⟨rfl, hm⟩ | ⟨rfl, hm⟩) | ⟨v, rfl⟩ | ⟨rfl, hm⟩ | ⟨rfl, hm⟩
    · exact Or.inl trivial
    · exact Or.inr (Or.inl ⟨rfl, by omega⟩)
    · exact Or.inr (Or.inr ⟨rfl, by omega⟩)
    · exact Or.inl trivial
    · refine Or.inr (Or.inl ⟨rfl, ?_⟩)
      have h0 : VM.gasForMem (E.evmSchedule env) 0 = 0 := by simp [VM.gasForMem]
      unfold VM.Bounded at hm
      rw [hsched] at hm
      have hm' : ¬ (e.m_gas.toNat + VM.gasForMem (E.evmSchedule env) 0 < VM.gasForMem (E.evmSchedule env) (2 ^ 32)) := hm
      omega
    · exact Or.inr (Or.inr ⟨rfl, Or.inl (lt_of_le_of_lt hm hlt)⟩)

end Executive

/-! ## The contract of `ExtVM` -/

section Contracts

variable (E : SealEngine) (sha3 : Bytes → H256) {fields : ExtFields} {s : State} (turns levels : Nat)

/-- The contract of `ExtVM` under any schedule. -/
theorem ExtVM.contract_any (hmy : (s.m_cache fields.myAddress).isSome) :
    Contract (ExtVM.face E sha3 fields (Executive.go E turns levels)) (ExtVM.Within s)
      (fun err => (∃ o, err = .other o) ∨ Executive.EndsAny err) (fun _ _ => True) (2 ^ 256) :=
  ExtVM.face_contract E sha3 fields Executive.gasOrder_any (fun o => Or.inl ⟨o, rfl⟩) hmy
    (fun _ => (Executive.go_does_any E turns levels _ _).mono (fun _ => Or.inr) (Nat.le_refl _))

/-- The contract of `ExtVM` under a sound schedule. -/
theorem ExtVM.contract (hS : VM.SoundSchedule (E.evmSchedule fields.envInfo)) (limit : Nat)
    (hmy : (s.m_cache fields.myAddress).isSome) :
    Contract (ExtVM.face E sha3 fields (Executive.go E turns levels)) (ExtVM.Within s)
      (fun err => (∃ o, err = .other o) ∨
        Executive.Ends (E.evmSchedule fields.envInfo) turns levels (fields.depth + 1) limit err) NoMore limit :=
  ExtVM.face_contract E sha3 fields Executive.gasOrder_noMore (fun o => Or.inl ⟨o, rfl⟩) hmy
    (fun hd => (Executive.go_does E hS turns levels _ limit hd).mono (fun _ => Or.inr) (Nat.le_refl _))

end Contracts

/-! ## The depth of frames -/

theorem ExtVM.withExecutive_congr {fields : ExtFields} {setUp : Executive.M Bool} {nested nested' : Executive.M Unit}
    {gas : U256} (hd : fields.depth < 1024) (h : ∀ e : Executive, e.m_depth ≤ 1024 → nested e = nested' e)
    (hset : ∀ e : Executive, e.m_ext = none → e.m_gas = 0 → e.m_excepted = .None →
      Runs setUp e (Executive.SetUpDone gas e) (Executive.SetUpFailed e)) :
    ExtVM.withExecutive fields setUp nested = ExtVM.withExecutive fields setUp nested' := by
  funext x
  have hs := hset { m_s := x.m_s, m_envInfo := fields.envInfo, m_depth := fields.depth + 1 } rfl rfl rfl
  unfold ExtVM.withExecutive
  dsimp only
  cases hrun : setUp { m_s := x.m_s, m_envInfo := fields.envInfo, m_depth := fields.depth + 1 } with
  | error err e => rfl
  | ok fin e =>
    cases fin with
    | true => rfl
    | false =>
      have hdepth : e.m_depth = fields.depth + 1 := (hs.of_ok hrun).depth
      dsimp only
      rw [h e (by omega)]

/-- A frame at a depth of at most 1024 runs no frame at a greater depth. -/
theorem Executive.goWith_congr (E : SealEngine) (turns : Nat) {nested nested' : Executive.M Unit}
    (h : ∀ e : Executive, e.m_depth ≤ 1024 → nested e = nested' e) {e : Executive} {x : Ext} (hx : e.m_ext = some x)
    (hd : x.fields.depth ≤ 1024) : Executive.goWith E turns nested e = Executive.goWith E turns nested' e := by
  unfold Executive.goWith
  rw [hx]
  dsimp only
  by_cases hlt : x.fields.depth < 1024
  · have hcall : ExtVM.call E x.fields nested = ExtVM.call E x.fields nested' := by
      funext p
      unfold ExtVM.call
      rw [ExtVM.withExecutive_congr hlt h (fun e h1 h2 h3 => Executive.runs_call E p _ _ h1 h2 h3)]
    have hcreate : ExtVM.create x.fields nested = ExtVM.create x.fields nested' := by
      funext v gas code
      unfold ExtVM.create
      rw [ExtVM.withExecutive_congr hlt h (fun e h1 _ h3 => Executive.runs_create _ v _ gas code _ h1 h3)]
    have hface : ExtVM.face E e.m_s.sha3 x.fields nested = ExtVM.face E e.m_s.sha3 x.fields nested' := by
      unfold ExtVM.face
      rw [hcall, hcreate]
    rw [hface]
  · have hrun : VM.execImpl (ExtVM.face E e.m_s.sha3 x.fields nested) turns e.m_gas ⟨e.m_s, x.sub⟩ =
        VM.execImpl (ExtVM.face E e.m_s.sha3 x.fields nested') turns e.m_gas ⟨e.m_s, x.sub⟩ :=
      congrFun (VM.loop_deep (F := ExtVM.face E e.m_s.sha3 x.fields nested') (by show 1024 ≤ x.fields.depth; omega)
        (ExtVM.create x.fields nested) (ExtVM.call E x.fields nested) turns) _
    rw [hrun]
    rfl

end Webthree
