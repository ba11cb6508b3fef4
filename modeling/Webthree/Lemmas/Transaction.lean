import Webthree.Lemmas.Executive

/-!
# Transactions

What the parts of `State::execute` do to the gas and to all balances: the checks, the payment for the gas, the run of the code,
and the settlement at the end.
-/

namespace Webthree

namespace Executive

/-- What `initialize` makes sure of. -/
theorem runs_initializeTx (E : SealEngine) (t : Transaction) (e : Executive) :
    Runs (initializeTx E t) e
      (fun _ e' => ∃ s', e.m_s.Keeps s' ∧ t.gasRequired (E.evmSchedule e.m_envInfo) ≤ t.gas.toNat ∧
        t.value.toNat + t.gas.toNat * t.gasPrice.toNat ≤ e.m_s.balances t.sender ∧
        e' = { e with
          m_s := s', m_baseGasRequired := t.gasRequired (E.evmSchedule e.m_envInfo)
          m_gasCost := t.gas.toNat * t.gasPrice.toNat })
      (fun _ _ => True) := by
  rw [initializeTx, runs_bind, runs_get, runs_ite]
  refine ⟨fun _ => trivial, fun _ => ?_⟩
  rw [runs_bind, runs_modify, runs_ite]
  refine ⟨fun _ => trivial, fun hreq => ?_⟩
  rw [runs_bind, runs_onState]
  refine (State.runs_transactionsFrom _ _).mono (fun n s₁ h₁ => ?_) (fun _ _ hf => hf.elim)
  rw [runs_ite]
  refine ⟨fun _ => trivial, fun _ => ?_⟩
  rw [runs_bind, runs_modify, runs_bind, runs_onState]
  refine (State.runs_balance _ _).mono ?_ (fun _ _ hf => hf.elim)
  rintro b s₂ ⟨h₂, rfl⟩
  rw [runs_ite]
  refine ⟨fun _ => trivial, fun hcash => ?_⟩
  refine ⟨s₂, (h₁.trans h₂).toKeeps, Nat.le_of_not_lt hreq, ?_, rfl⟩
  rw [← h₁.balances]
  exact Nat.le_of_not_lt hcash

/-- The payment for the gas takes it from the sender. -/
theorem runs_pay (t : Transaction) (e : Executive) :
    Runs (pay t) e
      (fun _ e' => ∃ s', e.m_s.Extends s' ∧ e.m_gasCost ≤ e.m_s.balances t.sender ∧
        s'.balances = Function.update e.m_s.balances t.sender (e.m_s.balances t.sender - e.m_gasCost) ∧
        e' = { e with m_s := s' })
      (fun _ _ => True) := by
  rw [pay, runs_bind, runs_onState]
  refine (State.runs_noteSending _ _).mono (fun _ s₁ h₁ => ?_) (fun _ _ _ => trivial)
  rw [runs_bind, runs_get, runs_onState]
  refine (State.runs_subBalance _ _ _).mono ?_ (fun _ _ _ => trivial)
  rintro - s₂ ⟨hx, hle, hb⟩
  refine ⟨s₂, h₁.toExtends.trans hx, h₁.balances ▸ hle, ?_, rfl⟩
  rw [hb, h₁.balances]

/-- What `execute` does after the payment, and `go` if it is needed. -/
def runCode (E : SealEngine) (t : Transaction) : M Unit := do
  if !(← start E t) then go E ((← get).m_gas.toNat + 1) 1025

theorem runs_start (E : SealEngine) (t : Transaction) {e : Executive} (hext : e.m_ext = none) (hgas : e.m_gas = 0)
    (hexc : e.m_excepted = .None) :
    Runs (start E t) e (SetUpDone (t.gas - BitVec.ofNat 256 e.m_baseGasRequired) e) (SetUpFailed e) := by
  rw [start, runs_bind, runs_get]
  by_cases hc : t.isCreation = true
  · simp only [hc, if_true]
    exact runs_create _ _ _ _ _ _ hext hexc
  · simp only [hc]
    exact runs_call E _ _ _ hext hgas hexc

/-- What the code of a transaction has done, whatever it is: the gas went down, and what the accounts hold together with what
was burnt is what they held. -/
structure CodeDone (gas : U256) (e e' : Executive) : Prop where
  gas_le : e'.m_gas.toNat ≤ gas.toNat
  env : e'.m_envInfo = e.m_envInfo
  within : ExtVM.Within e.m_s ⟨e'.m_s, e'.accrueSubState {}⟩

theorem runs_runCode (E : SealEngine) (t : Transaction) {e : Executive} (hS : VM.SoundSchedule (E.evmSchedule e.m_envInfo))
    (hext : e.m_ext = none) (hgas : e.m_gas = 0) (hexc : e.m_excepted = .None) (hdepth : e.m_depth = 0) :
    Runs (runCode E t) e (fun _ e' => CodeDone (t.gas - BitVec.ofNat 256 e.m_baseGasRequired) e e')
      (fun _ _ => True) := by
  rw [runCode, runs_bind]
  refine (runs_start E t hext hgas hexc).mono (fun fin e₁ h₁ => ?_) (fun _ _ _ => trivial)
  cases fin with
  | true =>
    refine ⟨h₁.gas_le, h₁.env, ?_⟩
    simp only [accrueSubState, h₁.idle rfl]
    exact (ExtVM.within_refl e.m_s).of_total h₁.extends' h₁.wealth
  | false =>
    obtain ⟨x, hready, hrev⟩ := h₁.ready rfl
    simp only [Bool.not_false, if_true]
    rw [runs_bind, runs_get]
    have hgo := go_does E (h₁.env ▸ hS) (e₁.m_gas.toNat + 1) 1025 e₁.m_depth (e₁.m_gas.toNat + 1)
      (by rw [h₁.depth, hdepth]; omega) e₁ x hready rfl rfl (Nat.lt_succ_self _)
    refine hgo.mono (fun _ e₂ h₂ => ?_) (fun _ _ _ => trivial)
    exact ⟨le_trans h₂.gas h₁.gas_le, h₂.env.trans h₁.env, (ExtVM.within_refl e.m_s).nested rfl h₁ hrev h₂⟩

/-- The balances after the settlement, before the suicides are wiped out: what is left of the gas goes back to the sender, and
what was used to the author. -/
def settled (f : Address → Nat) (t : Transaction) (author : Address) (gasUsed : Nat) (a : Address) : Nat :=
  f a + (if a = t.sender then (t.gas.toNat - gasUsed) * t.gasPrice.toNat else 0) +
    if a = author then gasUsed * t.gasPrice.toNat else 0

theorem total_settled (f : Address → Nat) (t : Transaction) (author : Address) {gasUsed : Nat} (h : gasUsed ≤ t.gas.toNat) :
    total (settled f t author gasUsed) = total f + t.gas.toNat * t.gasPrice.toNat := by
  have h1 := total_add (fun a => f a + if a = t.sender then (t.gas.toNat - gasUsed) * t.gasPrice.toNat else 0)
    (fun a => if a = author then gasUsed * t.gasPrice.toNat else 0)
  have h2 := total_add f (fun a => if a = t.sender then (t.gas.toNat - gasUsed) * t.gasPrice.toNat else 0)
  rw [total_single] at h1 h2
  have h3 : (t.gas.toNat - gasUsed) * t.gasPrice.toNat + gasUsed * t.gasPrice.toNat = t.gas.toNat * t.gasPrice.toNat := by
    rw [← Nat.add_mul, Nat.sub_add_cancel h]
  calc total (settled f t author gasUsed)
      = total f + (t.gas.toNat - gasUsed) * t.gasPrice.toNat + gasUsed * t.gasPrice.toNat := by rw [← h2]; exact h1
    _ = total f + t.gas.toNat * t.gasPrice.toNat := by rw [Nat.add_assoc, h3]

theorem balances_killSuicides (S : Finset Address) (s : State) :
    (killSuicides S s).balances = fun a => if a ∈ S then 0 else s.balances a := by
  funext a
  unfold killSuicides State.balances State.balanceOf
  by_cases ha : a ∈ S
  · simp only [ha, if_true]
    rfl
  · simp only [ha, if_false]

/-- The refund is at most half of the gas that was consumed. -/
theorem refundOf_le (E : SealEngine) (t : Transaction) {e : Executive} (h : e.m_gas.toNat ≤ t.gas.toNat) :
    (refundOf E t e).toNat ≤ (t.gas.toNat - e.m_gas.toNat) / 2 := by
  have hhalf : ((t.gas - e.m_gas) / 2).toNat = (t.gas.toNat - e.m_gas.toNat) / 2 := by
    rw [BitVec.toNat_udiv, BitVec.toNat_sub_of_le h]
    rfl
  unfold refundOf
  split
  · split
    · rename_i hlt
      rw [← hhalf]
      exact Nat.le_of_lt hlt
    · exact Nat.le_of_eq hhalf
  · exact Nat.zero_le _

theorem toNat_mul_of_lt {x y : U256} (h : x.toNat * y.toNat < 2 ^ 256) : (x * y).toNat = x.toNat * y.toNat := by
  rw [BitVec.toNat_mul, Nat.mod_eq_of_lt h]

/-- What `finalize` does when all balances together with the price of the gas fit. -/
theorem runs_finalize (E : SealEngine) (t : Transaction) {e : Executive} (hgas : e.m_gas.toNat ≤ t.gas.toNat)
    (hroom : total e.m_s.balances + t.gas.toNat * t.gasPrice.toNat < 2 ^ 256) :
    Runs (finalize E t) e
      (fun _ e' => (gasUsed t e').toNat + e.m_gas.toNat + e'.m_refunded.toNat = t.gas.toNat ∧
        e'.m_refunded.toNat ≤ (t.gas.toNat - e.m_gas.toNat) / 2 ∧ (∀ r, e'.m_res = some r → r.gasUsed = gasUsed t e') ∧
        e'.m_s.balances = fun a =>
          if a ∈ e.suicides then 0 else settled e.m_s.balances t e.m_envInfo.author (gasUsed t e').toNat a)
      (fun _ _ => True) := by
  have hr := refundOf_le E t hgas
  have hlt := t.gas.isLt
  have hsum : (e.m_gas + refundOf E t e).toNat = e.m_gas.toNat + (refundOf E t e).toNat := by
    rw [BitVec.toNat_add, Nat.mod_eq_of_lt (by omega)]
  have hle : (e.m_gas + refundOf E t e).toNat ≤ t.gas.toNat := by omega
  have hused : (t.gas - (e.m_gas + refundOf E t e)).toNat = t.gas.toNat - (e.m_gas + refundOf E t e).toNat :=
    BitVec.toNat_sub_of_le hle
  have hback : ((e.m_gas + refundOf E t e) * t.gasPrice).toNat = (e.m_gas + refundOf E t e).toNat * t.gasPrice.toNat := by
    refine toNat_mul_of_lt ?_
    have := Nat.mul_le_mul_right t.gasPrice.toNat hle
    omega
  have hfees : ((t.gas - (e.m_gas + refundOf E t e)) * t.gasPrice).toNat =
      (t.gas.toNat - (e.m_gas + refundOf E t e).toNat) * t.gasPrice.toNat := by
    rw [toNat_mul_of_lt, hused]
    rw [hused]
    have := Nat.mul_le_mul_right t.gasPrice.toNat (Nat.sub_le t.gas.toNat (e.m_gas + refundOf E t e).toNat)
    omega
  generalize hg : e.m_gas + refundOf E t e = gas at *
  have hsplit : gas.toNat * t.gasPrice.toNat + (t.gas.toNat - gas.toNat) * t.gasPrice.toNat =
      t.gas.toNat * t.gasPrice.toNat := by
    rw [← Nat.add_mul, Nat.add_sub_cancel' hle]
  have hsender := le_total e.m_s.balances t.sender
  rw [finalize, runs_bind, runs_get]
  dsimp only
  rw [hg, runs_bind, runs_modify, runs_bind, runs_onState]
  refine (State.runs_addBalance _ _ _).mono ?_ (fun _ _ _ => trivial)
  rintro - s₁ ⟨-, -, hb₁, -⟩
  have hbal₁ := hb₁ (by rw [hback]; exact lt_of_le_of_lt (Nat.add_le_add hsender (by omega)) hroom)
  have htotal : total s₁.balances = total e.m_s.balances + gas.toNat * t.gasPrice.toNat := by
    rw [hbal₁, hback, update_credit, total_add, total_single]
  have hauthor := le_total s₁.balances e.m_envInfo.author
  rw [runs_bind, runs_onState]
  refine (State.runs_addBalance _ _ _).mono ?_ (fun _ _ _ => trivial)
  rintro - s₂ ⟨-, -, hb₂, -⟩
  have hfits : s₁.balances e.m_envInfo.author + (t.gas.toNat - gas.toNat) * t.gasPrice.toNat < 2 ^ 256 := by omega
  have hbal₂ := hb₂ (by rw [hfees]; exact hfits)
  rw [runs_modify]
  refine ⟨?_, hr, fun r hres => ?_, ?_⟩
  · show (t.gas - gas).toNat + e.m_gas.toNat + (refundOf E t e).toNat = t.gas.toNat
    omega
  · obtain ⟨r₀, -, rfl⟩ := Option.map_eq_some_iff.mp hres
    rfl
  · rw [balances_killSuicides, hbal₂, hfees, update_credit, hbal₁, hback, update_credit]
    funext a
    simp only [settled, gasUsed, hused, Nat.sub_sub_self hle]

/-- The phases of a transaction. -/
theorem transact_eq (E : SealEngine) (env : EnvInfo) (t : Transaction) (s : State) :
    transact E env t s =
      (do initializeTx E t; pay t; runCode E t; finalize E t : M Unit) { m_s := s, m_envInfo := env, m_res := some {} } := by
  unfold transact execute runCode
  simp only [bind_assoc]
  refine congrFun (bind_congr fun _ => bind_congr fun _ => bind_congr fun fin => ?_) _
  cases fin with
  | true => simp
  | false => simp only [Bool.not_false, if_true, bind_assoc]

/-- What the code of a transaction burnt: what accounts had that suicided in favour of themselves. -/
def burnt (e : Executive) (a : Address) : Nat := (e.accrueSubState {}).burnt a

theorem suicides_eq (e : Executive) : e.suicides = (e.accrueSubState {}).suicides := by
  unfold suicides accrueSubState
  cases e.m_ext with
  | none => rfl
  | some x => simp [SubState.add]

/-- What the sender has paid and what the code has left, in a transaction that does not throw. -/
theorem phases_of_transact {E : SealEngine} {env : EnvInfo} {t : Transaction} {s : State} {e' : Executive}
    (hS : VM.SoundSchedule (E.evmSchedule env)) (h : transact E env t s = .ok () e') :
    ∃ e₁ e₂, runCode E t e₁ = .ok () e₂ ∧ finalize E t e₂ = .ok () e' ∧
      t.value.toNat + t.gas.toNat * t.gasPrice.toNat ≤ s.balances t.sender ∧ s.Extends e₁.m_s ∧
      e₁.m_s.balances = Function.update s.balances t.sender (s.balances t.sender - t.gas.toNat * t.gasPrice.toNat) ∧
      t.gasRequired (E.evmSchedule env) ≤ t.gas.toNat ∧
      CodeDone (t.gas - BitVec.ofNat 256 (t.gasRequired (E.evmSchedule env))) e₁ e₂ ∧ e₁.m_envInfo = env := by
  rw [transact_eq, bind_eq_result_ok] at h
  obtain ⟨⟨⟩, ea, ha, h⟩ := h
  obtain ⟨sa, hka, hreq, hcash, rfl⟩ := (runs_initializeTx E t _).of_ok ha
  rw [bind_eq_result_ok] at h
  obtain ⟨⟨⟩, e₁, hb, h⟩ := h
  obtain ⟨s₁, hx₁, -, hbal, rfl⟩ := (runs_pay t _).of_ok hb
  rw [bind_eq_result_ok] at h
  obtain ⟨⟨⟩, e₂, hc, h⟩ := h
  have hcode := (runs_runCode E t (by exact hS) rfl rfl rfl rfl).of_ok hc
  refine ⟨_, e₂, hc, h, hcash, hka.toExtends.trans hx₁, ?_, hreq, hcode, rfl⟩
  rw [hbal, hka.balances]

/-- Without suicides the settlement puts no account where none may be. -/
theorem extends_finalize {E : SealEngine} {t : Transaction} {e e' : Executive} (h : finalize E t e = .ok () e')
    (hnone : e'.suicides = ∅) : e.m_s.Extends e'.m_s := by
  have hrun : Runs (finalize E t) e (fun _ e' => e'.suicides = ∅ → e.m_s.Extends e'.m_s) (fun _ _ => True) := by
    rw [finalize, runs_bind, runs_get]
    dsimp only
    rw [runs_bind, runs_modify, runs_bind, runs_onState]
    refine (State.runs_addBalance _ _ _).mono (fun _ s₁ h₁ => ?_) (fun _ _ _ => trivial)
    rw [runs_bind, runs_onState]
    refine (State.runs_addBalance _ _ _).mono (fun _ s₂ h₂ => ?_) (fun _ _ _ => trivial)
    rw [runs_modify]
    intro hempty
    have hkill : killSuicides e.suicides s₂ = s₂ := by
      have hsame : e.suicides = ∅ := hempty
      rw [hsame]
      unfold killSuicides
      simp
    show e.m_s.Extends (killSuicides e.suicides s₂)
    rw [hkill]
    exact h₁.1.trans h₂.1
  exact hrun.of_ok h hnone

end Executive

end Webthree
