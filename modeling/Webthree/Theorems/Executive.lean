import Webthree.Lemmas.Transaction
import Webthree.Theorems.Vm

/-!
# Calls, creations and transactions

That an exception of the machine undoes its frame and nothing else, and what a transaction does to all balances.
-/

namespace Webthree

/-! ## Exceptions -/

/-- An exception of the machine undoes its frame. The constructor of `ExtVM` keeps the cache as it is. When `go` ends with an
exception, the cache is the one that was kept and the sub-state of the frame adds nothing to that of the caller. So a call or a
creation that ends with an exception, at whatever level, leaves the sub-state of its caller as it was, and all that was known of
every account before it. -/
theorem exception_undoes_frame (E : SealEngine) (turns levels : Nat) :
    (∀ fields e e', Executive.makeExt fields e = .ok () e' → ∃ x, e'.m_ext = some x ∧ x.m_origCache = e.m_s.m_cache) ∧
    (∀ e x e', Executive.Ready e x → Executive.go E turns levels e = .ok () e' → e'.m_excepted ≠ .None →
      e'.m_s = { e.m_s with m_cache := x.m_origCache } ∧ ∀ parent, e'.accrueSubState parent = parent) ∧
    (∀ fields p gasPrice origin vm e vm',
      ExtVM.withExecutive fields (Executive.call E p gasPrice origin) (Executive.go E turns levels) vm = .ok e vm' →
      e.m_excepted ≠ .None → vm'.sub = vm.sub ∧ vm'.m_s.known = vm.m_s.known) ∧
    ∀ fields sender endowment gasPrice gas init origin vm e vm',
      ExtVM.withExecutive fields (Executive.create sender endowment gasPrice gas init origin) (Executive.go E turns levels)
        vm = .ok e vm' →
      e.m_excepted ≠ .None → vm'.sub = vm.sub ∧ vm'.m_s.known = vm.m_s.known := by
  refine ⟨fun fields e e' h => ?_, fun e x e' hr h hexc => ?_, fun fields p gasPrice origin vm e vm' h hexc => ?_,
    fun fields sender endowment gasPrice gas init origin vm e vm' h hexc => ?_⟩
  · obtain ⟨s', -, -, rfl⟩ := (Executive.runs_makeExt fields e).of_ok h
    exact ⟨_, rfl, rfl⟩
  · have hg := (Executive.go_does_any E turns levels e.m_depth e.m_envInfo e x hr rfl rfl e.m_gas.isLt).of_ok h
    obtain ⟨x', hx', -, hout⟩ := hg.outcome
    rcases hout with ⟨hnone, -⟩ | ⟨-, hback, hsub⟩
    · exact absurd hnone hexc
    · refine ⟨hback, fun parent => ?_⟩
      simp only [Executive.accrueSubState, hx', hsub]
      exact ExtVM.add_empty parent
  · exact ExtVM.undone_withExecutive (fun e h1 h2 h3 => Executive.runs_call E p gasPrice origin h1 h2 h3)
      (Executive.go_does_any E turns levels _ _) h hexc
  · exact ExtVM.undone_withExecutive
      (fun e h1 _ h3 => Executive.runs_create sender endowment gasPrice gas init origin h1 h3)
      (Executive.go_does_any E turns levels _ _) h hexc

namespace Sample

/-- A frame whose code stores a word and then meets a byte that is no instruction: `PUSH1 7 PUSH1 0 SSTORE 0xfe`. -/
def failing : Executive :=
  { executive with
    m_ext := some ⟨{ fields with code := [0x60, 7, 0x60, 0, 0x55, 0xfe] }, state.m_cache, {}⟩, m_gas := 30000 }

/-- What can be seen of the executive a run leaves, if it returns. -/
def outcome {α : Type} (f : Executive → α) (r : EStateM.Result Stop Executive Unit) : Option α :=
  match r with
  | .ok _ e => some (f e)
  | .error _ _ => none

theorem exists_of_outcome {α : Type} {f : Executive → α} {r : EStateM.Result Stop Executive Unit} {a : α}
    (h : outcome f r = some a) : ∃ e, r = .ok () e ∧ f e = a := by
  cases r with
  | ok u e => exact ⟨e, rfl, Option.some.inj h⟩
  | error err e => cases h

theorem excepted_failing : outcome (fun e => e.m_excepted) (Executive.go engine 5 1 failing) = some .BadInstruction := by
  decide +kernel

end Sample

theorem exception_undoes_frame_sample :
    ∃ e', Executive.go Sample.engine 5 1 Sample.failing = .ok () e' ∧ e'.m_excepted = .BadInstruction ∧
      e'.m_s = Sample.state := by
  obtain ⟨e', hrun, hexc⟩ := Sample.exists_of_outcome Sample.excepted_failing
  exact ⟨e', hrun, hexc, ((exception_undoes_frame Sample.engine 5 1).2.1 Sample.failing _ e'
    ⟨rfl, rfl, rfl, fun h => (by cases h), rfl, rfl, rfl⟩ hrun (by rw [hexc]; decide)).1⟩

/-! ## Accounting -/

/-- A transaction in a state whose balances fit: it is paid for in advance by the sender, whatever the code then does; what is
left of the gas goes back to the sender and what was used goes to the author, a refund is at most half of what was consumed, and
all balances together change by no more than what the accounts had that are deleted as suicides. No subtraction from a balance
or from the gas wraps. -/
theorem transaction_accounting (E : SealEngine) (env : EnvInfo) (t : Transaction) (s : State)
    (hE : ∃ efcd hdc tx, E.evmSchedule env = .ofFlags efcd hdc tx) (hs : Solvent s) (e' : Executive)
    (h : Executive.transact E env t s = .ok () e') :
    (∃ e₁ e₂, Executive.runCode E t e₁ = .ok () e₂ ∧ Executive.finalize E t e₂ = .ok () e' ∧
      t.value.toNat + t.gas.toNat * t.gasPrice.toNat ≤ s.balances t.sender ∧
      e₁.m_s.balances = Function.update s.balances t.sender (s.balances t.sender - t.gas.toNat * t.gasPrice.toNat) ∧
      e₂.m_gas.toNat ≤ t.gas.toNat ∧ e'.m_refunded.toNat ≤ (t.gas.toNat - e₂.m_gas.toNat) / 2 ∧
      (e'.gasUsed t).toNat + e₂.m_gas.toNat + e'.m_refunded.toNat = t.gas.toNat ∧
      (e'.m_s.balances = fun a => if a ∈ e₂.suicides then 0 else
        Executive.settled e₂.m_s.balances t env.author (e'.gasUsed t).toNat a) ∧
      total e'.m_s.balances + ∑ a ∈ e₂.suicides,
        (Executive.settled e₂.m_s.balances t env.author (e'.gasUsed t).toNat a + e₂.burnt a) = total s.balances) ∧
    (∀ r, e'.m_res = some r → r.gasUsed.toNat ≤ t.gas.toNat) ∧
    (∀ s a n, Runs (State.subBalance a n) s
      (fun _ s' => n ≤ s.balances a ∧ s'.balances = Function.update s.balances a (s.balances a - n)) (fun _ _ => True)) ∧
    (∀ (F : ExtVMFace ExtVM) c f, Runs (VM.charge F c) f
      (fun _ g => ∃ n, c.runGas ≤ n ∧ g.io_gas.toNat + n = f.io_gas.toNat) (fun _ _ => True)) ∧
    (∀ sched out d d', Executive.deposit sched out d = .ok d' → d'.m_gas.toNat ≤ d.m_gas.toNat) ∧
    (t.gas - BitVec.ofNat 256 (t.gasRequired (E.evmSchedule env))).toNat + t.gasRequired (E.evmSchedule env) =
      t.gas.toNat := by
  have hS : VM.SoundSchedule (E.evmSchedule env) := by
    obtain ⟨efcd, hdc, tx, heq⟩ := hE
    rw [heq]
    exact VM.soundSchedule_ofFlags efcd hdc tx
  obtain ⟨e₁, e₂, hcode, hfin, hcash, hx₁, hbal₁, hreq, hdone, henv⟩ := Executive.phases_of_transact hS h
  have hbase := VM.toNat_sub_ofNat hreq
  have hgas : e₂.m_gas.toNat ≤ t.gas.toNat := by
    have := hdone.gas_le
    omega
  have hpaid : total e₁.m_s.balances + t.gas.toNat * t.gasPrice.toNat = total s.balances := by
    have := total_update s.balances t.sender (s.balances t.sender - t.gas.toNat * t.gasPrice.toNat)
    rw [hbal₁]
    omega
  have hs₁ : Solvent e₁.m_s := ⟨hx₁.startNonce ▸ hs.startNonce, by have := hs.total_lt; omega⟩
  have hwealth : total e₂.m_s.balances + total e₂.burnt = total e₁.m_s.balances := hdone.within.wealth hs₁
  have hroom : total e₂.m_s.balances + t.gas.toNat * t.gasPrice.toNat < 2 ^ 256 := by
    have := hs.total_lt
    omega
  obtain ⟨hsum, href, hres, hbal⟩ := (Executive.runs_finalize E t hgas hroom).of_ok hfin
  rw [hdone.env, henv] at hbal
  refine ⟨⟨e₁, e₂, hcode, hfin, hcash, hbal₁, hgas, href, hsum, hbal, ?_⟩, ?_, ?_, ?_,
    fun sched out d d' hd => Executive.deposit_gas_le hd, ?_⟩
  · have hwipe := total_wipe (Executive.settled e₂.m_s.balances t env.author (e'.gasUsed t).toNat) e₂.suicides
    rw [Executive.total_settled _ _ _ (by omega)] at hwipe
    have hburnt : total e₂.burnt = ∑ a ∈ e₂.suicides, e₂.burnt a :=
      total_eq_sum _ _ fun a ha => by rw [Executive.suicides_eq]; exact hdone.within.burnt a ha
    rw [hbal, Finset.sum_add_distrib, ← hburnt]
    omega
  · intro r hr
    rw [hres r hr]
    omega
  · intro s a n
    exact (State.runs_subBalance a n s).mono (fun _ s' hs' => hs'.2) (fun _ _ _ => trivial)
  · intro F c f
    refine (VM.runs_charge c f).mono ?_ (fun _ _ _ => trivial)
    rintro - g ⟨gas, k, rfl, -, -, hle⟩
    have hmono := VM.gasForMem_mono F.evmSchedule (Nat.le_add_right f.m_temp.length k)
    exact ⟨f.io_gas.toNat - gas.toNat, by omega, by show gas.toNat + _ = _; omega⟩
  · rw [hbase]
    omega

namespace Sample

/-- A transfer from the address 1 to the address 2, with just enough gas. -/
def transfer : Transaction :=
  { isCreation := false, sender := 1, nonce := 0, value := 5, receiveAddress := 2, gasPrice := 1, gas := 21000, data := [] }

theorem total_state : total state.balances = 1000000 := by
  have h := total_update (fun _ : Address => 0) 1 1000000
  rw [total_zero] at h
  have hbal : state.balances = Function.update (fun _ => 0) 1 1000000 :=
    (State.balances_insert { state with m_cache := fun _ => none } 1 _).trans rfl
  rw [hbal]
  exact h.trans (Nat.zero_add _)

theorem solvent_state : Solvent state :=
  ⟨by decide, by rw [total_state]; decide⟩

theorem transfer_returns : outcome (fun e => e.gasUsed transfer) (Executive.transact engine env transfer state) = some 21000 := by
  decide +kernel

end Sample

theorem transaction_accounting_sample :
    ∃ e', Executive.transact Sample.engine Sample.env Sample.transfer Sample.state = .ok () e' ∧
      ∀ r, e'.m_res = some r → r.gasUsed.toNat ≤ 21000 := by
  obtain ⟨e', hrun, -⟩ := Sample.exists_of_outcome Sample.transfer_returns
  exact ⟨e', hrun, (transaction_accounting Sample.engine Sample.env Sample.transfer Sample.state ⟨true, true, 53000, rfl⟩
    Sample.solvent_state e' hrun).2.1⟩

namespace Sample

/-- The author already has all that 256 bits can hold. -/
def crowded : State := { state with m_cache := state.m_cache.insert 9 (.normalCreation hash 0 (~~~0)) }

/-- The start nonce of new accounts is not set, and the address 2 has code that sends 5 to the address 7, where there is no
account: `PUSH1 0 PUSH1 0 PUSH1 0 PUSH1 0 PUSH1 5 PUSH1 7 PUSH1 0 CALL`. -/
def unset : State :=
  { state with
    m_accountStartNonce := Invalid256
    m_cache := (state.m_cache.insert 2
      { Account.normalCreation hash 0 100 with
        m_codeHash := .ofU256 5, m_codeCache := [0x60, 0, 0x60, 0, 0x60, 0, 0x60, 0, 0x60, 5, 0x60, 7, 0x60, 0, 0xf1] }).insert
      9 (.normalCreation hash 0 0) }

/-- A call of the address 2. -/
def invocation : Transaction := { transfer with value := 0, gas := 100000 }

theorem transfer_crowded :
    outcome (fun e => (e.gasUsed transfer, e.m_s.balanceOf 9)) (Executive.transact engine env transfer crowded) =
      some (21000, 20999) := by
  decide +kernel

theorem invocation_unset :
    outcome (fun e => (e.suicides, e.m_s.balanceOf 1, e.m_s.balanceOf 2, e.m_s.balanceOf 9))
      (Executive.transact engine env invocation unset) = some (∅, 944939, 95, 55061) := by
  decide +kernel

theorem cached_unset {a : Address} (h : (unset.m_cache a).isSome) : a ∈ ({1, 2, 9} : Finset Address) := by
  simp only [Finset.mem_insert, Finset.mem_singleton]
  by_cases h9 : a = 9
  · exact Or.inr (Or.inr h9)
  by_cases h2 : a = 2
  · exact Or.inr (Or.inl h2)
  by_cases h1 : a = 1
  · exact Or.inl h1
  simp only [unset, state, AccountMap.insert, if_neg h9, if_neg h2, if_neg h1] at h
  cases h

/-- While the start nonce is not set, the accounts are those that were there. -/
theorem total_of_extends {s : State} (h : unset.Extends s) : total s.balances = s.balances 1 + s.balances 2 + s.balances 9 := by
  have hsupport : ∀ a, s.balances a ≠ 0 → a ∈ ({1, 2, 9} : Finset Address) := by
    intro a ha
    by_cases hc : (s.m_cache a).isSome
    · refine (h.mayHold a hc rfl).elim cached_unset (fun ht => ?_)
      cases ht
    · have htrie : s.m_state a = none := by rw [h.state]; rfl
      have hzero : s.balances a = 0 := by
        simp only [Bool.not_eq_true, Option.isSome_eq_false_iff, Option.isNone_iff_eq_none] at hc
        simp [State.balances, State.balanceOf, hc, htrie]
      exact absurd hzero ha
  rw [total_eq_sum _ _ hsupport, Finset.sum_insert (by decide), Finset.sum_insert (by decide), Finset.sum_singleton,
    Nat.add_assoc]

end Sample

/-- What the balances must satisfy: when they do not fit into 256 bits the author may lose all it has instead of being paid, and
when the start nonce of new accounts is not set, a transfer to an address without an account loses the value. -/
theorem transaction_accounting_fails :
    (∃ e', Executive.transact Sample.engine Sample.env Sample.transfer Sample.crowded = .ok () e' ∧
      e'.m_s.balances Sample.env.author ≠
        Sample.crowded.balances Sample.env.author + (e'.gasUsed Sample.transfer).toNat * Sample.transfer.gasPrice.toNat) ∧
    ∃ e', Executive.transact Sample.engine Sample.env Sample.invocation Sample.unset = .ok () e' ∧ e'.suicides = ∅ ∧
      total e'.m_s.balances ≠ total Sample.unset.balances := by
  constructor
  · obtain ⟨e', hrun, hval⟩ := Sample.exists_of_outcome Sample.transfer_crowded
    obtain ⟨hused, hauthor⟩ := Prod.mk.inj hval
    refine ⟨e', hrun, ?_⟩
    show (e'.m_s.balanceOf 9).toNat ≠ _
    rw [hauthor, hused]
    decide
  · obtain ⟨e', hrun, hval⟩ := Sample.exists_of_outcome Sample.invocation_unset
    obtain ⟨hnone, hval⟩ := Prod.mk.inj hval
    obtain ⟨h1, hval⟩ := Prod.mk.inj hval
    obtain ⟨h2, h9⟩ := Prod.mk.inj hval
    refine ⟨e', hrun, hnone, ?_⟩
    obtain ⟨e₁, e₂, -, hfin, -, hx₁, -, -, hdone, -⟩ :=
      Executive.phases_of_transact (VM.soundSchedule_ofFlags true true 53000) hrun
    have hx : Sample.unset.Extends e'.m_s :=
      hx₁.trans (hdone.within.extends'.trans (Executive.extends_finalize hfin hnone))
    rw [Sample.total_of_extends hx, Sample.total_of_extends (.refl _)]
    show (e'.m_s.balanceOf 1).toNat + (e'.m_s.balanceOf 2).toNat + (e'.m_s.balanceOf 9).toNat ≠ _
    rw [h1, h2, h9]
    decide

end Webthree
