import Mathlib.Logic.Relation
import Webthree.Lemmas.Vm
import Webthree.Evm.Vm
import Webthree.Lemmas.KnownRun

/-!
# Runs of the machine

What the turns of the loop preserve, from what one turn does: the height of the stack stays within the limit, and under a sound
schedule the gas goes down with every turn while the gas together with the price of the memory never goes up.
-/

namespace Webthree

namespace VM

variable {σ : Type} {F : ExtVMFace σ} {I : σ → Prop} {X : Stop → Prop} {G : U256 → U256 → Prop} {limit : Nat}

/-- The frames that the loop of `execImpl` reaches from a frame. -/
def Reaches (F : ExtVMFace σ) : Frame σ → Frame σ → Prop := Relation.ReflTransGen fun s t => step F s = .ok none t

/-- What every turn of the loop keeps holds in every frame reached. -/
theorem Reaches.induct {P : Frame σ → Prop} {s t : Frame σ} (h : Reaches F s t) (hs : P s)
    (hstep : ∀ u v, Reaches F s u → P u → step F u = .ok none v → P v) : P t := by
  induction h with
  | refl => exact hs
  | tail hu hv ih => exact hstep _ _ hu ih hv

/-! ## The height of the stack -/

/-- A turn that goes on leaves the stack within the limit. -/
theorem TurnDone.height_le {inst : Instruction} {s t : Frame σ} (h : TurnDone F G I inst s none t) :
    t.m_stack.length ≤ F.evmSchedule.stackLimit.toNat := by
  obtain ⟨u, hu, -, ht⟩ := h
  have h1 := ht.height
  have h2 := hu.room
  have h3 := hu.args
  rw [hu.stack] at h1
  omega

/-- A turn that goes on changes the height by what the table says. -/
theorem TurnDone.height_eq {inst : Instruction} {s t : Frame σ} (h : TurnDone F G I inst s none t) :
    t.m_stack.length + (instructionInfo inst).args = s.m_stack.length + (instructionInfo inst).ret := by
  obtain ⟨u, hu, -, ht⟩ := h
  have h1 := ht.height
  rw [hu.stack] at h1
  exact h1

/-! ## Gas -/

/-- What termination and the bounds on the gas rest on: every instruction that does not end the run costs something, and what
is charged for a call that sends value is more than the stipend. -/
structure SoundSchedule (sched : EVMSchedule) : Prop where
  positive : ∀ inst st, (instructionInfo inst).gasPriceTier ≠ .InvalidTier → ¬ Halting inst → 0 < minGas sched inst st
  callGas : 0 < sched.callGas.toNat
  stipend : sched.callStipend.toNat < sched.callGas.toNat + sched.callValueTransferGas.toNat

/-- The schedules of `EVMSchedule.h` are sound. -/
theorem soundSchedule_ofFlags (efcd hdc : Bool) (tx : U256) : SoundSchedule (.ofFlags efcd hdc tx) where
  positive := by
    intro inst st hv hh
    cases inst with
    | EXP =>
      have hk : 32 - H256.firstBitSet (st.getD 1 0) / 8 ≤ 32 := Nat.sub_le _ _
      simp only [minGas]
      generalize 32 - H256.firstBitSet (st.getD 1 0) / 8 = k at hk
      have h10 : (10 : U256).toNat = 10 := by decide
      simp only [EVMSchedule.ofFlags, BitVec.toNat_add, BitVec.toNat_mul, BitVec.toNat_ofNat, h10]
      omega
    | LOG n =>
      have hn := n.isLt
      have h375 : (375 : U256).toNat = 375 := by decide
      simp only [minGas, EVMSchedule.ofFlags, BitVec.toNat_add, BitVec.toNat_mul, BitVec.toNat_ofNat, h375]
      omega
    | CALL | CALLCODE | DELEGATECALL =>
      have : (EVMSchedule.ofFlags efcd hdc tx).callGas.toNat = 40 := rfl
      simp only [minGas]
      omega
    | RETURN | SUICIDE | STOP => exact absurd (by simp [Halting]) hh
    | INVALID b => exact absurd rfl hv
    | _ => exact Nat.succ_pos _
  callGas := show 0 < (40 : U256).toNat by decide
  stipend := show (2300 : U256).toNat < (40 : U256).toNat + (9000 : U256).toNat by decide

/-- What a call is given and what is charged for it: `callParams->gas` is at most what was charged, less something. -/
theorem SoundSchedule.callGasOf_lt (hS : SoundSchedule F.evmSchedule) {inst : Instruction}
    (hi : inst = .CALL ∨ inst = .CALLCODE ∨ inst = .DELEGATECALL) (st : List U256)
    (h : minGas F.evmSchedule inst st < 2 ^ 256) : (callGasOf F inst st).toNat < minGas F.evmSchedule inst st := by
  have h1 := hS.callGas
  have h2 := hS.stipend
  unfold callGasOf
  rcases hi with rfl | rfl | rfl
  · by_cases hv : st.getD 2 0 > 0
    · simp only [minGas, hv, if_true, ne_eq, reduceCtorEq, not_false_eq_true, and_self, BitVec.toNat_add] at h ⊢
      rw [Nat.mod_eq_of_lt (by omega)]
      omega
    · simp only [minGas, hv, if_false, and_false] at h ⊢
      omega
  · by_cases hv : st.getD 2 0 > 0
    · simp only [minGas, hv, if_true, ne_eq, reduceCtorEq, not_false_eq_true, and_self, BitVec.toNat_add] at h ⊢
      rw [Nat.mod_eq_of_lt (by omega)]
      omega
    · simp only [minGas, hv, if_false, and_false] at h ⊢
      omega
  · simp only [minGas, ne_eq, not_true_eq_false, false_and, if_false] at h ⊢
    omega

/-- The order of gas: no more is handed back than was given. -/
abbrev NoMore : U256 → U256 → Prop := fun given back => back.toNat ≤ given.toNat

theorem Checked.minGas_le {inst : Instruction} {s u : Frame σ} (h : Checked F I inst s u) :
    u.io_gas.toNat + minGas F.evmSchedule inst s.m_stack ≤ s.io_gas.toNat := by
  have h1 := h.gas
  have h2 := gasForMem_mono F.evmSchedule h.temp_le
  omega

/-- A call or a creation is given less gas than there was before it was charged. -/
theorem Checked.gasBelow (hS : SoundSchedule F.evmSchedule) {inst : Instruction} {s u : Frame σ}
    (h : Checked F I inst s u) : GasBelow F s.io_gas.toNat inst u := by
  have hle := h.minGas_le
  have hlt := s.io_gas.isLt
  have hcall : inst = .CALL ∨ inst = .CALLCODE ∨ inst = .DELEGATECALL →
      (callGasOf F inst u.m_stack).toNat < s.io_gas.toNat := by
    intro hi
    rw [h.stack]
    have := hS.callGasOf_lt hi s.m_stack (by omega)
    omega
  cases inst with
  | CREATE =>
    have := hS.positive .CREATE s.m_stack (by decide) (by simp [Halting])
    show u.io_gas.toNat < s.io_gas.toNat
    omega
  | CALL => exact hcall (.inl rfl)
  | CALLCODE => exact hcall (.inr (.inl rfl))
  | DELEGATECALL => exact hcall (.inr (.inr rfl))
  | _ => trivial

/-- A turn that goes on lowers the gas, even together with the price of the memory. -/
theorem TurnDone.gas_lt (hS : SoundSchedule F.evmSchedule) {inst : Instruction} {s t : Frame σ}
    (h : TurnDone F NoMore I inst s none t) :
    t.io_gas.toNat + gasForMem F.evmSchedule t.m_temp.length <
      s.io_gas.toNat + gasForMem F.evmSchedule s.m_temp.length := by
  obtain ⟨u, hu, hh, ht⟩ := h
  have hpos := hS.positive inst s.m_stack hu.valid hh
  have hgas : u.io_gas.toNat + minGas F.evmSchedule inst s.m_stack + gasForMem F.evmSchedule u.m_temp.length ≤
    s.io_gas.toNat + gasForMem F.evmSchedule s.m_temp.length := hu.gas
  have hle : u.io_gas.toNat + minGas F.evmSchedule inst s.m_stack ≤ s.io_gas.toNat := hu.minGas_le
  have hlt := s.io_gas.isLt
  rw [ht.temp]
  have hcall : inst = .CALL ∨ inst = .CALLCODE ∨ inst = .DELEGATECALL →
      ∀ g : U256, (g = callGasOf F inst u.m_stack ∨ NoMore (callGasOf F inst u.m_stack) g) → t.io_gas = u.io_gas + g →
      t.io_gas.toNat < u.io_gas.toNat + minGas F.evmSchedule inst s.m_stack := by
    intro hi g hg hsum
    have hst : u.m_stack = s.m_stack := hu.stack
    rw [hst] at hg
    have hc := hS.callGasOf_lt hi s.m_stack (by omega)
    have hg' : g.toNat ≤ (callGasOf F inst s.m_stack).toNat := by
      rcases hg with rfl | hg
      · exact Nat.le_refl _
      · exact hg
    rw [hsum, BitVec.toNat_add, Nat.mod_eq_of_lt (by omega)]
    omega
  rcases ht.gas with heq | hne
  · rw [heq]
    omega
  · cases inst with
    | CREATE =>
      have : t.io_gas.toNat ≤ u.io_gas.toNat := hne
      omega
    | CALL =>
      obtain ⟨g, hg, hsum⟩ := hne
      have := hcall (.inl rfl) g hg hsum
      omega
    | CALLCODE =>
      obtain ⟨g, hg, hsum⟩ := hne
      have := hcall (.inr (.inl rfl)) g hg hsum
      omega
    | DELEGATECALL =>
      obtain ⟨g, hg, hsum⟩ := hne
      have := hcall (.inr (.inr rfl)) g hg hsum
      omega
    | _ => exact hne.elim

/-- The memory never shrinks and stays a whole number of words. -/
theorem TurnDone.temp {inst : Instruction} {s t : Frame σ} {r : Option Bytes} (h : TurnDone F G I inst s r t) :
    s.m_temp.length ≤ t.m_temp.length ∧ (32 ∣ s.m_temp.length → 32 ∣ t.m_temp.length) := by
  obtain ⟨u, hu, ht⟩ := h
  have hlen : t.m_temp.length = u.m_temp.length := by
    cases r with
    | some out => rw [ht.temp]
    | none => exact ht.2.temp
  rw [hlen]
  exact ⟨hu.temp_le, hu.words⟩

theorem TurnDone.ext {inst : Instruction} {s t : Frame σ} {r : Option Bytes} (h : TurnDone F G I inst s r t) : I t.ext := by
  obtain ⟨u, hu, ht⟩ := h
  cases r with
  | some out => exact ht.ext
  | none => exact ht.2.ext

/-- A turn that ends the run leaves no more gas than there was. -/
theorem TurnDone.gas_le_of_some {inst : Instruction} {s t : Frame σ} {out : Bytes} (h : TurnDone F G I inst s (some out) t) :
    t.io_gas.toNat ≤ s.io_gas.toNat := by
  obtain ⟨u, hu, ht⟩ := h
  rw [ht.gas]
  exact hu.gas_le

/-! ## The memory under a bound on the gas -/

/-- The gas and the price of the memory together are less than the price of memory that 32 bits cannot address. -/
def Bounded (F : ExtVMFace σ) (s : Frame σ) : Prop :=
  s.io_gas.toNat + gasForMem F.evmSchedule s.m_temp.length < gasForMem F.evmSchedule (2 ^ 32)

/-- Under the bound the memory holds all operands that were checked. -/
theorem Checked.fits {inst : Instruction} {s u : Frame σ} (h : Checked F I inst s u) (hb : Bounded F s) : Fits inst u := by
  have hsmall : u.m_temp.length < 2 ^ 32 := by
    by_contra hge
    have h1 := gasForMem_mono F.evmSchedule (Nat.le_of_not_lt hge)
    have h2 := h.gas
    unfold Bounded at hb
    omega
  intro r hr
  rw [h.stack] at hr
  exact ⟨hsmall, h.covers r hr⟩

/-- Under the bound every range touched in a turn is the range of its operands, and inside the memory. -/
theorem TurnDone.touched {inst : Instruction} {s t : Frame σ} {r : Option Bytes} (h : TurnDone F G I inst s r t)
    (hb : Bounded F s) : ∀ τ ∈ t.touched, Touch.Exact t.m_temp.length τ := by
  obtain ⟨u, hu, ht⟩ := h
  have hfits : Fits inst u := hu.fits hb
  have hempty : u.touched = [] := hu.touched
  intro τ hτ
  cases r with
  | some out =>
    rw [ht.temp]
    exact (ht.touched hfits τ hτ).resolve_left (by rw [hempty]; exact List.not_mem_nil)
  | none =>
    rw [ht.2.temp]
    exact (ht.2.touched hfits τ hτ).resolve_left (by rw [hempty]; exact List.not_mem_nil)

/-! ## The loop -/

/-- One turn of the loop, for the instruction at its place. -/
theorem runs_step (C : Contract F I X G limit) {s : Frame σ} (hI : I s.ext)
    (hgas : ∀ inst u, Checked F I inst (fresh s) u → GasBelow F limit inst u) :
    Runs (step F) s (TurnDone F G I (currentInstruction F s) s) (TurnFailed F I X (currentInstruction F s) s) :=
  runs_execInstruction C _ hI (hgas _)

theorem GasBelow.mono {inst : Instruction} {u : Frame σ} {m n : Nat} (h : GasBelow F m inst u) (hmn : m ≤ n) :
    GasBelow F n inst u := by
  cases inst with
  | CREATE => exact lt_of_lt_of_le h hmn
  | CALL | CALLCODE | DELEGATECALL => exact lt_of_lt_of_le h hmn
  | _ => trivial

theorem gasBelow_top (inst : Instruction) (u : Frame σ) : GasBelow F (2 ^ 256) inst u := by
  cases inst with
  | CREATE => exact u.io_gas.isLt
  | CALL | CALLCODE | DELEGATECALL => exact (callGasOf F _ u.m_stack).isLt
  | _ => trivial

/-- The loop under any schedule: what the externalities keep is kept, and it ends as they do, with an exception of the machine,
outside the memory or without fuel. -/
theorem runs_loop_any (C : Contract F I X G (2 ^ 256)) (turns : Nat) {s : Frame σ} (hI : I s.ext) :
    Runs (loop F turns) s (fun _ t => I t.ext)
      (fun e t => Kept I e t.ext ∧ (X e ∨ (∃ v, e = .vm v) ∨ e = .fault .temp ∨ e = .outOfFuel)) := by
  induction turns generalizing s with
  | zero => exact ⟨fun _ => hI, Or.inr (Or.inr (Or.inr rfl))⟩
  | succ n ih =>
    rw [loop, runs_bind]
    refine (runs_step C hI (fun inst u _ => gasBelow_top inst u)).mono (fun r t ht => ?_) (fun e t he => ?_)
    · cases r with
      | some out => exact ht.ext
      | none => exact ih ht.ext
    · obtain ⟨h1, -, h2⟩ := he
      refine ⟨h1, ?_⟩
      rcases h2 with h2 | h2 | ⟨h2, -⟩
      · exact Or.inl h2
      · exact Or.inr (Or.inl h2)
      · exact Or.inr (Or.inr (Or.inl h2))

/-- The loop under a sound schedule hands back no more gas than it was given, runs out of turns only if there are no more of
them than gas, and leaves the memory only if the bound on the gas does not hold. -/
theorem runs_loop (hS : SoundSchedule F.evmSchedule) (C : Contract F I X NoMore limit) (turns : Nat) {s : Frame σ}
    (hI : I s.ext) (hlimit : s.io_gas.toNat ≤ limit) :
    Runs (loop F turns) s (fun _ t => I t.ext ∧ t.io_gas.toNat ≤ s.io_gas.toNat)
      (fun e t => (Kept I e t.ext ∧ t.io_gas.toNat ≤ s.io_gas.toNat) ∧
        (X e ∨ (∃ v, e = .vm v) ∨ (e = .fault .temp ∧ ¬ Bounded F s) ∨ (e = .outOfFuel ∧ turns ≤ s.io_gas.toNat))) := by
  induction turns generalizing s with
  | zero => exact ⟨⟨fun _ => hI, Nat.le_refl _⟩, Or.inr (Or.inr (Or.inr ⟨rfl, Nat.zero_le _⟩))⟩
  | succ n ih =>
    rw [loop, runs_bind]
    have hbelow : ∀ inst u, Checked F I inst (fresh s) u → GasBelow F limit inst u :=
      fun inst u hu => (hu.gasBelow hS).mono hlimit
    refine (runs_step C hI hbelow).mono (fun r t ht => ?_) (fun e t he => ?_)
    · cases r with
      | some out => exact ⟨ht.ext, ht.gas_le_of_some⟩
      | none =>
        have hlt := ht.gas_lt hS
        have hmem := gasForMem_mono F.evmSchedule ht.temp.1
        refine (ih ht.ext (by omega)).mono (fun out v hv => ⟨hv.1, by omega⟩) (fun e v hv => ?_)
        obtain ⟨⟨h1, h2⟩, h3⟩ := hv
        refine ⟨⟨h1, by omega⟩, ?_⟩
        rcases h3 with h3 | h3 | ⟨h3, h4⟩ | ⟨h3, h4⟩
        · exact Or.inl h3
        · exact Or.inr (Or.inl h3)
        · refine Or.inr (Or.inr (Or.inl ⟨h3, fun hb => h4 ?_⟩))
          unfold Bounded at hb ⊢
          omega
        · exact Or.inr (Or.inr (Or.inr ⟨h3, by omega⟩))
    · obtain ⟨h1, h2, h3⟩ := he
      refine ⟨⟨h1, h2⟩, ?_⟩
      rcases h3 with h3 | h3 | ⟨h3, u, hu, h4⟩
      · exact Or.inl h3
      · exact Or.inr (Or.inl h3)
      · exact Or.inr (Or.inr (Or.inl ⟨h3, fun hb => h4 (hu.fits hb)⟩))

end VM

/-!
## The memory of the machine

The bytes that the machine has in `m_temp`, with zeros behind them, as a memory with a byte at every address: `MSTORE`, `MLOAD` and
`SHA3` do to it what is said of them in the histories of known states.
-/

namespace VM

open KnownState (word storeWord)

variable {σ : Type}

/-- The memory that is `m_temp`. -/
def memoryOf (m : Bytes) : ByteMemory 256 := fun a => m.getD a.toNat 0

section

variable {m : Bytes} {a : U256} (hm : m.length < 2 ^ 32)

include hm

theorem read_memoryOf {n : Nat} (hn : a.toNat + n ≤ m.length) : (memoryOf m).read a n = (m.drop a.toNat).take n := by
  have hlength : ((m.drop a.toNat).take n).length = n := by
    rw [List.length_take, List.length_drop]
    omega
  refine List.ext_getElem ((ByteMemory.length_read _ _ _).trans hlength.symm) fun i hi _ => ?_
  rw [ByteMemory.length_read] at hi
  rw [ByteMemory.getElem_read, List.getElem_take, List.getElem_drop, memoryOf, BitVec.toNat_add, BitVec.toNat_ofNat,
    Nat.mod_eq_of_lt (a := i) (by omega), Nat.mod_eq_of_lt (by omega), List.getD_eq_getElem]

theorem memoryOf_overwrite {bs : Bytes} (hbs : a.toNat + bs.length ≤ m.length) :
    memoryOf (overwrite m a.toNat bs) = (memoryOf m).write a bs := by
  funext x
  have hx : x.toNat < 2 ^ 256 := x.isLt
  have ha : a.toNat < 2 ^ 256 := a.isLt
  have hsub : (x - a).toNat = (2 ^ 256 - a.toNat + x.toNat) % 2 ^ 256 := BitVec.toNat_sub x a
  rw [memoryOf, ByteMemory.write, overwrite, List.getD_eq_getElem?_getD, List.getD_eq_getElem?_getD, List.append_assoc,
    List.getElem?_append, List.getElem?_append, List.getElem?_take, List.getElem?_drop, List.length_take_of_le (by omega)]
  by_cases hbefore : x.toNat < a.toNat
  · have hfar : bs.length ≤ (x - a).toNat := by omega
    rw [if_pos hbefore, if_pos hbefore, List.getElem?_eq_none hfar]
    exact List.getD_eq_getElem?_getD.symm
  · have hoffset : (x - a).toNat = x.toNat - a.toNat := by omega
    rw [if_neg hbefore, hoffset]
    by_cases hin : x.toNat - a.toNat < bs.length
    · rw [if_pos hin, List.getElem?_eq_getElem hin]
      rfl
    · have hplace : a.toNat + bs.length + (x.toNat - a.toNat - bs.length) = x.toNat := by omega
      rw [if_neg hin, hplace, List.getElem?_eq_none (Nat.le_of_not_lt hin)]
      exact List.getD_eq_getElem?_getD.symm

end

/-! ## The instructions -/

/-- A range inside of the memory is touched as it is. -/
theorem touch_inside {s : Frame σ} {a l : U256} (hlength : s.m_temp.length < 2 ^ 32) (hin : a.toNat + l.toNat ≤ s.m_temp.length) :
    touch 32 a l s = .ok (a.toNat, l.toNat) { s with touched := ⟨a, l, a.toNat, l.toNat⟩ :: s.touched } := by
  have ha : a.toNat % 2 ^ 32 = a.toNat := Nat.mod_eq_of_lt (by omega)
  have hl : l.toNat % 2 ^ 32 = l.toNat := Nat.mod_eq_of_lt (by omega)
  rw [touch, ha, hl]
  exact if_pos (Or.inr hin)

theorem readTemp_inside {s : Frame σ} {a l : U256} (hlength : s.m_temp.length < 2 ^ 32) (hin : a.toNat + l.toNat ≤ s.m_temp.length) :
    readTemp 32 a l s = .ok ((memoryOf s.m_temp).read a l.toNat) { s with touched := ⟨a, l, a.toNat, l.toNat⟩ :: s.touched } := by
  rw [read_memoryOf hlength hin]
  simp only [readTemp, bind, EStateM.bind, touch_inside hlength hin]
  rfl

theorem exec_mstore (F : ExtVMFace σ) {s : Frame σ} {a v : U256} {rest : List U256} (hs : s.m_stack = a :: v :: rest)
    (hlength : s.m_temp.length < 2 ^ 32) (hin : a.toNat + 32 ≤ s.m_temp.length) :
    ∃ t, execOrdinaryOpcode F .MSTORE s = .ok (s.m_curPC + 1) t ∧ t.m_stack = rest ∧ memoryOf t.m_temp = storeWord (memoryOf s.m_temp) a v := by
  obtain ⟨pc, temp, stack, dests, gas, ext, touched⟩ := s
  dsimp only at hs hlength hin ⊢
  subst hs
  have hword : (32 : U256).toNat = 32 := rfl
  have htouch := touch_inside (s := (⟨pc, temp, a :: v :: rest, dests, gas, ext, touched⟩ : Frame σ)) (a := a) (l := 32) hlength
    (by rw [hword]; exact hin)
  refine ⟨⟨pc, overwrite temp a.toNat (H256.ofU256 v).bytes, rest, dests, gas, ext, ⟨a, 32, a.toNat, 32⟩ :: touched⟩, ?_, rfl, ?_⟩
  · simp only [execOrdinaryOpcode, bind, EStateM.bind, back, fromTop, get, getThe, MonadStateOf.get, estate_get, htouch,
      List.getElem?_cons_zero]
    rfl
  · exact memoryOf_overwrite hlength (by rw [(H256.ofU256 v).length_eq]; exact hin)

theorem exec_mload (F : ExtVMFace σ) {s : Frame σ} {a : U256} {rest : List U256} (hs : s.m_stack = a :: rest)
    (hlength : s.m_temp.length < 2 ^ 32) (hin : a.toNat + 32 ≤ s.m_temp.length) :
    ∃ t, execOrdinaryOpcode F .MLOAD s = .ok (s.m_curPC + 1) t ∧ t.m_stack = word (memoryOf s.m_temp) a :: rest ∧
      t.m_temp = s.m_temp := by
  obtain ⟨pc, temp, stack, dests, gas, ext, touched⟩ := s
  dsimp only at hs hlength hin ⊢
  subst hs
  have hword : (32 : U256).toNat = 32 := rfl
  have hread := readTemp_inside (s := (⟨pc, temp, a :: rest, dests, gas, ext, touched⟩ : Frame σ)) (a := a) (l := 32) hlength
    (by rw [hword]; exact hin)
  refine ⟨⟨pc, temp, word (memoryOf temp) a :: rest, dests, gas, ext, ⟨a, 32, a.toNat, 32⟩ :: touched⟩, ?_, rfl, rfl⟩
  simp only [execOrdinaryOpcode, bind, EStateM.bind, back, fromTop, get, getThe, MonadStateOf.get, estate_get, hread,
    List.getElem?_cons_zero]
  rfl

theorem exec_sha3 (F : ExtVMFace σ) {s : Frame σ} {a l : U256} {rest : List U256} (hs : s.m_stack = a :: l :: rest)
    (hlength : s.m_temp.length < 2 ^ 32) (hin : a.toNat + l.toNat ≤ s.m_temp.length) :
    ∃ t, execOrdinaryOpcode F .SHA3 s = .ok (s.m_curPC + 1) t ∧
      t.m_stack = (F.sha3 ((memoryOf s.m_temp).read a l.toNat)).toU256 :: rest ∧ t.m_temp = s.m_temp := by
  obtain ⟨pc, temp, stack, dests, gas, ext, touched⟩ := s
  dsimp only at hs hlength hin ⊢
  subst hs
  have hread := readTemp_inside (s := (⟨pc, temp, rest, dests, gas, ext, touched⟩ : Frame σ)) (a := a) (l := l) hlength hin
  refine ⟨⟨pc, temp, (F.sha3 ((memoryOf temp).read a l.toNat)).toU256 :: rest, dests, gas, ext, ⟨a, l, a.toNat, l.toNat⟩ :: touched⟩,
    ?_, rfl, rfl⟩
  simp only [execOrdinaryOpcode, bind, EStateM.bind, takeBack, popBack, back, fromTop, get, getThe, MonadStateOf.get, estate_get,
    List.getElem?_cons_zero, pure, EStateM.pure, hread]
  rfl

end VM

end Webthree
