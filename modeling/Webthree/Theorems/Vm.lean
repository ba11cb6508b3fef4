import Webthree.Lemmas.Executive

/-!
# The machine over every run

Stack and memory of the machine in every frame that `execImpl` reaches, with the externalities `ExtVM` provides, and the end of
every run.
-/

namespace Webthree

open VM (Reaches initial execInstruction execImpl perform checkRequirements)

variable (E : SealEngine) (sha3 : Bytes → H256) (turns levels : Nat)

/-! ## A frame to look at -/

namespace Sample

/-- A seal engine under Homestead without precompiled contracts. -/
def engine : SealEngine := ⟨fun _ => .HomesteadSchedule, fun _ => none⟩

/-- Some function in the place of the hash. -/
def hash (b : Bytes) : H256 := .ofU256 (BitVec.ofNat 256 (fromBigEndian b + 1))

def env : EnvInfo := ⟨1, 9, 0, 0, 1000000, [], 0⟩

/-- A state in which the address 1 has a balance, and nothing else is known. -/
def state : State :=
  { sha3 := hash, m_db := fun _ => [], m_storage := fun _ _ => 0, m_state := fun _ => none
    m_cache := AccountMap.insert (fun _ => none) 1 (.normalCreation hash 0 1000000), m_accountStartNonce := 0 }

/-- A call of the address 1 with code that stores a sum in the memory and returns it:
`PUSH1 1 PUSH1 2 ADD PUSH1 0 MSTORE PUSH1 32 PUSH1 0 RETURN`. -/
def fields : ExtFields :=
  { envInfo := env, myAddress := 1, caller := 2, origin := 2, value := 0, gasPrice := 1, data := [],
    code := [0x60, 1, 0x60, 2, 0x01, 0x60, 0, 0x52, 0x60, 32, 0x60, 0, 0xf3], depth := 0 }

/-- The executive that is about to run it. -/
def executive : Executive :=
  { m_s := state, m_envInfo := env, m_ext := some ⟨fields, state.m_cache, {}⟩, m_gas := 100 }

end Sample

/-! ## The stack -/

section Stack

variable {fields : ExtFields} {s : State}

/-- What every turn keeps under any schedule. -/
theorem within_of_reaches (hmy : (s.m_cache fields.myAddress).isSome) (gas : U256) {t : Frame ExtVM}
    (h : Reaches (ExtVM.face E sha3 fields (Executive.go E turns levels))
      (initial (ExtVM.face E sha3 fields (Executive.go E turns levels)) gas ⟨s, {}⟩) t) :
    ExtVM.Within s t.ext ∧ t.m_stack.length ≤ (E.evmSchedule fields.envInfo).stackLimit.toNat := by
  refine h.induct (P := fun t => ExtVM.Within s t.ext ∧ t.m_stack.length ≤ (E.evmSchedule fields.envInfo).stackLimit.toNat)
    ⟨ExtVM.within_refl s, Nat.zero_le _⟩ (fun u v _ hu hv => ?_)
  have hstep := (VM.runs_step (ExtVM.contract_any E sha3 turns levels hmy) hu.1
    (fun inst w _ => VM.gasBelow_top inst w)).of_ok hv
  exact ⟨hstep.ext, hstep.height_le⟩

end Stack

/-- The stack of the machine, for every code, call environment and schedule: in every frame that `execImpl` reaches, and for
every byte as the next instruction, no access is below the bottom of the stack; an instruction that goes on changes the height
by `ret - args` of the table, and the height stays within `stackLimit`. -/
theorem stack_safe (fields : ExtFields) (gas : U256) (s : State) (hmy : (s.m_cache fields.myAddress).isSome) :
    (∀ t, Reaches (ExtVM.face E sha3 fields (Executive.go E turns levels))
        (initial (ExtVM.face E sha3 fields (Executive.go E turns levels)) gas ⟨s, {}⟩) t →
      t.m_stack.length ≤ (E.evmSchedule fields.envInfo).stackLimit.toNat ∧
      ∀ b : UInt8, Runs (execInstruction (ExtVM.face E sha3 fields (Executive.go E turns levels)) (.ofByte b)) t
        (fun r u => r = none →
          u.m_stack.length + (instructionInfo (.ofByte b)).args = t.m_stack.length + (instructionInfo (.ofByte b)).ret ∧
          u.m_stack.length ≤ (E.evmSchedule fields.envInfo).stackLimit.toNat)
        (fun err _ => err ≠ .fault .stack)) ∧
    ∀ fuel u, execImpl (ExtVM.face E sha3 fields (Executive.go E turns levels)) fuel gas ⟨s, {}⟩ ≠ .error (.fault .stack) u := by
  have C := ExtVM.contract_any E sha3 turns levels hmy
  refine ⟨fun t ht => ?_, fun fuel u hu => ?_⟩
  · obtain ⟨hin, hheight⟩ := within_of_reaches E sha3 turns levels hmy gas ht
    refine ⟨hheight, fun b => ?_⟩
    refine (VM.runs_execInstruction C (.ofByte b) hin (fun w _ => VM.gasBelow_top _ w)).mono ?_ ?_
    · rintro r u hu rfl
      exact ⟨hu.height_eq, hu.height_le⟩
    · rintro err u ⟨-, -, hwhy⟩ rfl
      rcases hwhy with (⟨o, ho⟩ | h | h) | ⟨v, hv⟩ | ⟨h, -⟩
      · cases ho
      · cases h
      · cases h
      · cases hv
      · cases h
  · obtain ⟨-, hwhy⟩ := (VM.runs_loop_any C fuel (s := initial _ gas ⟨s, {}⟩) (ExtVM.within_refl s)).of_error hu
    rcases hwhy with (⟨o, ho⟩ | h | h) | ⟨v, hv⟩ | h | h
    · cases ho
    · cases h
    · cases h
    · cases hv
    · cases h
    · cases h

theorem stack_safe_sample :
    (Sample.state.m_cache Sample.fields.myAddress).isSome ∧
      ∀ fuel u, execImpl (ExtVM.face Sample.engine Sample.hash Sample.fields (Executive.go Sample.engine 101 1025)) fuel 100
        ⟨Sample.state, {}⟩ ≠ .error (.fault .stack) u :=
  ⟨rfl, (stack_safe Sample.engine Sample.hash 101 1025 Sample.fields 100 Sample.state rfl).2⟩

/-! ## The memory -/

section Memory

variable {fields : ExtFields} {s : State}

/-- What every turn keeps under a sound schedule, of a run that cannot pay for memory that 32 bits cannot address. -/
structure Paid (E : SealEngine) (fields : ExtFields) (s : State) (gas : U256) (t : Frame ExtVM) : Prop where
  ext : ExtVM.Within s t.ext
  gas_le : t.io_gas.toNat ≤ gas.toNat
  words : 32 ∣ t.m_temp.length
  bounded : gas.toNat < VM.gasForMem (E.evmSchedule fields.envInfo) (2 ^ 32) →
    t.io_gas.toNat + VM.gasForMem (E.evmSchedule fields.envInfo) t.m_temp.length <
      VM.gasForMem (E.evmSchedule fields.envInfo) (2 ^ 32)

theorem paid_of_reaches (hS : VM.SoundSchedule (E.evmSchedule fields.envInfo))
    (hmy : (s.m_cache fields.myAddress).isSome) (gas : U256) {t : Frame ExtVM}
    (h : Reaches (ExtVM.face E sha3 fields (Executive.go E turns levels))
      (initial (ExtVM.face E sha3 fields (Executive.go E turns levels)) gas ⟨s, {}⟩) t) : Paid E fields s gas t := by
  refine h.induct (P := Paid E fields s gas) ⟨ExtVM.within_refl s, Nat.le_refl _, Nat.dvd_zero 32, fun hg => ?_⟩
    (fun u v _ hu hv => ?_)
  · have h0 : VM.gasForMem (E.evmSchedule fields.envInfo) 0 = 0 := by simp [VM.gasForMem]
    show gas.toNat + VM.gasForMem (E.evmSchedule fields.envInfo) 0 < _
    rw [h0]
    exact hg
  · have C := ExtVM.contract E sha3 turns levels hS gas.toNat hmy
    have hstep := (VM.runs_step C hu.ext (fun inst w hw => (hw.gasBelow hS).mono hu.gas_le)).of_ok hv
    have hlt : v.io_gas.toNat + VM.gasForMem (E.evmSchedule fields.envInfo) v.m_temp.length <
        u.io_gas.toNat + VM.gasForMem (E.evmSchedule fields.envInfo) u.m_temp.length := hstep.gas_lt hS
    have hmem := VM.gasForMem_mono (E.evmSchedule fields.envInfo) hstep.temp.1
    have hle := hu.gas_le
    refine ⟨hstep.ext, by omega, hstep.temp.2 hu.words, fun hg => ?_⟩
    have := hu.bounded hg
    omega

end Memory

/-- The memory of the machine, for every code and call environment, under the schedules of `EVMSchedule.h` and with less gas than
`2 ^ 32` bytes of memory cost: in every frame reached and for every byte as the next instruction, once `checkRequirements` has
returned the memory is a whole number of words and has not shrunk, and every range the instruction touches with truncated
operands is the range of its operands and lies inside the memory. A copy writes the bytes of its source from the index on and
zeros behind its end, and reads nothing outside, for every index and size. -/
theorem memory_safe (fields : ExtFields) (gas : U256) (s : State) (hmy : (s.m_cache fields.myAddress).isSome)
    (hE : ∃ efcd hdc tx, E.evmSchedule fields.envInfo = .ofFlags efcd hdc tx)
    (hgas : gas.toNat < VM.gasForMem (E.evmSchedule fields.envInfo) (2 ^ 32)) :
    (∀ t, Reaches (ExtVM.face E sha3 fields (Executive.go E turns levels))
        (initial (ExtVM.face E sha3 fields (Executive.go E turns levels)) gas ⟨s, {}⟩) t →
      32 ∣ t.m_temp.length ∧
      ∀ (b : UInt8) u, checkRequirements (ExtVM.face E sha3 fields (Executive.go E turns levels)) (.ofByte b)
          { t with touched := [] } = .ok () u →
        32 ∣ u.m_temp.length ∧ t.m_temp.length ≤ u.m_temp.length ∧
        Runs (perform (ExtVM.face E sha3 fields (Executive.go E turns levels)) (.ofByte b)) u
          (fun _ v => v.m_temp.length = u.m_temp.length ∧ ∀ τ ∈ v.touched, VM.Touch.Exact u.m_temp.length τ)
          (fun err v => err ≠ .fault .temp ∧ err ≠ .fault .source ∧ v.m_temp.length = u.m_temp.length ∧
            ∀ τ ∈ v.touched, VM.Touch.Exact u.m_temp.length τ)) ∧
    ∀ (data : Bytes) (u : Frame ExtVM), data.length < 2 ^ 64 → 3 ≤ u.m_stack.length →
      Runs (VM.copyDataToMemory data) u
        (fun _ v => ∃ place count, v.touched = ⟨u.m_stack.getD 0 0, u.m_stack.getD 2 0, place, count⟩ :: u.touched ∧
          v.m_temp.length = u.m_temp.length ∧
          v.m_temp = VM.overwrite u.m_temp place (VM.sourceBytes data (u.m_stack.getD 1 0).toNat count))
        (fun err _ => err = .fault .temp) := by
  have hS : VM.SoundSchedule (E.evmSchedule fields.envInfo) := by
    obtain ⟨efcd, hdc, tx, heq⟩ := hE
    rw [heq]
    exact VM.soundSchedule_ofFlags efcd hdc tx
  refine ⟨fun t ht => ?_, fun data u hd h => ?_⟩
  · have hp := paid_of_reaches E sha3 turns levels hS hmy gas ht
    have C := ExtVM.contract E sha3 turns levels hS gas.toNat hmy
    refine ⟨hp.words, fun b u hu => ?_⟩
    have hc : VM.Checked _ _ (.ofByte b) (VM.fresh t) u :=
      (VM.runs_checkRequirements C (.ofByte b) (s := VM.fresh t) hp.ext).of_ok hu
    have hfits : VM.Fits (.ofByte b) u := hc.fits (hp.bounded hgas)
    refine ⟨hc.words hp.words, hc.temp_le, ?_⟩
    refine (VM.runs_perform C hc ((hc.gasBelow hS).mono hp.gas_le)).mono (fun r v hv => ?_) (fun err v hv => ?_)
    · have hnone : ∀ τ, τ ∉ u.touched := by rw [hc.touched]; exact fun τ => List.not_mem_nil
      cases r with
      | some out => exact ⟨by rw [hv.temp], fun τ hτ => (hv.touched hfits τ hτ).resolve_left (hnone τ)⟩
      | none => exact ⟨hv.2.temp, fun τ hτ => (hv.2.touched hfits τ hτ).resolve_left (hnone τ)⟩
    · have hnone : ∀ τ, τ ∉ u.touched := by rw [hc.touched]; exact fun τ => List.not_mem_nil
      refine ⟨?_, ?_, by rw [hv.temp], fun τ hτ => (hv.touched hfits τ hτ).resolve_left (hnone τ)⟩
      · rintro rfl
        rcases hv.reason with (⟨o, ho⟩ | ⟨-, h⟩ | ⟨h, -⟩) | h | ⟨-, h⟩
        · cases ho
        · omega
        · cases h
        · cases h
        · exact h hfits
      · rintro rfl
        rcases hv.reason with (⟨o, ho⟩ | ⟨h, -⟩ | ⟨h, -⟩) | h | ⟨h, -⟩
        · cases ho
        · cases h
        · cases h
        · cases h
        · cases h
  · refine (VM.runs_copyDataToMemory data h).mono ?_ (fun err v he => he.1)
    rintro - v ⟨r, w, hw, rfl⟩
    have hlen := hw.length_copy data (u.m_stack.getD 1 0).toNat
    refine ⟨r.1, r.2, by rw [hw.frame], hlen, ?_⟩
    show VM.overwrite u.m_temp r.1 _ = _
    rw [VM.copied_eq hd]

theorem memory_safe_sample :
    (100 : U256).toNat < VM.gasForMem (Sample.engine.evmSchedule Sample.env) (2 ^ 32) ∧
      Runs (VM.copyDataToMemory [1, 2, 3])
        (initial (ExtVM.face Sample.engine Sample.hash Sample.fields (Executive.go Sample.engine 101 1025)) 100
          ⟨Sample.state, {}⟩ |> fun f => { f with m_stack := [0, 2, 4], m_temp := List.replicate 32 7 })
        (fun _ v => ∃ place count, v.touched = [⟨0, 4, place, count⟩] ∧ v.m_temp.length = 32 ∧
          v.m_temp = VM.overwrite (List.replicate 32 7) place (VM.sourceBytes [1, 2, 3] 2 count))
        (fun err _ => err = .fault .temp) :=
  ⟨by decide, (memory_safe Sample.engine Sample.hash 101 1025 Sample.fields 100 Sample.state rfl ⟨true, true, 53000, rfl⟩
    (by decide)).2 [1, 2, 3] _ (by decide) (by decide)⟩

/-! ## The end of every run -/

/-- Every run ends, under the schedules of Frontier and Homestead and with any gas: with more turns than gas and levels for a
depth of 1024 the bounds of the model are never reached; every instruction that does not end the run lowers the gas; and a frame
at a depth of at most 1024 runs no frame at a greater depth. -/
theorem every_run_ends
    (hE : ∀ env, E.evmSchedule env = .FrontierSchedule ∨ E.evmSchedule env = .HomesteadSchedule) :
    (∀ e x, Executive.Ready e x → e.m_depth ≤ 1024 → ∀ turns levels, e.m_gas.toNat < turns → 1024 < levels + e.m_depth →
      ∀ e', Executive.go E turns levels e ≠ .error .outOfFuel e') ∧
    (∀ turns levels fields gas s, (s.m_cache fields.myAddress).isSome →
      ∀ t, Reaches (ExtVM.face E sha3 fields (Executive.go E turns levels))
        (initial (ExtVM.face E sha3 fields (Executive.go E turns levels)) gas ⟨s, {}⟩) t →
      ∀ (b : UInt8) u, execInstruction (ExtVM.face E sha3 fields (Executive.go E turns levels)) (.ofByte b) t = .ok none u →
        u.io_gas.toNat < t.io_gas.toNat) ∧
    ∀ turns (nested nested' : Executive.M Unit), (∀ e : Executive, e.m_depth ≤ 1024 → nested e = nested' e) →
      ∀ e x, e.m_ext = some x → x.fields.depth ≤ 1024 →
        Executive.goWith E turns nested e = Executive.goWith E turns nested' e := by
  have hS : ∀ env, VM.SoundSchedule (E.evmSchedule env) := by
    intro env
    rcases hE env with h | h
    · rw [h]
      exact VM.soundSchedule_ofFlags _ _ _
    · rw [h]
      exact VM.soundSchedule_ofFlags _ _ _
  refine ⟨fun e x hr hd turns levels hturns hlevels e' he' => ?_, fun turns levels fields gas s hmy t ht b u hu => ?_,
    fun turns nested nested' h e x hx hd => Executive.goWith_congr E turns h hx hd⟩
  · have hgo := Executive.go_does E (hS e.m_envInfo) turns levels e.m_depth (e.m_gas.toNat + 1) hd e x hr rfl rfl
      (Nat.lt_succ_self _)
    obtain ⟨hends, -⟩ := hgo.of_error he'
    rcases hends with ⟨h, -⟩ | ⟨-, h⟩
    · cases h
    · omega
  · have hp := paid_of_reaches E sha3 turns levels (hS _) hmy gas ht
    have C := ExtVM.contract E sha3 turns levels (hS _) gas.toNat hmy
    have hturn := (VM.runs_execInstruction C (.ofByte b) hp.ext (fun w hw => (hw.gasBelow (hS _)).mono hp.gas_le)).of_ok hu
    have hlt := hturn.gas_lt (hS _)
    have hmem := VM.gasForMem_mono (E.evmSchedule fields.envInfo) hturn.temp.1
    have hlt' : u.io_gas.toNat + VM.gasForMem (E.evmSchedule fields.envInfo) u.m_temp.length <
        t.io_gas.toNat + VM.gasForMem (E.evmSchedule fields.envInfo) t.m_temp.length := hlt
    omega

theorem every_run_ends_sample :
    Sample.executive.m_depth ≤ 1024 ∧ ∀ e', Executive.go Sample.engine 101 1025 Sample.executive ≠ .error .outOfFuel e' :=
  ⟨by decide, (every_run_ends Sample.engine Sample.hash (fun _ => Or.inr rfl)).1 Sample.executive _
    ⟨rfl, rfl, rfl, fun h => (by cases h), rfl, rfl, rfl⟩ (by decide) 101 1025 (by decide) (by decide)⟩

end Webthree
