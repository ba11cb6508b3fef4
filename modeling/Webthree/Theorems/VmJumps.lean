import Webthree.Lemmas.VmJumps
import Webthree.Theorems.Vm

/-!
# Where runs of the machine go

In every frame that `execImpl` reaches, the machine is at the start of an instruction of the linear decoding, or behind the end of the
code, and a jump leads to a destination of the decoding or is refused. Nothing is asked of the externalities.
-/

namespace Webthree

namespace VM

variable {σ : Type} {F : ExtVMFace σ} {s t : Frame σ}

/-- What is true of a frame at the beginning of a turn. An instruction that is not let through ends the run as its check does. -/
structure JumpSafe (F : ExtVMFace σ) (s : Frame σ) : Prop where
  place : ∃ k, s.m_curPC = instructionStart F.fields.code k
  search : ∀ d, binary_search s.m_jumpDests d = true ↔ Destination F.fields.code d
  stop : F.fields.code.length ≤ s.m_curPC → currentInstruction F s = .STOP ∧ ∀ t, step F s ≠ .ok none t
  jump : currentInstruction F s = .JUMP → ∀ u, checkRequirements F .JUMP (fresh s) = .ok () u →
    ∃ dest rest, s.m_stack = dest :: rest ∧
      (Destination F.fields.code dest.toNat ∧ dest.toNat < 2 ^ 64 →
        step F s = .ok none { u with m_stack := rest, m_curPC := dest.toNat }) ∧
      (¬ (Destination F.fields.code dest.toNat ∧ dest.toNat < 2 ^ 64) → step F s = .error (.vm .BadJumpDestination) u)
  jumpi : currentInstruction F s = .JUMPI → ∀ u, checkRequirements F .JUMPI (fresh s) = .ok () u →
    ∃ dest cond rest, s.m_stack = dest :: cond :: rest ∧
      (cond = 0 → step F s = .ok none { u with m_stack := rest, m_curPC := s.m_curPC + 1 }) ∧
      (cond ≠ 0 → Destination F.fields.code dest.toNat ∧ dest.toNat < 2 ^ 64 →
        step F s = .ok none { u with m_stack := rest, m_curPC := dest.toNat }) ∧
      (cond ≠ 0 → ¬ (Destination F.fields.code dest.toNat ∧ dest.toNat < 2 ^ 64) →
        step F s = .error (.vm .BadJumpDestination) u)
  push : ∀ n, currentInstruction F s = .PUSH n → ∀ u, checkRequirements F (.PUSH n) (fresh s) = .ok () u →
    step F s = .ok none
      { u with
        m_stack := BitVec.ofNat 256 (fromBigEndian (sourceBytes F.fields.code (s.m_curPC + 1) (n + 1))) :: s.m_stack
        m_curPC := s.m_curPC + 1 + (n + 1) }
  unchecked : ∀ e u, checkRequirements F (currentInstruction F s) (fresh s) = .error e u → step F s = .error e u

/-- The machine is at the start of an instruction, with the destinations that `execImpl` collected. -/
structure InPlace (F : ExtVMFace σ) (s : Frame σ) : Prop where
  place : ∃ k, s.m_curPC = instructionStart F.fields.code k
  jumpDests : s.m_jumpDests = jumpDestsFrom 0 0 F.fields.code

theorem inPlace_initial (gas : U256) (ext : σ) : InPlace F (initial F gas ext) := ⟨⟨0, rfl⟩, rfl⟩

theorem InPlace.accepted_iff (h : InPlace F s) (dest : U256) :
    Accepted s.m_jumpDests dest ↔ Destination F.fields.code dest.toNat ∧ dest.toNat < 2 ^ 64 := by
  rw [Accepted, h.jumpDests, mem_jumpDests_iff]

/-- What is checked has the arguments of the instruction on the stack. -/
theorem stack_of_checked {inst : Instruction} {u : Frame σ} (hu : checkRequirements F inst (fresh s) = .ok () u) :
    u.m_stack = s.m_stack ∧ u.m_curPC = s.m_curPC ∧ u.m_jumpDests = s.m_jumpDests ∧ (instructionInfo inst).args ≤ s.m_stack.length := by
  have hc := checked_of_ok hu
  exact ⟨hc.stack, hc.curPC, hc.jumpDests, hc.args⟩

/-- What is checked is performed. -/
theorem step_of_current {inst : Instruction} {u : Frame σ} (hi : currentInstruction F s = inst)
    (hu : checkRequirements F inst (fresh s) = .ok () u) : step F s = perform F inst u := by
  subst hi
  exact step_of_checked hu

/-- Behind the end of the code there are zeros. -/
theorem stop_of_le (h : F.fields.code.length ≤ s.m_curPC) : currentInstruction F s = .STOP ∧ ∀ t, step F s ≠ .ok none t := by
  have hzero : F.fields.getCode s.m_curPC = 0 := by
    rw [ExtFields.getCode, List.getD_eq_getElem?_getD, List.getElem?_eq_none h, Option.getD_none]
  have hstop : currentInstruction F s = .STOP := by
    rw [currentInstruction, hzero]
    rfl
  refine ⟨hstop, fun t ht => ?_⟩
  cases hc : checkRequirements F (currentInstruction F s) (fresh s) with
  | error e u =>
    rw [step_of_unchecked hc] at ht
    cases ht
  | ok a u =>
    rw [step_of_checked hc, hstop] at ht
    cases ht

theorem jumpSafe_of_inPlace (h : InPlace F s) : JumpSafe F s where
  place := h.place
  search d := by
    rw [binary_search_iff (by rw [h.jumpDests]; exact jumpDestsFrom_sorted _ _ _), h.jumpDests, mem_jumpDests_iff]
  stop := stop_of_le
  jump hi u hu := by
    obtain ⟨hstack, -, hdests, hargs⟩ := stack_of_checked hu
    obtain ⟨dest, rest, hs⟩ : ∃ dest rest, s.m_stack = dest :: rest := List.exists_cons_of_length_pos hargs
    have hjump : Jumped F .JUMP u dest rest := jumped_jump (hstack.trans hs)
    have haccepted := h.accepted_iff dest
    rw [← hdests] at haccepted
    rw [step_of_current hi hu]
    exact ⟨dest, rest, hs, fun hdest => hjump.taken (haccepted.mpr hdest), fun hdest => hjump.refused (mt haccepted.mp hdest)⟩
  jumpi hi u hu := by
    obtain ⟨hstack, hpc, hdests, hargs⟩ := stack_of_checked hu
    obtain ⟨dest, cond, rest, hs⟩ : ∃ dest cond rest, s.m_stack = dest :: cond :: rest := by
      cases hl : s.m_stack with
      | nil =>
        rw [hl] at hargs
        exact absurd hargs (by decide)
      | cons dest l =>
        cases l with
        | nil =>
          rw [hl] at hargs
          exact absurd hargs (by simp [instructionInfo])
        | cons cond rest => exact ⟨dest, cond, rest, rfl⟩
    obtain ⟨hjump, hgo⟩ := jumped_jumpi (F := F) (hstack.trans hs)
    have haccepted := h.accepted_iff dest
    rw [hpc] at hgo
    rw [← hdests] at haccepted
    rw [step_of_current hi hu]
    exact ⟨dest, cond, rest, hs, hgo, fun hne hdest => (hjump hne).taken (haccepted.mpr hdest),
      fun hne hdest => (hjump hne).refused (mt haccepted.mp hdest)⟩
  push n hi u hu := by
    obtain ⟨hstack, hpc, -, -⟩ := stack_of_checked hu
    rw [step_of_current hi hu, perform_push, hstack, hpc]
  unchecked e u hu := step_of_unchecked hu

/-- A turn that goes on leads to the start of an instruction. -/
theorem InPlace.step (h : InPlace F s) (ht : step F s = .ok none t) : InPlace F t := by
  refine ⟨?_, (jumpDests_of_step ht).trans h.jumpDests⟩
  obtain ⟨k, hk⟩ := h.place
  have hsafe := jumpSafe_of_inPlace h
  have hnext : ∀ {n}, (currentInstruction F s).width = n → t.m_curPC = s.m_curPC + n → ∃ k, t.m_curPC = instructionStart F.fields.code k := by
    rintro n rfl hpc
    refine ⟨k + 1, ?_⟩
    rw [hpc, instructionStart, ← hk]
    rfl
  by_cases hjumps : Jumps (currentInstruction F s)
  · cases hc : checkRequirements F (currentInstruction F s) (fresh s) with
    | error e u =>
      rw [step_of_unchecked hc] at ht
      cases ht
    | ok a u =>
      rcases hjumps with hi | hi
      · rw [hi] at hc
        obtain ⟨dest, rest, -, htaken, hrefused⟩ := hsafe.jump hi u hc
        by_cases hdest : Destination F.fields.code dest.toNat ∧ dest.toNat < 2 ^ 64
        · obtain ⟨j, hj⟩ := hdest.1.1
          rw [htaken hdest] at ht
          cases ht
          exact ⟨j, hj⟩
        · rw [hrefused hdest] at ht
          cases ht
      · rw [hi] at hc
        obtain ⟨dest, cond, rest, -, hgo, htaken, hrefused⟩ := hsafe.jumpi hi u hc
        by_cases hzero : cond = 0
        · rw [hgo hzero] at ht
          cases ht
          exact hnext (by rw [hi]; rfl) rfl
        · by_cases hdest : Destination F.fields.code dest.toNat ∧ dest.toNat < 2 ^ 64
          · obtain ⟨j, hj⟩ := hdest.1.1
            rw [htaken hzero hdest] at ht
            cases ht
            exact ⟨j, hj⟩
          · rw [hrefused hzero hdest] at ht
            cases ht
  · exact hnext rfl (curPC_of_step hjumps ht)

/-- So it is in every frame that the loop reaches. -/
theorem inPlace_of_reaches {gas : U256} {ext : σ} (h : Reaches F (initial F gas ext) s) : InPlace F s :=
  h.induct (inPlace_initial gas ext) fun _ _ _ hu hv => hu.step hv

/-- In every run of the machine the place is the start of an instruction, or behind the end of the code, where the run stops, and jumps
lead to destinations, of which binary search finds exactly those there are, or are refused. -/
theorem jump_safe (F : ExtVMFace σ) (gas : U256) (ext : σ) (s : Frame σ) (h : Reaches F (initial F gas ext) s) : JumpSafe F s :=
  jumpSafe_of_inPlace (inPlace_of_reaches h)

namespace JumpSample

/-- `PUSH1 3 JUMP JUMPDEST PUSH2 0x5b`, which ends within the bytes that are pushed. -/
def code : Bytes := [0x60, 3, 0x56, 0x5b, 0x61, 0x5b]

/-- Externalities that answer with zeros. -/
def face : ExtVMFace Unit :=
  { fields := { Sample.fields with code := code }
    evmSchedule := .ofFlags true true 53000
    sha3 := Sample.hash
    store _ := pure 0
    setStore _ _ := pure ()
    balance _ := pure 0
    codeAt _ := pure []
    «exists» _ := pure false
    suicide _ := pure ()
    create _ gas _ := pure (0, gas)
    call p := pure ⟨false, p.gas, []⟩
    log _ _ := pure ()
    addRefunds _ := pure () }

/-- The frame after the jump. -/
def landed : Frame Unit := { initial face 100 () with m_curPC := 3, io_gas := 89 }

end JumpSample

open JumpSample

theorem jump_safe_sample : JumpSafe face landed ∧ landed.m_curPC = 3 := by
  refine ⟨jump_safe face 100 () landed ?_, rfl⟩
  refine .tail (b := { initial face 100 () with m_curPC := 2, m_stack := [3], io_gas := 97 }) (.tail .refl ?_) ?_
  · rfl
  · rfl

end VM

end Webthree
