import Mathlib.Order.Monotone.Basic
import Webthree.Evm.Vm
import Webthree.Lemmas.VmRun

/-!
# Where the machine goes

The destinations that `execImpl` collects are those of the linear decoding, and every turn of its loop goes from the start of an
instruction to the start of the next one, or of one that a jump names.
-/

namespace Webthree

/-! ## The decoding -/

/-- The byte of an instruction decides how many bytes it takes, and whether a jump may go there. -/
theorem ofByte_width (b : UInt8) : (Instruction.ofByte b).width =
    if 0x60 ≤ b.toNat ∧ b.toNat ≤ 0x7f then b.toNat - 0x60 + 2 else 1 := by
  have hall : ∀ n, n < 256 → (Instruction.ofByte (UInt8.ofNat n)).width = if 0x60 ≤ n ∧ n ≤ 0x7f then n - 0x60 + 2 else 1 := by
    decide +kernel
  have hb := hall b.toNat b.toNat_lt
  rwa [UInt8.ofNat_toNat] at hb

/-- An instruction is at least one byte. -/
theorem Instruction.width_pos (inst : Instruction) : 0 < inst.width := by
  cases inst <;> exact Nat.succ_pos _

/-- Instructions start one behind the other. -/
theorem instructionStart_strictMono (code : Bytes) : StrictMono (instructionStart code) :=
  strictMono_nat_of_lt_succ fun _ => Nat.lt_add_of_pos_right (Instruction.width_pos _)

/-- No instruction starts among the bytes of another. -/
theorem instructionStart_next {code : Bytes} {k j : Nat} (h : instructionStart code k < instructionStart code j) :
    instructionStart code (k + 1) ≤ instructionStart code j :=
  (instructionStart_strictMono code).monotone ((instructionStart_strictMono code).lt_iff_lt.mp h)

namespace VM

/-- Jump destinations lie behind the place that is searched from. -/
theorem le_of_mem_jumpDestsFrom {rest : Bytes} {i skip p : Nat} (hp : p ∈ jumpDestsFrom i skip rest) : i ≤ p := by
  induction rest generalizing i skip with
  | nil => exact absurd hp List.not_mem_nil
  | cons b rest ih =>
    cases skip with
    | succ skip =>
      rw [jumpDestsFrom] at hp
      exact Nat.le_of_succ_le (ih hp)
    | zero =>
      rw [jumpDestsFrom] at hp
      split at hp
      · rcases List.mem_cons.mp hp with rfl | hp
        · exact Nat.le_refl _
        · exact Nat.le_of_succ_le (ih hp)
      · split at hp
        · exact Nat.le_of_succ_le (ih hp)
        · exact Nat.le_of_succ_le (ih hp)

/-- The destinations are collected in their order. -/
theorem jumpDestsFrom_sorted (rest : Bytes) (i skip : Nat) : (jumpDestsFrom i skip rest).Pairwise (· < ·) := by
  induction rest generalizing i skip with
  | nil => exact .nil
  | cons b rest ih =>
    cases skip with
    | succ skip => exact ih _ _
    | zero =>
      rw [jumpDestsFrom]
      split
      · exact List.pairwise_cons.mpr ⟨fun p hp => le_of_mem_jumpDestsFrom hp, ih _ _⟩
      · split
        · exact ih _ _
        · exact ih _ _

/-- The loop that collects them goes along the decoding. -/
theorem mem_jumpDestsFrom {code rest : Bytes} {i skip k p : Nat} (hrest : rest = code.drop i)
    (hk : instructionStart code k = i + skip) : p ∈ jumpDestsFrom i skip rest ↔ i + skip ≤ p ∧ Destination code p := by
  induction rest generalizing i skip k with
  | nil =>
    have hlength := congrArg List.length hrest
    rw [List.length_nil, List.length_drop] at hlength
    refine ⟨fun hp => absurd hp List.not_mem_nil, ?_⟩
    rintro ⟨hle, -, hp⟩
    rw [List.getElem?_eq_none (by omega)] at hp
    cases hp
  | cons b rest ih =>
    have hb : code[i]? = some b := by
      have hhead := congrArg (·[0]?) hrest
      simpa using hhead.symm
    have htail : rest = code.drop (i + 1) := by
      have htail := congrArg List.tail hrest
      simpa using htail
    cases skip with
    | succ skip =>
      rw [jumpDestsFrom, ih htail (k := k) (by omega), Nat.add_right_comm, Nat.add_assoc]
    | zero =>
      have hget : code.getD i 0 = b := by rw [List.getD_eq_getElem?_getD, hb, Option.getD_some]
      have hstart : instructionStart code k = i := hk
      have hnext : instructionStart code (k + 1) = i + (Instruction.ofByte b).width := by
        rw [instructionStart, hstart, hget]
      rw [ofByte_width] at hnext
      -- the next destination is this one, or it is not before the next instruction
      have hbehind : ∀ q, i ≤ q → Destination code q → q = i ∨ instructionStart code (k + 1) ≤ q := by
        rintro q hq ⟨⟨j, rfl⟩, -⟩
        rcases Nat.eq_or_lt_of_le hq with heq | hlt
        · exact .inl heq.symm
        · rw [← hstart] at hlt
          exact .inr (instructionStart_next hlt)
      rw [jumpDestsFrom, Nat.add_zero]
      by_cases hdest : b.toNat = 0x5b
      · rw [if_neg (by omega)] at hnext
        have hbyte : b = 0x5b := UInt8.toNat_inj.mp hdest
        rw [if_pos hdest, List.mem_cons, ih htail (k := k + 1) hnext, Nat.add_zero]
        constructor
        · rintro (rfl | ⟨hle, hp⟩)
          · exact ⟨Nat.le_refl _, ⟨k, hstart.symm⟩, by rw [hb, hbyte]⟩
          · exact ⟨Nat.le_of_succ_le hle, hp⟩
        · rintro ⟨hle, hp⟩
          rcases hbehind p hle hp with heq | hge
          · exact .inl heq
          · exact .inr ⟨hnext ▸ hge, hp⟩
      · have hnot : ¬ Destination code i := by
          rintro ⟨-, hi⟩
          rw [hb] at hi
          exact hdest (congrArg UInt8.toNat (Option.some.inj hi))
        have hiff : ∀ n, instructionStart code (k + 1) = n → (n ≤ p ∧ Destination code p ↔ i ≤ p ∧ Destination code p) := by
          rintro n rfl
          have hlt : i < instructionStart code (k + 1) := by
            rw [← hstart]
            exact instructionStart_strictMono code (Nat.lt_succ_self k)
          refine ⟨fun hp => ⟨by omega, hp.2⟩, ?_⟩
          rintro ⟨hle, hp⟩
          rcases hbehind p hle hp with rfl | hge
          · exact absurd hp hnot
          · exact ⟨hge, hp⟩
        rw [if_neg hdest]
        split
        · rename_i hpush
          rw [if_pos hpush] at hnext
          have hskip : instructionStart code (k + 1) = i + 1 + (b.toNat - 0x60 + 1) := by omega
          rw [ih htail (k := k + 1) hskip]
          exact hiff _ hskip
        · rename_i hpush
          rw [if_neg hpush] at hnext
          rw [ih htail (k := k + 1) hnext, Nat.add_zero]
          exact hiff _ hnext

/-- The destinations that are collected are those there are. -/
theorem mem_jumpDests_iff (code : Bytes) (d : Nat) : d ∈ jumpDestsFrom 0 0 code ↔ Destination code d := by
  rw [mem_jumpDestsFrom List.drop_zero.symm (k := 0) rfl]
  exact ⟨fun h => h.2, fun h => ⟨Nat.zero_le d, h⟩⟩

/-- In a list that is in order, binary search finds what is in it. -/
theorem binary_search_iff {dests : List Nat} (h : dests.Pairwise (· < ·)) (d : Nat) : binary_search dests d = true ↔ d ∈ dests := by
  have hget : ∀ i, (hi : i < dests.length) → dests.getD i 0 = dests[i] := by
    intro i hi
    rw [List.getD_eq_getElem?_getD, List.getElem?_eq_getElem hi, Option.getD_some]
  have hmono : ∀ i j, i ≤ j → j < dests.length → dests.getD i 0 ≤ dests.getD j 0 := by
    intro i j hij hj
    rcases Nat.eq_or_lt_of_le hij with rfl | hlt
    · exact Nat.le_refl _
    · rw [hget i (by omega), hget j hj]
      exact Nat.le_of_lt (List.pairwise_iff_getElem.mp h i j (by omega) hj hlt)
  rw [binary_search, BinarySearch.found_iff hmono, List.mem_iff_getElem]
  constructor
  · rintro ⟨i, hi, heq⟩
    exact ⟨i, hi, by rw [← hget i hi]; exact heq⟩
  · rintro ⟨i, hi, heq⟩
    exact ⟨i, hi, by rw [hget i hi]; exact heq⟩

/-! ## One turn -/

section Turn

variable {σ : Type} {F : ExtVMFace σ} {s u t : Frame σ}

/-- Any computation runs to something. -/
theorem runs_true {α : Type} (m : EStateM Stop σ α) (e : σ) {E : Stop → Prop} (hE : ∀ x, E x) :
    Runs m e (fun _ _ => True) fun x t => Kept (fun _ => True) x t ∧ E x := by
  unfold Runs
  split
  · trivial
  · exact ⟨fun _ => trivial, hE _⟩

/-- Externalities of which nothing is asked. -/
theorem contract_true (F : ExtVMFace σ) : Contract F (fun _ => True) (fun _ => True) (fun _ _ => True) (2 ^ 256) where
  store _ s _ := runs_true _ s fun _ => trivial
  setStore _ _ s _ := runs_true _ s fun _ => trivial
  balance _ s _ := runs_true _ s fun _ => trivial
  codeAt _ s _ := runs_true _ s fun _ => trivial
  «exists» _ s _ := runs_true _ s fun _ => trivial
  suicide _ s _ := runs_true _ s fun _ => trivial
  create _ _ _ s _ _ _ := (runs_true _ s fun _ => trivial).mono (fun _ _ _ => ⟨trivial, trivial⟩) fun _ _ h => h
  call _ s _ _ _ := (runs_true _ s fun _ => trivial).mono (fun _ _ _ => ⟨trivial, trivial⟩) fun _ _ h => h
  log _ _ s _ := runs_true _ s fun _ => trivial
  addRefunds _ s _ := runs_true _ s fun _ => trivial

/-- What the check of an instruction has made sure of. -/
theorem checked_of_ok {inst : Instruction} (h : checkRequirements F inst (fresh s) = .ok () u) :
    Checked F (fun _ => True) inst (fresh s) u :=
  (runs_checkRequirements (contract_true F) inst trivial).of_ok h

/-- A step whose requirements are met performs its instruction. -/
theorem step_of_checked (h : checkRequirements F (currentInstruction F s) (fresh s) = .ok () u) :
    step F s = perform F (currentInstruction F s) u := by
  simp only [step, execInstruction, bind, EStateM.bind, modify, modifyGet, MonadStateOf.modifyGet, estate_modifyGet]
  rw [fresh] at h
  rw [h]

/-- A step whose requirements fail ends there. -/
theorem step_of_unchecked {e : Stop} (h : checkRequirements F (currentInstruction F s) (fresh s) = .error e u) :
    step F s = .error e u := by
  simp only [step, execInstruction, bind, EStateM.bind, modify, modifyGet, MonadStateOf.modifyGet, estate_modifyGet]
  rw [fresh] at h
  rw [h]

/-- A turn that goes on leaves the destinations alone. -/
theorem jumpDests_of_step (h : step F s = .ok none t) : t.m_jumpDests = s.m_jumpDests := by
  obtain ⟨u, hu, ht⟩ := (runs_step (contract_true F) trivial fun inst w _ => gasBelow_top inst w).of_ok h
  exact ht.2.jumpDests.trans hu.jumpDests

/-! ## Where a turn goes -/

/-- The instructions that may go elsewhere than to the next one. -/
def Jumps (inst : Instruction) : Prop := inst = .JUMP ∨ inst = .JUMPI

/-- An ordinary instruction that is no jump goes on behind its bytes. -/
theorem runs_nextPC {inst : Instruction} (hj : ¬ Jumps inst) (u : Frame σ) :
    Runs (execOrdinaryOpcode F inst) u (fun pc _ => pc = u.m_curPC + inst.width) fun _ _ => True := by
  have hnext : ∀ m : M σ Unit, Runs (do m; pure (u.m_curPC + 1)) u (fun pc _ => pc = u.m_curPC + 1) fun _ _ => True :=
    fun m => runs_bind_of_forall (fun _ _ => rfl) fun _ _ => trivial
  rw [execOrdinaryOpcode, runs_bind, runs_get]
  cases inst with
  | PUSH n => exact runs_bind_of_forall (fun _ _ => by rw [runs_pure, Instruction.width]; omega) fun _ _ => trivial
  | JUMP => exact absurd (.inl rfl) hj
  | JUMPI => exact absurd (.inr rfl) hj
  | JUMPDEST | CREATE | CALL | CALLCODE | DELEGATECALL | RETURN | SUICIDE | STOP | INVALID b => rfl
  | _ => exact hnext _

/-- A frame at a place. -/
def At (pc : Nat) (s : Frame σ) : Prop := s.m_curPC = pc

section At

variable {pc : Nat} {α : Type}

/-- What the environment does leaves the program counter. -/
theorem at_onExt (m : EStateM Stop σ α) : Maintains (At pc) (onExt m) := by
  intro s hs
  rw [runs_onExt]
  unfold Runs
  split <;> exact hs

/-- Reading the stack leaves the program counter. -/
theorem at_fromTop (k : Nat) : Maintains (At pc) (fromTop k : M σ U256) := by
  intro s hs
  unfold Runs fromTop
  cases k with
  | zero => exact hs
  | succ k =>
    dsimp only
    cases s.m_stack[k]? with
    | none => exact hs
    | some x => exact hs

/-- Popping leaves the program counter. -/
theorem at_popBack : Maintains (At pc) (popBack : M σ Unit) := by
  intro s hs
  unfold Runs popBack
  cases s.m_stack with
  | nil => exact hs
  | cons x l => exact hs

/-- Taking from the stack leaves the program counter. -/
theorem at_takeBack : Maintains (At pc) (takeBack : M σ U256) :=
  (at_fromTop 1).bind fun x => at_popBack.bind fun _ => .pure x

/-- Pushing leaves the program counter. -/
theorem at_pushBack (x : U256) : Maintains (At pc) (pushBack x : M σ Unit) := fun _ hs => hs

/-- Growing the memory leaves the program counter. -/
theorem at_touch (w : Nat) (offset size : U256) : Maintains (At pc) (touch w offset size : M σ (Nat × Nat)) := by
  intro s hs
  unfold Runs touch
  dsimp only
  split_ifs <;> exact hs

/-- A step may look at the frame before it goes on. -/
theorem at_get_bind {f : Frame σ → M σ α} (hf : ∀ s, Maintains (At pc) (f s)) : Maintains (At pc) (get >>= f) :=
  .get_bind fun s hs => hf s s hs

/-- Reading the memory leaves the program counter. -/
theorem at_readTemp (w : Nat) (offset size : U256) : Maintains (At pc) (readTemp w offset size : M σ Bytes) :=
  (at_touch w offset size).bind fun _ => at_get_bind fun _ => .pure _

/-- Both branches leave the program counter. -/
theorem at_ite {c : Prop} [Decidable c] {m n : M σ α} (hm : Maintains (At pc) m) (hn : Maintains (At pc) n) :
    Maintains (At pc) (if c then m else n) := by
  split
  · exact hm
  · exact hn

/-- A change of other fields leaves the program counter. -/
theorem at_modify {f : Frame σ → Frame σ} (hf : ∀ s, (f s).m_curPC = s.m_curPC) : Maintains (At pc) (modify f : M σ PUnit) :=
  .modify fun s hs => (hf s).trans hs

/-- Writing the memory leaves the program counter. -/
theorem at_writeTemp (place : Nat) (bs : Bytes) : Maintains (At pc) (writeTemp place bs : M σ Unit) := fun _ hs => hs

/-- A creation does not change the place. -/
theorem at_execCreate : Maintains (At pc) (execCreate F) := by
  refine at_takeBack.bind fun endowment => at_takeBack.bind fun initOff => at_takeBack.bind fun initSize => ?_
  refine (at_onExt _).bind fun balance => at_ite ?_ (at_pushBack _)
  refine (at_readTemp _ _ _).bind fun init => at_get_bind fun s => (at_onExt _).bind fun made => ?_
  obtain ⟨address, gas⟩ := made
  exact Maintains.bind (at_modify fun _ => rfl) fun _ => at_pushBack _

/-- Popping the operands of a call leaves the program counter. -/
theorem at_popCallOperands (inst : Instruction) : Maintains (At pc) (popCallOperands F inst) := by
  refine (at_fromTop 1).bind fun requested => Maintains.bind ?_ fun transfers => ?_
  · exact at_ite ((at_fromTop 3).bind fun _ => .pure _) (.pure _)
  refine at_popBack.bind fun _ => at_takeBack.bind fun codeAddress => Maintains.bind ?_ fun value => ?_
  · exact at_ite (.pure _) (at_takeBack.bind fun _ => .pure _)
  exact at_takeBack.bind fun _ => at_takeBack.bind fun _ => at_takeBack.bind fun _ => at_takeBack.bind fun _ => .pure _

/-- Nor does a call. -/
theorem at_execCall (inst : Instruction) : Maintains (At pc) (execCall F inst) := by
  refine (at_popCallOperands inst).bind fun p => (at_onExt _).bind fun balance => at_ite ?_ ?_
  · refine (at_readTemp _ _ _).bind fun data => (at_touch _ _ _).bind fun out => ?_
    obtain ⟨outPlace, outCount⟩ := out
    refine (at_onExt _).bind fun r => (at_writeTemp _ _).bind fun _ => (at_pushBack _).bind fun _ => ?_
    exact at_modify fun _ => rfl
  · exact Maintains.bind (at_pushBack _) fun _ => at_modify fun _ => rfl

end At

/-- An instruction that is no jump goes on behind its bytes, or ends the run. -/
theorem runs_perform_next {inst : Instruction} (hj : ¬ Jumps inst) (u : Frame σ) :
    Runs (perform F inst) u (fun r t => r = none → t.m_curPC = u.m_curPC + inst.width) fun _ _ => True := by
  have hspecial : ∀ m : M σ Unit, Maintains (At u.m_curPC) m →
      Runs (do m; modify fun s => { s with m_curPC := s.m_curPC + 1 }; pure none) u
        (fun (r : Option Bytes) t => r = none → t.m_curPC = u.m_curPC + 1) fun _ _ => True := by
    intro m hm
    rw [runs_bind]
    refine (hm u rfl).mono (fun _ t ht _ => ?_) fun _ _ _ => trivial
    exact congrArg (· + 1) ht
  have hordinary : Runs (do let pc ← execOrdinaryOpcode F inst; modify fun s => { s with m_curPC := pc }; pure none) u
      (fun (r : Option Bytes) t => r = none → t.m_curPC = u.m_curPC + inst.width) fun _ _ => True := by
    rw [runs_bind]
    exact (runs_nextPC hj u).mono (fun pc t hpc _ => hpc) fun _ _ _ => trivial
  cases inst with
  | CREATE => exact hspecial _ at_execCreate
  | CALL => exact hspecial _ (at_execCall .CALL)
  | CALLCODE => exact hspecial _ (at_execCall .CALLCODE)
  | DELEGATECALL => exact hspecial _ (at_execCall .DELEGATECALL)
  | RETURN =>
    refine runs_bind_of_forall (fun _ _ => ?_) fun _ _ => trivial
    refine runs_bind_of_forall (fun _ _ => ?_) fun _ _ => trivial
    exact runs_bind_of_forall (fun _ _ => fun h => by cases h) fun _ _ => trivial
  | SUICIDE =>
    refine runs_bind_of_forall (fun _ _ => ?_) fun _ _ => trivial
    exact runs_bind_of_forall (fun _ _ => fun h => by cases h) fun _ _ => trivial
  | STOP => exact fun h => by cases h
  | _ => exact hordinary

/-- The place after a turn that goes on and is no jump. -/
theorem curPC_of_step (hj : ¬ Jumps (currentInstruction F s)) (h : step F s = .ok none t) :
    t.m_curPC = s.m_curPC + (currentInstruction F s).width := by
  cases hc : checkRequirements F (currentInstruction F s) (fresh s) with
  | error e u =>
    rw [step_of_unchecked hc] at h
    cases h
  | ok a u =>
    rw [step_of_checked hc] at h
    rw [(runs_perform_next hj u).of_ok h rfl, (checked_of_ok hc).curPC]
    rfl

/-! ## Jumps -/

/-- What `verifyJumpDest` accepts among the destinations that were collected. -/
def Accepted (dests : List Nat) (dest : U256) : Prop := dest.toNat ∈ dests ∧ dest.toNat < 2 ^ 64

/-- An accepted destination is returned as it is. -/
theorem verifyJumpDest_ok {dest : U256} {dests : List Nat} (h : Accepted dests dest) (u : Frame σ) :
    verifyJumpDest dest dests u = .ok dest.toNat u := by
  have hlt := h.2
  have hmod : dest.toNat % 2 ^ 64 = dest.toNat := Nat.mod_eq_of_lt hlt
  have hgood : ¬ (¬ dest.toNat % 2 ^ 64 ∈ dests ∨ dest.toNat > 2 ^ 64 - 1) := by
    rw [hmod]
    rintro (hnot | hgt)
    · exact hnot h.1
    · omega
  unfold verifyJumpDest
  rw [if_neg hgood, hmod]
  rfl

/-- Any other destination is a bad jump. -/
theorem verifyJumpDest_bad {dest : U256} {dests : List Nat} (h : ¬ Accepted dests dest) (u : Frame σ) :
    verifyJumpDest dest dests u = .error (.vm .BadJumpDestination) u := by
  have hbad : ¬ dest.toNat % 2 ^ 64 ∈ dests ∨ dest.toNat > 2 ^ 64 - 1 := by
    by_cases hlt : dest.toNat < 2 ^ 64
    · refine .inl fun hmem => h ⟨?_, hlt⟩
      rwa [Nat.mod_eq_of_lt hlt] at hmem
    · exact .inr (by omega)
  unfold verifyJumpDest
  rw [if_pos hbad]
  rfl

/-- The end of a jump that goes to a destination, or is refused there. -/
structure Jumped (F : ExtVMFace σ) (inst : Instruction) (u : Frame σ) (dest : U256) (rest : List U256) : Prop where
  taken : Accepted u.m_jumpDests dest → perform F inst u = .ok none { u with m_stack := rest, m_curPC := dest.toNat }
  refused : ¬ Accepted u.m_jumpDests dest → perform F inst u = .error (.vm .BadJumpDestination) u

/-- `JUMP` goes to the top of the stack. -/
theorem jumped_jump {dest : U256} {rest : List U256} (hu : u.m_stack = dest :: rest) : Jumped F .JUMP u dest rest := by
  have hback : back u = .ok dest u := fromTop_ok (k := 0) (by rw [hu]; rfl)
  refine ⟨fun h => ?_, fun h => ?_⟩
  · simp only [perform, execOrdinaryOpcode, bind, EStateM.bind, get, getThe, MonadStateOf.get, estate_get, hback,
      verifyJumpDest_ok h, popBack, hu, pure, EStateM.pure, modify, modifyGet, MonadStateOf.modifyGet, estate_modifyGet]
  · simp only [perform, execOrdinaryOpcode, bind, EStateM.bind, get, getThe, MonadStateOf.get, estate_get, hback,
      verifyJumpDest_bad h]

/-- A conditional jump whose condition is not zero is a jump; otherwise the next instruction follows. -/
theorem jumped_jumpi {dest cond : U256} {rest : List U256} (hu : u.m_stack = dest :: cond :: rest) :
    (cond ≠ 0 → Jumped F .JUMPI u dest rest) ∧
      (cond = 0 → perform F .JUMPI u = .ok none { u with m_stack := rest, m_curPC := u.m_curPC + 1 }) := by
  have hback : back u = .ok dest u := fromTop_ok (k := 0) (by rw [hu]; rfl)
  have hcond : fromTop 2 u = .ok cond u := fromTop_ok (k := 1) (by rw [hu]; rfl)
  refine ⟨fun hne => ⟨fun h => ?_, fun h => ?_⟩, fun hzero => ?_⟩
  · simp only [perform, execOrdinaryOpcode, bind, EStateM.bind, get, getThe, MonadStateOf.get, estate_get, hcond, if_pos hne, hback,
      verifyJumpDest_ok h, popBack, hu, pure, EStateM.pure, modify, modifyGet, MonadStateOf.modifyGet, estate_modifyGet]
  · simp only [perform, execOrdinaryOpcode, bind, EStateM.bind, get, getThe, MonadStateOf.get, estate_get, hcond, if_pos hne, hback,
      verifyJumpDest_bad h]
  · have hnot : ¬ cond ≠ 0 := fun hne => hne hzero
    simp only [perform, execOrdinaryOpcode, bind, EStateM.bind, get, getThe, MonadStateOf.get, estate_get, hcond, if_neg hnot,
      popBack, hu, pure, EStateM.pure, modify, modifyGet, MonadStateOf.modifyGet, estate_modifyGet]

/-- A byte is appended to a number by a shift and an or. -/
theorem ofNat_shiftLeft_or (r : Nat) (x : UInt8) :
    (BitVec.ofNat 256 r <<< 8 ||| BitVec.ofNat 256 x.toNat : U256) = BitVec.ofNat 256 (r <<< 8 ||| x.toNat) := by
  refine BitVec.eq_of_toNat_eq ?_
  simp only [BitVec.toNat_or, BitVec.toNat_shiftLeft, BitVec.toNat_ofNat, Nat.or_mod_two_pow, Nat.shiftLeft_eq, Nat.mod_mul_mod]

/-- The bytes behind a `PUSH` are read one after the other, zeros behind the end of the code. -/
theorem pushValue_ofNat (f : ExtFields) (n pc r : Nat) : pushValue f pc n (BitVec.ofNat 256 r) =
    BitVec.ofNat 256 ((sourceBytes f.code pc n).foldl (fun r x => r <<< 8 ||| x.toNat) r) := by
  induction n generalizing pc r with
  | zero => rfl
  | succ n ih =>
    have hbytes : sourceBytes f.code pc (n + 1) = f.getCode pc :: sourceBytes f.code (pc + 1) n := by
      rw [sourceBytes, List.range_succ_eq_map, List.map_cons, List.map_map, sourceBytes]
      refine congrArg₂ List.cons rfl (List.map_congr_left fun i _ => ?_)
      rw [Function.comp_apply, Nat.add_assoc, Nat.add_comm 1 i]
    rw [pushValue, ofNat_shiftLeft_or, ih, hbytes, List.foldl_cons]

/-- The value that is pushed is the number that they are. -/
theorem pushValue_eq (f : ExtFields) (pc n : Nat) :
    pushValue f pc n 0 = BitVec.ofNat 256 (fromBigEndian (sourceBytes f.code pc n)) := pushValue_ofNat f n pc 0

/-- `PUSH` pushes the bytes behind it, with zeros past the end of the code. -/
theorem perform_push (n : Fin 32) (u : Frame σ) : perform F (.PUSH n) u = .ok none
    { u with
      m_stack := BitVec.ofNat 256 (fromBigEndian (sourceBytes F.fields.code (u.m_curPC + 1) (n + 1))) :: u.m_stack
      m_curPC := u.m_curPC + 1 + (n + 1) } := by
  rw [← pushValue_eq]
  rfl

end Turn

end VM

end Webthree
