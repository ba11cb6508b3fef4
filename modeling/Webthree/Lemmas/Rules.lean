import Webthree.Asm.Rules
import Webthree.Evm.Arithmetic
import Mathlib.Data.BitVec

/-!
# The rules are sound

What a pattern stands for when its match groups have values, and that what a rule makes of a pattern stands for the same value,
whatever these values are.
-/

namespace Webthree

open AssemblyItem

/-- An item of an operator has its instruction. -/
theorem instruction_ofInstruction {i : Instruction} (h : (operator i).isSome = true) : (ofInstruction i).instruction = i := by
  cases i <;> first | rfl | cases h

namespace Pattern

mutual

/-- The value of a pattern where the match groups have values. -/
def denote (ν : Nat → U256) : Pattern → Option U256
  | ⟨type, requireDataMatch, data, byte, arguments, matchGroup⟩ =>
    if matchGroup ≠ 0 then some (ν matchGroup)
    else if requireDataMatch = false then none
    else if type = .Push then some data
    else if type = .Operation then
      (denoteAll ν arguments).bind
        (arith (toAssemblyItem ⟨type, requireDataMatch, data, byte, arguments, matchGroup⟩).instruction)
    else none

/-- The values of patterns, if all have one. -/
def denoteAll (ν : Nat → U256) : List Pattern → Option (List U256)
  | [] => some []
  | p :: ps => (p.denote ν).bind fun v => (denoteAll ν ps).map fun vs => v :: vs

end

variable (ν : Nat → U256)

@[simp]
theorem denote_value (v : U256) : (value v).denote ν = some v := by
  rw [value, denote]
  rfl

/-- A pattern for a constant stands for what its group does. -/
@[simp]
theorem denote_constant (g : Nat) : (constant (g + 1)).denote ν = some (ν (g + 1)) := by
  rw [constant, denote]
  rfl

/-- So does a pattern for anything. -/
@[simp]
theorem denote_anything (g : Nat) : (anything (g + 1)).denote ν = some (ν (g + 1)) := by
  rw [anything, denote]
  rfl

/-- An operation stands for what it makes of its arguments. -/
theorem denote_op {i : Instruction} (h : (operator i).isSome = true) (args : List Pattern) :
    (op i args).denote ν = (denoteAll ν args).bind (arith i) := by
  have hdecode : (op i args).denote ν = (denoteAll ν args).bind (arith (ofInstruction i).instruction) := by
    rw [op, denote.eq_def]
    rfl
  rw [hdecode, instruction_ofInstruction h]

@[simp]
theorem denoteAll_nil : denoteAll ν [] = some [] := by
  rw [denoteAll]

/-- The arguments stand for their values, one by one. -/
@[simp]
theorem denoteAll_cons (p : Pattern) (ps : List Pattern) :
    denoteAll ν (p :: ps) = (p.denote ν).bind fun v => (denoteAll ν ps).map fun vs => v :: vs := by
  rw [denoteAll]

end Pattern

/-- What the rule makes of its pattern has the same value. -/
def Rule.Sound (r : Rule) : Prop :=
  ∀ ν : Nat → U256, ∃ v, r.pattern.denote ν = some v ∧ (r.action (ν 1) (ν 2) (ν 3)).denote ν = some v

namespace Rules

open Pattern VM

variable (ν : Nat → U256)

theorem denote_A : A.denote ν = some (ν 1) := denote_constant ν 0

theorem denote_B : B.denote ν = some (ν 2) := denote_constant ν 1

theorem denote_C : C.denote ν = some (ν 3) := denote_constant ν 2

theorem denote_X : X.denote ν = some (ν 4) := denote_anything ν 3

theorem denote_Y : Y.denote ν = some (ν 5) := denote_anything ν 4

/-- The value of an instruction for patterns with values. -/
theorem denote_unary {i : Instruction} {f : U256 → U256} (hi : operator i = some (.unary f)) {p : Pattern} {a : U256}
    (hp : p.denote ν = some a) : (op i [p]).denote ν = some (f a) := by
  rw [denote_op ν (by rw [hi]; rfl)]
  simp [hp, arith, hi, Operator.apply]

/-- An operation of two arguments. -/
theorem denote_binary {i : Instruction} {f : U256 → U256 → U256} (hi : operator i = some (.binary f)) {p q : Pattern} {a b : U256}
    (hp : p.denote ν = some a) (hq : q.denote ν = some b) : (op i [p, q]).denote ν = some (f a b) := by
  rw [denote_op ν (by rw [hi]; rfl)]
  simp [hp, hq, arith, hi, Operator.apply]

/-- An operation of three arguments. -/
theorem denote_ternary {i : Instruction} {f : U256 → U256 → U256 → U256} (hi : operator i = some (.ternary f)) {p q r : Pattern}
    {a b c : U256} (hp : p.denote ν = some a) (hq : q.denote ν = some b) (hr : r.denote ν = some c) :
    (op i [p, q, r]).denote ν = some (f a b c) := by
  rw [denote_op ν (by rw [hi]; rfl)]
  simp [hp, hq, hr, arith, hi, Operator.apply]

/-! ## Arithmetics on constants -/

/-- A rule that folds constants is sound if it computes what the instruction computes. -/
theorem sound_unary {i : Instruction} {f : U256 → U256} (hi : operator i = some (.unary f)) {g : U256 → U256 → U256 → U256}
    (h : ∀ a b c, g a b c = f a) : Rule.Sound ⟨op i [A], fun a b c => value (g a b c)⟩ := by
  intro ν
  refine ⟨f (ν 1), denote_unary ν hi (denote_A ν), ?_⟩
  dsimp only
  rw [denote_value, h]

/-- A rule that computes a binary operation is right. -/
theorem sound_binary {i : Instruction} {f : U256 → U256 → U256} (hi : operator i = some (.binary f)) {g : U256 → U256 → U256 → U256}
    (h : ∀ a b c, g a b c = f a b) : Rule.Sound ⟨op i [A, B], fun a b c => value (g a b c)⟩ := by
  intro ν
  refine ⟨f (ν 1) (ν 2), denote_binary ν hi (denote_A ν) (denote_B ν), ?_⟩
  dsimp only
  rw [denote_value, h]

/-- A rule that computes a ternary operation is right. -/
theorem sound_ternary {i : Instruction} {f : U256 → U256 → U256 → U256} (hi : operator i = some (.ternary f))
    {g : U256 → U256 → U256 → U256} (h : ∀ a b c, g a b c = f a b c) :
    Rule.Sound ⟨op i [A, B, C], fun a b c => value (g a b c)⟩ := by
  intro ν
  refine ⟨f (ν 1) (ν 2) (ν 3), denote_ternary ν hi (denote_A ν) (denote_B ν) (denote_C ν), ?_⟩
  dsimp only
  rw [denote_value, h]

/-- The division of the rules is that of the machine. -/
theorem div_eq (a b : U256) :
    (if b = 0 then 0 else BitVec.ofInt 256 (divWorkaround a.toNat b.toNat)) = if b ≠ 0 then a / b else 0 := by
  by_cases hb : b = 0
  · rw [if_pos hb, if_neg (not_not.mpr hb)]
  · rw [if_neg hb, if_pos hb, divWorkaround, ← Int.ofNat_tdiv, BitVec.ofInt_natCast]
    exact BitVec.eq_of_toNat_eq (by rw [BitVec.toNat_udiv, BitVec.toNat_ofNat, Nat.mod_eq_of_lt]; exact (Nat.div_le_self _ _).trans_lt a.isLt)

/-- The remainder of the rules is that of the machine. -/
theorem mod_eq (a b : U256) :
    (if b = 0 then 0 else BitVec.ofInt 256 (modWorkaround a.toNat b.toNat)) = if b ≠ 0 then a % b else 0 := by
  by_cases hb : b = 0
  · rw [if_pos hb, if_neg (not_not.mpr hb)]
  · rw [if_neg hb, if_pos hb, modWorkaround, ← Int.ofNat_tmod, BitVec.ofInt_natCast]
    exact BitVec.eq_of_toNat_eq (by rw [BitVec.toNat_umod, BitVec.toNat_ofNat, Nat.mod_eq_of_lt]; exact (Nat.mod_le _ _).trans_lt a.isLt)

/-- A test for zero can be turned round. -/
theorem ite_zero_comm (b x : U256) : (if b = 0 then 0 else x) = if b ≠ 0 then x else 0 := by
  by_cases hb : b = 0
  · rw [if_pos hb, if_neg (not_not.mpr hb)]
  · rw [if_neg hb, if_pos hb]

/-- A byte behind the end is zero. -/
theorem byte_eq (a x : U256) : (if a ≥ 32 then 0 else x) = if a < 32 then x else 0 := by
  by_cases ha : a < 32
  · rw [if_neg (BitVec.not_le.mpr ha), if_pos ha]
  · rw [if_pos (BitVec.not_lt.mp ha), if_neg ha]

/-- The sign is extended as the machine does it. -/
theorem signExtend_eq (a b : U256) :
    (if a ≥ 31 then b
    else
      let testBit := a.toNat * 8 + 7
      let mask : U256 := (1 <<< testBit) - 1
      if b.getLsbD testBit then b ||| ~~~mask else b &&& mask) = signExtend a b := by
  unfold signExtend
  by_cases ha : a < 31
  · rw [if_neg (BitVec.not_le.mpr ha), if_pos ha]
  · rw [if_pos (BitVec.not_lt.mp ha), if_neg ha]

/-- Folding constants computes what the machine computes. -/
theorem arithmetics_sound : ∀ r ∈ arithmetics.eraseIdx 21, r.Sound := by
  simp only [arithmetics, List.eraseIdx_cons_succ, List.eraseIdx_cons_zero, List.forall_mem_cons]
  refine ⟨?_, ?_, ?_, ?_, ?_, ?_, ?_, ?_, ?_, ?_, ?_, ?_, ?_, ?_, ?_, ?_, ?_, ?_, ?_, ?_, ?_, ?_, nofun⟩
  · exact sound_binary rfl fun a b _ => BitVec.add_comm a b
  · exact sound_binary rfl fun a b _ => BitVec.mul_comm a b
  · exact sound_binary rfl fun _ _ _ => rfl
  · exact sound_binary rfl fun a b _ => div_eq a b
  · exact sound_binary rfl fun a b _ => ite_zero_comm b _
  · exact sound_binary rfl fun a b _ => mod_eq a b
  · exact sound_binary rfl fun a b _ => ite_zero_comm b _
  · exact sound_binary rfl fun _ _ _ => rfl
  · exact sound_unary rfl fun _ _ _ => rfl
  · exact sound_binary rfl fun _ _ _ => rfl
  · exact sound_binary rfl fun _ _ _ => rfl
  · exact sound_binary rfl fun _ _ _ => rfl
  · exact sound_binary rfl fun _ _ _ => rfl
  · exact sound_binary rfl fun _ _ _ => rfl
  · exact sound_unary rfl fun _ _ _ => rfl
  · exact sound_binary rfl fun _ _ _ => rfl
  · exact sound_binary rfl fun _ _ _ => rfl
  · exact sound_binary rfl fun _ _ _ => rfl
  · exact sound_binary rfl fun a b _ => byte_eq a _
  · exact sound_ternary rfl fun a b c => ite_zero_comm c _
  · exact sound_ternary rfl fun a b c => ite_zero_comm c _
  · exact sound_binary rfl fun a b _ => signExtend_eq a b

/-! ## Invariants -/

/-- A signed number divided by one is itself. -/
theorem sdiv_one (x : U256) : s2u ((u2s x).tdiv (u2s 1)) = x := by
  have h : u2s (1 : U256) = 1 := by decide
  rw [h, Int.tdiv_one]
  exact BitVec.ofInt_toInt

/-- Invariants are right. -/
theorem invariants_sound : ∀ r ∈ invariants, r.Sound := by
  have hones : (~~~0 : U256) = BitVec.allOnes 256 := BitVec.not_zero
  have hne : (1 : U256) ≠ 0 := by decide
  have hflag : ∀ {b : Bool}, b = false → (0 : U256) = flag b := by
    rintro _ rfl
    rfl
  simp only [invariants, List.forall_mem_cons]
  refine ⟨?_, ?_, ?_, ?_, ?_, ?_, ?_, ?_, ?_, ?_, ?_, ?_, ?_, ?_, ?_, ?_, ?_, ?_, ?_, ?_, ?_, ?_, ?_, nofun⟩ <;> intro ν
  · exact ⟨_, denote_binary ν rfl (denote_X ν) (denote_value ν 0), (denote_X ν).trans (congrArg some (BitVec.zero_add _).symm)⟩
  · exact ⟨_, denote_binary ν rfl (denote_X ν) (denote_value ν 1), (denote_X ν).trans (congrArg some (BitVec.one_mul _).symm)⟩
  · refine ⟨_, denote_binary ν rfl (denote_X ν) (denote_value ν 1), (denote_X ν).trans (congrArg some ?_)⟩
    rw [if_pos hne]
    exact BitVec.udiv_one.symm
  · refine ⟨_, denote_binary ν rfl (denote_X ν) (denote_value ν 1), (denote_X ν).trans (congrArg some ?_)⟩
    rw [if_pos hne, sdiv_one]
  · exact ⟨_, denote_binary ν rfl (denote_X ν) (denote_value ν 0), (denote_X ν).trans (congrArg some BitVec.or_zero.symm)⟩
  · exact ⟨_, denote_binary ν rfl (denote_X ν) (denote_value ν 0), (denote_X ν).trans (congrArg some BitVec.xor_zero.symm)⟩
  · refine ⟨_, denote_binary ν rfl (denote_X ν) (denote_value ν _), (denote_X ν).trans (congrArg some ?_)⟩
    rw [hones, BitVec.and_allOnes]
  · exact ⟨_, denote_binary ν rfl (denote_X ν) (denote_value ν 0), (denote_value ν 0).trans (congrArg some BitVec.zero_mul.symm)⟩
  · exact ⟨_, denote_binary ν rfl (denote_X ν) (denote_value ν 0), denote_value ν 0⟩
  · exact ⟨_, denote_binary ν rfl (denote_X ν) (denote_value ν 0), denote_value ν 0⟩
  · refine ⟨_, denote_binary ν rfl (denote_value ν 0) (denote_X ν), (denote_value ν 0).trans (congrArg some ?_)⟩
    by_cases hx : ν 4 = 0
    · exact (if_neg (not_not.mpr hx)).symm
    · exact ((if_pos hx).trans BitVec.zero_umod).symm
  · exact ⟨_, denote_binary ν rfl (denote_X ν) (denote_value ν 0), (denote_value ν 0).trans (congrArg some BitVec.and_zero.symm)⟩
  · refine ⟨_, denote_binary ν rfl (denote_X ν) (denote_value ν _), (denote_value ν _).trans (congrArg some ?_)⟩
    rw [hones, BitVec.or_allOnes]
  · exact ⟨_, denote_binary ν rfl (denote_X ν) (denote_X ν), (denote_X ν).trans (congrArg some BitVec.and_self.symm)⟩
  · exact ⟨_, denote_binary ν rfl (denote_X ν) (denote_X ν), (denote_X ν).trans (congrArg some BitVec.or_self.symm)⟩
  · exact ⟨_, denote_binary ν rfl (denote_X ν) (denote_X ν), (denote_value ν 0).trans (congrArg some (BitVec.sub_self _).symm)⟩
  · refine ⟨_, denote_binary ν rfl (denote_X ν) (denote_X ν), (denote_value ν 1).trans (congrArg some ?_)⟩
    rw [decide_eq_true rfl]
    rfl
  · exact ⟨_, denote_binary ν rfl (denote_X ν) (denote_X ν),
      (denote_value ν 0).trans (congrArg some (hflag (decide_eq_false (BitVec.lt_irrefl _))))⟩
  · exact ⟨_, denote_binary ν rfl (denote_X ν) (denote_X ν),
      (denote_value ν 0).trans (congrArg some (hflag (decide_eq_false (lt_irrefl _))))⟩
  · exact ⟨_, denote_binary ν rfl (denote_X ν) (denote_X ν),
      (denote_value ν 0).trans (congrArg some (hflag (decide_eq_false (BitVec.lt_irrefl _))))⟩
  · exact ⟨_, denote_binary ν rfl (denote_X ν) (denote_X ν),
      (denote_value ν 0).trans (congrArg some (hflag (decide_eq_false (lt_irrefl _))))⟩
  · refine ⟨_, denote_binary ν rfl (denote_X ν) (denote_X ν), (denote_value ν 0).trans (congrArg some ?_)⟩
    rw [BitVec.umod_self]
    exact (ite_self _).symm
  · exact ⟨_, denote_unary ν rfl (denote_unary ν rfl (denote_X ν)), (denote_X ν).trans (congrArg some BitVec.not_not.symm)⟩

/-! ## Double negation -/

/-- Twice `ISZERO` keeps the value of a condition. -/
theorem iszero_iszero_flag (b : Bool) : flag (decide (flag (decide (flag b = 0)) = 0)) = flag b := by
  cases b <;> rfl

/-- Three negations are one. -/
theorem iszero_thrice (x : U256) :
    flag (decide (flag (decide (flag (decide (x = 0)) = 0)) = 0)) = flag (decide (x = 0)) := iszero_iszero_flag _

/-- Double negations are right. -/
theorem doubleNegation_sound : ∀ r ∈ doubleNegation, r.Sound := by
  simp only [doubleNegation, List.map_cons, List.map_nil, List.cons_append, List.nil_append, List.forall_mem_cons]
  have hcondition : ∀ {o : Instruction} {r : U256 → U256 → Bool}, operator o = some (.binary fun a b => flag (r a b)) →
      Rule.Sound ⟨op .ISZERO [op .ISZERO [op o [X, Y]]], fun _ _ _ => op o [X, Y]⟩ := by
    intro o r ho ν
    have hxy := denote_binary ν ho (denote_X ν) (denote_Y ν)
    exact ⟨_, denote_unary ν rfl (denote_unary ν rfl hxy), hxy.trans (congrArg some (iszero_iszero_flag _).symm)⟩
  refine ⟨hcondition rfl, hcondition rfl, hcondition rfl, hcondition rfl, hcondition rfl, fun ν => ?_, nofun⟩
  have hx := denote_unary (i := .ISZERO) ν rfl (denote_X ν)
  exact ⟨_, denote_unary ν rfl (denote_unary ν rfl hx), hx.trans (congrArg some (iszero_thrice _).symm)⟩

/-! ## Moving constants -/

/-- The rules of an operation are sound if it is associative and commutative. -/
theorem associativeOperation_sound {o : Instruction} {f : U256 → U256 → U256} (ho : operator o = some (.binary fun a b => f b a))
    (hassoc : ∀ a b c, f (f a b) c = f a (f b c)) (hcomm : ∀ a b, f a b = f b a) : ∀ r ∈ associativeOperation o f, r.Sound := by
  simp only [associativeOperation, List.forall_mem_cons]
  refine ⟨fun ν => ?_, fun ν => ?_, fun ν => ?_, fun ν => ?_, nofun⟩
  · refine ⟨_, denote_binary ν ho (denote_binary ν ho (denote_X ν) (denote_A ν)) (denote_B ν), ?_⟩
    rw [denote_binary ν ho (denote_X ν) (denote_value ν _), hcomm (ν 1) (ν 2), hassoc]
  · refine ⟨_, denote_binary ν ho (denote_binary ν ho (denote_X ν) (denote_A ν)) (denote_Y ν), ?_⟩
    rw [denote_binary ν ho (denote_binary ν ho (denote_X ν) (denote_Y ν)) (denote_A ν), ← hassoc, ← hassoc, hcomm (ν 1) (ν 5)]
  · refine ⟨_, denote_binary ν ho (denote_binary ν ho (denote_A ν) (denote_X ν)) (denote_B ν), ?_⟩
    rw [denote_binary ν ho (denote_X ν) (denote_value ν _), hcomm (ν 4) (ν 1), ← hassoc, hcomm (ν 2) (ν 1)]
  · refine ⟨_, denote_binary ν ho (denote_binary ν ho (denote_A ν) (denote_X ν)) (denote_Y ν), ?_⟩
    rw [denote_binary ν ho (denote_binary ν ho (denote_X ν) (denote_Y ν)) (denote_A ν), hcomm (ν 1), hassoc]

/-- Rules for associative operations are right. -/
theorem associativeOperations_sound : ∀ r ∈ associativeOperations, r.Sound := by
  simp only [associativeOperations, List.flatMap_cons, List.flatMap_nil, List.append_nil, List.forall_mem_append]
  refine ⟨?_, ?_, ?_, ?_, ?_⟩
  · exact associativeOperation_sound rfl BitVec.add_assoc BitVec.add_comm
  · exact associativeOperation_sound rfl BitVec.mul_assoc BitVec.mul_comm
  · refine associativeOperation_sound (congrArg some (congrArg Operator.binary ?_)) BitVec.and_assoc BitVec.and_comm
    funext a b
    exact BitVec.and_comm a b
  · refine associativeOperation_sound (congrArg some (congrArg Operator.binary ?_)) BitVec.or_assoc BitVec.or_comm
    funext a b
    exact BitVec.or_comm a b
  · refine associativeOperation_sound (congrArg some (congrArg Operator.binary ?_)) BitVec.xor_assoc BitVec.xor_comm
    funext a b
    exact BitVec.xor_comm a b

/-- Rules for differences are right. -/
theorem subtractions_sound : ∀ r ∈ subtractions, r.Sound := by
  simp only [subtractions, List.forall_mem_cons]
  refine ⟨fun ν => ?_, fun ν => ?_, fun ν => ?_, fun ν => ?_, fun ν => ?_, nofun⟩
  · refine ⟨_, denote_binary ν rfl (denote_X ν) (denote_A ν), ?_⟩
    rw [denote_binary ν rfl (denote_X ν) (denote_value ν _)]
    ring_nf
  · refine ⟨_, denote_binary ν rfl (denote_binary ν rfl (denote_X ν) (denote_A ν)) (denote_Y ν), ?_⟩
    rw [denote_binary ν rfl (denote_binary ν rfl (denote_X ν) (denote_Y ν)) (denote_A ν)]
    ring_nf
  · refine ⟨_, denote_binary ν rfl (denote_binary ν rfl (denote_A ν) (denote_X ν)) (denote_Y ν), ?_⟩
    rw [denote_binary ν rfl (denote_binary ν rfl (denote_X ν) (denote_Y ν)) (denote_A ν)]
    ring_nf
  · refine ⟨_, denote_binary ν rfl (denote_X ν) (denote_binary ν rfl (denote_Y ν) (denote_A ν)), ?_⟩
    rw [denote_binary ν rfl (denote_binary ν rfl (denote_X ν) (denote_Y ν)) (denote_value ν _)]
    ring_nf
  · refine ⟨_, denote_binary ν rfl (denote_X ν) (denote_binary ν rfl (denote_A ν) (denote_Y ν)), ?_⟩
    rw [denote_binary ν rfl (denote_binary ν rfl (denote_X ν) (denote_Y ν)) (denote_value ν _)]
    ring_nf

end Rules

end Webthree
