import Webthree.Evm.Vm

/-!
# The values of arithmetic instructions

What the arithmetic, comparison and bit instructions make of their arguments, the top of the stack first, and that this is what the
interpreter leaves on the stack.
-/

namespace Webthree

/-- What an instruction does with the arguments on the top of the stack. -/
inductive Operator where
  | unary (f : U256 → U256)
  | binary (f : U256 → U256 → U256)
  | ternary (f : U256 → U256 → U256 → U256)

namespace Operator

/-- How many arguments it takes. -/
def arity : Operator → Nat
  | .unary _ => 1
  | .binary _ => 2
  | .ternary _ => 3

/-- The value for so many arguments. -/
def apply : Operator → List U256 → Option U256
  | .unary f, [a] => some (f a)
  | .binary f, [a, b] => some (f a b)
  | .ternary f, [a, b, c] => some (f a b c)
  | _, _ => none

/-- The same on the stack. -/
def run {σ : Type} : Operator → VM.M σ Unit
  | .unary f => VM.unary f
  | .binary f => VM.binary f
  | .ternary f => VM.ternary f

end Operator

open VM in
/-- The arithmetic, comparison and bit instructions. -/
def operator : Instruction → Option Operator
  | .ADD => some (.binary fun a b => b + a)
  | .MUL => some (.binary fun a b => b * a)
  | .SUB => some (.binary fun a b => a - b)
  | .DIV => some (.binary fun a b => if b ≠ 0 then a / b else 0)
  | .SDIV => some (.binary fun a b => if b ≠ 0 then s2u ((u2s a).tdiv (u2s b)) else 0)
  | .MOD => some (.binary fun a b => if b ≠ 0 then a % b else 0)
  | .SMOD => some (.binary fun a b => if b ≠ 0 then s2u ((u2s a).tmod (u2s b)) else 0)
  | .EXP => some (.binary fun a b => BitVec.ofNat 256 (powm a.toNat b.toNat (2 ^ 256)))
  | .NOT => some (.unary fun a => ~~~a)
  | .LT => some (.binary fun a b => flag (a < b))
  | .GT => some (.binary fun a b => flag (a > b))
  | .SLT => some (.binary fun a b => flag (u2s a < u2s b))
  | .SGT => some (.binary fun a b => flag (u2s a > u2s b))
  | .EQ => some (.binary fun a b => flag (a = b))
  | .ISZERO => some (.unary fun a => flag (a = 0))
  | .AND => some (.binary fun a b => a &&& b)
  | .OR => some (.binary fun a b => a ||| b)
  | .XOR => some (.binary fun a b => a ^^^ b)
  | .BYTE => some (.binary fun a b => if a < 32 then (b >>> (8 * (31 - a.toNat))) &&& 0xff else 0)
  | .ADDMOD => some (.ternary fun a b c => if c ≠ 0 then BitVec.ofNat 256 ((a.toNat + b.toNat) % c.toNat) else 0)
  | .MULMOD => some (.ternary fun a b c => if c ≠ 0 then BitVec.ofNat 256 (a.toNat * b.toNat % c.toNat) else 0)
  | .SIGNEXTEND => some (.binary signExtend)
  | _ => none

/-- The value of an instruction for so many arguments. -/
def arith (i : Instruction) (args : List U256) : Option U256 := (operator i).bind fun o => o.apply args

namespace VM

variable {σ : Type}

theorem exec_of_operator (F : ExtVMFace σ) {i : Instruction} {o : Operator} (h : operator i = some o) (s : Frame σ) :
    execOrdinaryOpcode F i s = (do o.run; pure (s.m_curPC + 1) : M σ Nat) s := by
  cases i <;> cases h <;> rfl

/-- The interpreter takes the arguments off the stack and leaves the value there. -/
theorem exec_arith (F : ExtVMFace σ) {i : Instruction} {args : List U256} {v : U256} (h : arith i args = some v) {s : Frame σ}
    {rest : List U256} (hs : s.m_stack = args ++ rest) :
    execOrdinaryOpcode F i s = .ok (s.m_curPC + 1) { s with m_stack := v :: rest } := by
  obtain ⟨o, ho, hv⟩ := Option.bind_eq_some_iff.mp h
  rw [exec_of_operator F ho]
  obtain ⟨pc, temp, stack, dests, gas, ext, touched⟩ := s
  dsimp only at hs
  cases o with
  | unary f =>
    match args, hv with
    | [a], hv =>
      cases hv
      rw [hs]
      rfl
  | binary f =>
    match args, hv with
    | [a, b], hv =>
      cases hv
      rw [hs]
      rfl
  | ternary f =>
    match args, hv with
    | [a, b, c], hv =>
      cases hv
      rw [hs]
      rfl

end VM

end Webthree
