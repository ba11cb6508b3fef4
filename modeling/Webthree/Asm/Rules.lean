import Webthree.Asm.AssemblyItem

/-!
# Simplification rules

`Pattern` and `Rules`: what an expression is matched against and what it is replaced by. The action of a rule is a function of the
data that the constants of its pattern are matched with.
-/

namespace Webthree

/-- Pattern to match against an expression. The match group 0 stands for none. -/
structure Pattern where
  m_type : AssemblyItemType
  m_requireDataMatch : Bool
  m_data : U256
  byte : m_type = .Operation → m_data.toNat < 256
  m_arguments : List Pattern
  m_matchGroup : Nat

namespace Pattern

theorem push_byte (v : U256) : AssemblyItemType.Push = .Operation → v.toNat < 256 := fun h => by cases h

/-- Matches a specific constant value. -/
def value (v : U256) : Pattern := ⟨.Push, true, v, push_byte v, [], 0⟩

/-- Matches a given instruction with given arguments. -/
def op (i : Instruction) (args : List Pattern) : Pattern :=
  ⟨.Operation, true, (AssemblyItem.ofInstruction i).data, (AssemblyItem.ofInstruction i).byte, args, 0⟩

/-- Matches a constant, as part of a match group. -/
def constant (group : Nat) : Pattern := ⟨.Push, false, 0, nofun, [], group⟩

/-- Matches anything, as part of a match group. -/
def anything (group : Nat) : Pattern := ⟨.UndefinedItem, false, 0, nofun, [], group⟩

def toAssemblyItem (p : Pattern) : AssemblyItem := ⟨p.m_type, p.m_data, p.byte⟩

def matchesBaseItem (p : Pattern) (item : AssemblyItem) : Bool :=
  if p.m_type = .UndefinedItem then true
  else if p.m_type ≠ item.type then false
  else if p.m_requireDataMatch ∧ p.m_data ≠ item.data then false
  else true

end Pattern

/-- A pattern, and what is made of the data of `A`, `B` and `C`. -/
structure Rule where
  pattern : Pattern
  action : U256 → U256 → U256 → Pattern

namespace Rules

open Pattern

def A : Pattern := constant 1
def B : Pattern := constant 2
def C : Pattern := constant 3
def X : Pattern := anything 4
def Y : Pattern := anything 5
def Z : Pattern := anything 6

def divWorkaround (a b : Int) : Int := a.tdiv b

def modWorkaround (a b : Int) : Int := a.tmod b

/-- A condition as a value. -/
def bool (b : Bool) : U256 := if b then 1 else 0

/-- Arithmetics on constants. -/
def arithmetics : List Rule := [
  ⟨op .ADD [A, B], fun a b _ => value (a + b)⟩,
  ⟨op .MUL [A, B], fun a b _ => value (a * b)⟩,
  ⟨op .SUB [A, B], fun a b _ => value (a - b)⟩,
  ⟨op .DIV [A, B], fun a b _ => value (if b = 0 then 0 else BitVec.ofInt 256 (divWorkaround a.toNat b.toNat))⟩,
  ⟨op .SDIV [A, B], fun a b _ => value (if b = 0 then 0 else s2u (divWorkaround (u2s a) (u2s b)))⟩,
  ⟨op .MOD [A, B], fun a b _ => value (if b = 0 then 0 else BitVec.ofInt 256 (modWorkaround a.toNat b.toNat))⟩,
  ⟨op .SMOD [A, B], fun a b _ => value (if b = 0 then 0 else s2u (modWorkaround (u2s a) (u2s b)))⟩,
  ⟨op .EXP [A, B], fun a b _ => value (BitVec.ofNat 256 (powm a.toNat b.toNat (1 <<< 256)))⟩,
  ⟨op .NOT [A], fun a _ _ => value (~~~a)⟩,
  ⟨op .LT [A, B], fun a b _ => value (bool (a < b))⟩,
  ⟨op .GT [A, B], fun a b _ => value (bool (a > b))⟩,
  ⟨op .SLT [A, B], fun a b _ => value (bool (u2s a < u2s b))⟩,
  ⟨op .SGT [A, B], fun a b _ => value (bool (u2s a > u2s b))⟩,
  ⟨op .EQ [A, B], fun a b _ => value (bool (a = b))⟩,
  ⟨op .ISZERO [A], fun a _ _ => value (bool (a = 0))⟩,
  ⟨op .AND [A, B], fun a b _ => value (a &&& b)⟩,
  ⟨op .OR [A, B], fun a b _ => value (a ||| b)⟩,
  ⟨op .XOR [A, B], fun a b _ => value (a ^^^ b)⟩,
  ⟨op .BYTE [A, B], fun a b _ => value (if a ≥ 32 then 0 else (b >>> (8 * (31 - a.toNat))) &&& 0xff)⟩,
  ⟨op .ADDMOD [A, B, C], fun a b c => value (if c = 0 then 0 else BitVec.ofNat 256 ((a.toNat + b.toNat) % c.toNat))⟩,
  ⟨op .MULMOD [A, B, C], fun a b c => value (if c = 0 then 0 else BitVec.ofNat 256 ((a.toNat * b.toNat) % c.toNat))⟩,
  ⟨op .MULMOD [A, B, C], fun a b _ => value (a * b)⟩,
  ⟨op .SIGNEXTEND [A, B], fun a b _ => value <|
    if a ≥ 31 then b
    else
      let testBit := a.toNat * 8 + 7
      let mask : U256 := (1 <<< testBit) - 1
      if b.getLsbD testBit then b ||| ~~~mask else b &&& mask⟩]

/-- Invariants involving known constants, and operations involving an expression and itself. -/
def invariants : List Rule := [
  ⟨op .ADD [X, value 0], fun _ _ _ => X⟩,
  ⟨op .MUL [X, value 1], fun _ _ _ => X⟩,
  ⟨op .DIV [X, value 1], fun _ _ _ => X⟩,
  ⟨op .SDIV [X, value 1], fun _ _ _ => X⟩,
  ⟨op .OR [X, value 0], fun _ _ _ => X⟩,
  ⟨op .XOR [X, value 0], fun _ _ _ => X⟩,
  ⟨op .AND [X, value (~~~0)], fun _ _ _ => X⟩,
  ⟨op .MUL [X, value 0], fun _ _ _ => value 0⟩,
  ⟨op .DIV [X, value 0], fun _ _ _ => value 0⟩,
  ⟨op .MOD [X, value 0], fun _ _ _ => value 0⟩,
  ⟨op .MOD [value 0, X], fun _ _ _ => value 0⟩,
  ⟨op .AND [X, value 0], fun _ _ _ => value 0⟩,
  ⟨op .OR [X, value (~~~0)], fun _ _ _ => value (~~~0)⟩,
  ⟨op .AND [X, X], fun _ _ _ => X⟩,
  ⟨op .OR [X, X], fun _ _ _ => X⟩,
  ⟨op .SUB [X, X], fun _ _ _ => value 0⟩,
  ⟨op .EQ [X, X], fun _ _ _ => value 1⟩,
  ⟨op .LT [X, X], fun _ _ _ => value 0⟩,
  ⟨op .SLT [X, X], fun _ _ _ => value 0⟩,
  ⟨op .GT [X, X], fun _ _ _ => value 0⟩,
  ⟨op .SGT [X, X], fun _ _ _ => value 0⟩,
  ⟨op .MOD [X, X], fun _ _ _ => value 0⟩,
  ⟨op .NOT [op .NOT [X]], fun _ _ _ => X⟩]

/-- Double negation of opcodes with binary result. -/
def doubleNegation : List Rule :=
  ([.EQ, .LT, .SLT, .GT, .SGT] : List Instruction).map (fun o =>
    ⟨op .ISZERO [op .ISZERO [op o [X, Y]]], fun _ _ _ => op o [X, Y]⟩) ++
  [⟨op .ISZERO [op .ISZERO [op .ISZERO [X]]], fun _ _ _ => op .ISZERO [X]⟩]

/-- Moving constants to the outside, order matters here! -/
def associativeOperation (o : Instruction) (f : U256 → U256 → U256) : List Rule := [
  -- (X+A)+B -> X+(A+B)
  ⟨op o [op o [X, A], B], fun a b _ => op o [X, value (f a b)]⟩,
  -- X+(Y+A) -> (X+Y)+A
  ⟨op o [op o [X, A], Y], fun _ _ _ => op o [op o [X, Y], A]⟩,
  -- For now, we still need explicit commutativity for the inner pattern
  ⟨op o [op o [A, X], B], fun a b _ => op o [X, value (f a b)]⟩,
  ⟨op o [op o [A, X], Y], fun _ _ _ => op o [op o [X, Y], A]⟩]

def associativeOperations : List Rule :=
  ([(.ADD, (· + ·)), (.MUL, (· * ·)), (.AND, (· &&& ·)), (.OR, (· ||| ·)), (.XOR, (· ^^^ ·))] :
    List (Instruction × (U256 → U256 → U256))).flatMap fun opFun => associativeOperation opFun.1 opFun.2

/-- Move constants across subtractions. -/
def subtractions : List Rule := [
  -- X - A -> X + (-A)
  ⟨op .SUB [X, A], fun a _ _ => op .ADD [X, value (0 - a)]⟩,
  -- (X + A) - Y -> (X - Y) + A
  ⟨op .SUB [op .ADD [X, A], Y], fun _ _ _ => op .ADD [op .SUB [X, Y], A]⟩,
  -- (A + X) - Y -> (X - Y) + A
  ⟨op .SUB [op .ADD [A, X], Y], fun _ _ _ => op .ADD [op .SUB [X, Y], A]⟩,
  -- X - (Y + A) -> (X - Y) + (-A)
  ⟨op .SUB [X, op .ADD [Y, A]], fun a _ _ => op .ADD [op .SUB [X, Y], value (0 - a)]⟩,
  -- X - (A + Y) -> (X - Y) + (-A)
  ⟨op .SUB [X, op .ADD [A, Y]], fun a _ _ => op .ADD [op .SUB [X, Y], value (0 - a)]⟩]

def rules : List Rule := arithmetics ++ invariants ++ doubleNegation ++ associativeOperations ++ subtractions

end Rules

end Webthree
