import Mathlib.Data.Fin.VecNotation
import Webthree.Common

/-!
# The gas schedule and the instructions

`EVMSchedule`, `Instruction`, a byte of code, and `c_instructionInfo`, what the table says of each of them.
-/

namespace Webthree

/-! ## The gas schedule -/

/-- `EVMSchedule` -/
structure EVMSchedule where
  exceptionalFailedCodeDeposit : Bool := true
  haveDelegateCall : Bool := true
  stackLimit : U256 := 1024
  tierStepGas : Fin 8 → U256 := ![0, 2, 3, 5, 8, 10, 20, 0]
  expGas : U256 := 10
  expByteGas : U256 := 10
  sha3Gas : U256 := 30
  sha3WordGas : U256 := 6
  sloadGas : U256 := 50
  sstoreSetGas : U256 := 20000
  sstoreResetGas : U256 := 5000
  sstoreRefundGas : U256 := 15000
  jumpdestGas : U256 := 1
  logGas : U256 := 375
  logDataGas : U256 := 8
  logTopicGas : U256 := 375
  createGas : U256 := 32000
  callGas : U256 := 40
  callStipend : U256 := 2300
  callValueTransferGas : U256 := 9000
  callNewAccountGas : U256 := 25000
  suicideRefundGas : U256 := 24000
  memoryGas : U256 := 3
  quadCoeffDiv : U256 := 512
  createDataGas : U256 := 200
  txGas : U256 := 21000
  txCreateGas : U256 := 53000
  txDataZeroGas : U256 := 4
  txDataNonZeroGas : U256 := 68
  copyGas : U256 := 3

namespace EVMSchedule

/-- The constructor with the three values that schedules differ in. -/
def ofFlags (efcd hdc : Bool) (txCreateGas : U256) : EVMSchedule :=
  { exceptionalFailedCodeDeposit := efcd, haveDelegateCall := hdc, txCreateGas := txCreateGas }

/-- `DefaultSchedule` -/
def DefaultSchedule : EVMSchedule := {}
/-- `FrontierSchedule` -/
def FrontierSchedule : EVMSchedule := ofFlags false false 21000
/-- `HomesteadSchedule` -/
def HomesteadSchedule : EVMSchedule := ofFlags true true 53000

end EVMSchedule

/-! ## Instructions -/

/-- `Instruction`. The families have a number, counted from zero; a byte that is in no case of the enumeration is `INVALID`. -/
inductive Instruction where
  | STOP | ADD | MUL | SUB | DIV | SDIV | MOD | SMOD | ADDMOD | MULMOD
  | EXP | SIGNEXTEND | LT | GT | SLT | SGT | EQ | ISZERO | AND | OR
  | XOR | NOT | BYTE | SHA3 | ADDRESS | BALANCE | ORIGIN | CALLER | CALLVALUE | CALLDATALOAD
  | CALLDATASIZE | CALLDATACOPY | CODESIZE | CODECOPY | GASPRICE | EXTCODESIZE | EXTCODECOPY | BLOCKHASH | COINBASE | TIMESTAMP
  | NUMBER | DIFFICULTY | GASLIMIT | POP | MLOAD | MSTORE | MSTORE8 | SLOAD | SSTORE | JUMP
  | JUMPI | PC | MSIZE | GAS | JUMPDEST | CREATE | CALL | CALLCODE | RETURN | DELEGATECALL
  | SUICIDE
  | PUSH (n : Fin 32)
  | DUP (n : Fin 16)
  | SWAP (n : Fin 16)
  | LOG (n : Fin 5)
  | INVALID (b : UInt8)
deriving DecidableEq, Repr

namespace Instruction

/-- `(Instruction)b`, one byte of code. -/
def ofByte (b : UInt8) : Instruction :=
  match b.toNat with
  | 0x00 => .STOP
  | 0x01 => .ADD
  | 0x02 => .MUL
  | 0x03 => .SUB
  | 0x04 => .DIV
  | 0x05 => .SDIV
  | 0x06 => .MOD
  | 0x07 => .SMOD
  | 0x08 => .ADDMOD
  | 0x09 => .MULMOD
  | 0x0a => .EXP
  | 0x0b => .SIGNEXTEND
  | 0x10 => .LT
  | 0x11 => .GT
  | 0x12 => .SLT
  | 0x13 => .SGT
  | 0x14 => .EQ
  | 0x15 => .ISZERO
  | 0x16 => .AND
  | 0x17 => .OR
  | 0x18 => .XOR
  | 0x19 => .NOT
  | 0x1a => .BYTE
  | 0x20 => .SHA3
  | 0x30 => .ADDRESS
  | 0x31 => .BALANCE
  | 0x32 => .ORIGIN
  | 0x33 => .CALLER
  | 0x34 => .CALLVALUE
  | 0x35 => .CALLDATALOAD
  | 0x36 => .CALLDATASIZE
  | 0x37 => .CALLDATACOPY
  | 0x38 => .CODESIZE
  | 0x39 => .CODECOPY
  | 0x3a => .GASPRICE
  | 0x3b => .EXTCODESIZE
  | 0x3c => .EXTCODECOPY
  | 0x40 => .BLOCKHASH
  | 0x41 => .COINBASE
  | 0x42 => .TIMESTAMP
  | 0x43 => .NUMBER
  | 0x44 => .DIFFICULTY
  | 0x45 => .GASLIMIT
  | 0x50 => .POP
  | 0x51 => .MLOAD
  | 0x52 => .MSTORE
  | 0x53 => .MSTORE8
  | 0x54 => .SLOAD
  | 0x55 => .SSTORE
  | 0x56 => .JUMP
  | 0x57 => .JUMPI
  | 0x58 => .PC
  | 0x59 => .MSIZE
  | 0x5a => .GAS
  | 0x5b => .JUMPDEST
  | 0xf0 => .CREATE
  | 0xf1 => .CALL
  | 0xf2 => .CALLCODE
  | 0xf3 => .RETURN
  | 0xf4 => .DELEGATECALL
  | 0xff => .SUICIDE
  | n =>
    if h : 0x60 ≤ n ∧ n ≤ 0x7f then .PUSH ⟨n - 0x60, by omega⟩
    else if h : 0x80 ≤ n ∧ n ≤ 0x8f then .DUP ⟨n - 0x80, by omega⟩
    else if h : 0x90 ≤ n ∧ n ≤ 0x9f then .SWAP ⟨n - 0x90, by omega⟩
    else if h : 0xa0 ≤ n ∧ n ≤ 0xa4 then .LOG ⟨n - 0xa0, by omega⟩
    else .INVALID b

end Instruction

/-- `Tier` -/
inductive Tier where
  | ZeroTier | BaseTier | VeryLowTier | LowTier | MidTier | HighTier | ExtTier | SpecialTier | InvalidTier
deriving DecidableEq, Repr

/-- The place of a tier in `tierStepGas`, which has none for `InvalidTier`. -/
def Tier.index : Tier → Option (Fin 8)
  | .ZeroTier => some 0
  | .BaseTier => some 1
  | .VeryLowTier => some 2
  | .LowTier => some 3
  | .MidTier => some 4
  | .HighTier => some 5
  | .ExtTier => some 6
  | .SpecialTier => some 7
  | .InvalidTier => none

/-- `InstructionInfo`, what the machine reads of it. -/
structure InstructionInfo where
  args : Nat
  ret : Nat
  gasPriceTier : Tier
deriving DecidableEq, Repr

/-- `c_instructionInfo`, and `instructionInfo` of what is not in it. -/
def instructionInfo : Instruction → InstructionInfo
  | .STOP => ⟨0, 0, .ZeroTier⟩
  | .ADD => ⟨2, 1, .VeryLowTier⟩
  | .MUL => ⟨2, 1, .LowTier⟩
  | .SUB => ⟨2, 1, .VeryLowTier⟩
  | .DIV => ⟨2, 1, .LowTier⟩
  | .SDIV => ⟨2, 1, .LowTier⟩
  | .MOD => ⟨2, 1, .LowTier⟩
  | .SMOD => ⟨2, 1, .LowTier⟩
  | .ADDMOD => ⟨3, 1, .MidTier⟩
  | .MULMOD => ⟨3, 1, .MidTier⟩
  | .EXP => ⟨2, 1, .SpecialTier⟩
  | .SIGNEXTEND => ⟨2, 1, .LowTier⟩
  | .LT => ⟨2, 1, .VeryLowTier⟩
  | .GT => ⟨2, 1, .VeryLowTier⟩
  | .SLT => ⟨2, 1, .VeryLowTier⟩
  | .SGT => ⟨2, 1, .VeryLowTier⟩
  | .EQ => ⟨2, 1, .VeryLowTier⟩
  | .ISZERO => ⟨1, 1, .VeryLowTier⟩
  | .AND => ⟨2, 1, .VeryLowTier⟩
  | .OR => ⟨2, 1, .VeryLowTier⟩
  | .XOR => ⟨2, 1, .VeryLowTier⟩
  | .NOT => ⟨1, 1, .VeryLowTier⟩
  | .BYTE => ⟨2, 1, .VeryLowTier⟩
  | .SHA3 => ⟨2, 1, .SpecialTier⟩
  | .ADDRESS => ⟨0, 1, .BaseTier⟩
  | .BALANCE => ⟨1, 1, .ExtTier⟩
  | .ORIGIN => ⟨0, 1, .BaseTier⟩
  | .CALLER => ⟨0, 1, .BaseTier⟩
  | .CALLVALUE => ⟨0, 1, .BaseTier⟩
  | .CALLDATALOAD => ⟨1, 1, .VeryLowTier⟩
  | .CALLDATASIZE => ⟨0, 1, .BaseTier⟩
  | .CALLDATACOPY => ⟨3, 0, .VeryLowTier⟩
  | .CODESIZE => ⟨0, 1, .BaseTier⟩
  | .CODECOPY => ⟨3, 0, .VeryLowTier⟩
  | .GASPRICE => ⟨0, 1, .BaseTier⟩
  | .EXTCODESIZE => ⟨1, 1, .ExtTier⟩
  | .EXTCODECOPY => ⟨4, 0, .ExtTier⟩
  | .BLOCKHASH => ⟨1, 1, .ExtTier⟩
  | .COINBASE => ⟨0, 1, .BaseTier⟩
  | .TIMESTAMP => ⟨0, 1, .BaseTier⟩
  | .NUMBER => ⟨0, 1, .BaseTier⟩
  | .DIFFICULTY => ⟨0, 1, .BaseTier⟩
  | .GASLIMIT => ⟨0, 1, .BaseTier⟩
  | .POP => ⟨1, 0, .BaseTier⟩
  | .MLOAD => ⟨1, 1, .VeryLowTier⟩
  | .MSTORE => ⟨2, 0, .VeryLowTier⟩
  | .MSTORE8 => ⟨2, 0, .VeryLowTier⟩
  | .SLOAD => ⟨1, 1, .SpecialTier⟩
  | .SSTORE => ⟨2, 0, .SpecialTier⟩
  | .JUMP => ⟨1, 0, .MidTier⟩
  | .JUMPI => ⟨2, 0, .HighTier⟩
  | .PC => ⟨0, 1, .BaseTier⟩
  | .MSIZE => ⟨0, 1, .BaseTier⟩
  | .GAS => ⟨0, 1, .BaseTier⟩
  | .JUMPDEST => ⟨0, 0, .SpecialTier⟩
  | .CREATE => ⟨3, 1, .SpecialTier⟩
  | .CALL => ⟨7, 1, .SpecialTier⟩
  | .CALLCODE => ⟨7, 1, .SpecialTier⟩
  | .RETURN => ⟨2, 0, .ZeroTier⟩
  | .DELEGATECALL => ⟨6, 1, .SpecialTier⟩
  | .SUICIDE => ⟨1, 0, .ZeroTier⟩
  | .PUSH _ => ⟨0, 1, .VeryLowTier⟩
  | .DUP n => ⟨n + 1, n + 2, .VeryLowTier⟩
  | .SWAP n => ⟨n + 2, n + 2, .VeryLowTier⟩
  | .LOG n => ⟨n + 2, 0, .SpecialTier⟩
  | .INVALID _ => ⟨0, 0, .InvalidTier⟩

end Webthree
