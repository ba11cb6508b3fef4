import Webthree.Evm.Instruction

/-!
# Assembly items

`AssemblyItem`, and what `SemanticInformation` says about items. An item is what its type and its data are: its location, the type of
its jump and the value that assembling finds for it are left out. `libevmasm` has the same table of instructions as the machine.
-/

namespace Webthree

namespace Instruction

/-- The byte of an instruction. -/
def toByte : Instruction → UInt8
  | .STOP => 0x00
  | .ADD => 0x01
  | .MUL => 0x02
  | .SUB => 0x03
  | .DIV => 0x04
  | .SDIV => 0x05
  | .MOD => 0x06
  | .SMOD => 0x07
  | .ADDMOD => 0x08
  | .MULMOD => 0x09
  | .EXP => 0x0a
  | .SIGNEXTEND => 0x0b
  | .LT => 0x10
  | .GT => 0x11
  | .SLT => 0x12
  | .SGT => 0x13
  | .EQ => 0x14
  | .ISZERO => 0x15
  | .AND => 0x16
  | .OR => 0x17
  | .XOR => 0x18
  | .NOT => 0x19
  | .BYTE => 0x1a
  | .SHA3 => 0x20
  | .ADDRESS => 0x30
  | .BALANCE => 0x31
  | .ORIGIN => 0x32
  | .CALLER => 0x33
  | .CALLVALUE => 0x34
  | .CALLDATALOAD => 0x35
  | .CALLDATASIZE => 0x36
  | .CALLDATACOPY => 0x37
  | .CODESIZE => 0x38
  | .CODECOPY => 0x39
  | .GASPRICE => 0x3a
  | .EXTCODESIZE => 0x3b
  | .EXTCODECOPY => 0x3c
  | .BLOCKHASH => 0x40
  | .COINBASE => 0x41
  | .TIMESTAMP => 0x42
  | .NUMBER => 0x43
  | .DIFFICULTY => 0x44
  | .GASLIMIT => 0x45
  | .POP => 0x50
  | .MLOAD => 0x51
  | .MSTORE => 0x52
  | .MSTORE8 => 0x53
  | .SLOAD => 0x54
  | .SSTORE => 0x55
  | .JUMP => 0x56
  | .JUMPI => 0x57
  | .PC => 0x58
  | .MSIZE => 0x59
  | .GAS => 0x5a
  | .JUMPDEST => 0x5b
  | .CREATE => 0xf0
  | .CALL => 0xf1
  | .CALLCODE => 0xf2
  | .RETURN => 0xf3
  | .DELEGATECALL => 0xf4
  | .SUICIDE => 0xff
  | .PUSH n => 0x60 + UInt8.ofNat n
  | .DUP n => 0x80 + UInt8.ofNat n
  | .SWAP n => 0x90 + UInt8.ofNat n
  | .LOG n => 0xa0 + UInt8.ofNat n
  | .INVALID b => b

/-- `InstructionInfo::sideEffects`: whether the instruction has an effect besides that on the stack. -/
def sideEffects : Instruction → Bool
  | .STOP | .CALLDATACOPY | .CODECOPY | .EXTCODECOPY | .MSTORE | .MSTORE8 | .SSTORE | .JUMP | .JUMPI | .JUMPDEST | .LOG _
  | .CREATE | .CALL | .CALLCODE | .RETURN | .DELEGATECALL | .SUICIDE => true
  | _ => false

end Instruction

inductive AssemblyItemType where
  | UndefinedItem
  | Operation
  | Push
  | PushString
  | PushTag
  | PushSub
  | PushSubSize
  | PushProgramSize
  | Tag
  | PushData
  | PushLibraryAddress
deriving DecidableEq, Repr

/-- The value of the enumerator. -/
def AssemblyItemType.index : AssemblyItemType → Nat
  | .UndefinedItem => 0
  | .Operation => 1
  | .Push => 2
  | .PushString => 3
  | .PushTag => 4
  | .PushSub => 5
  | .PushSubSize => 6
  | .PushProgramSize => 7
  | .Tag => 8
  | .PushData => 9
  | .PushLibraryAddress => 10

/-- An item. The data of an operation is a byte: the constructor for instructions is the only one that makes operations. -/
structure AssemblyItem where
  type : AssemblyItemType
  data : U256
  byte : type = .Operation → data.toNat < 256
deriving DecidableEq, Repr

namespace AssemblyItem

/-- An item is known by its type and its data. -/
theorem eq_of {a b : AssemblyItem} (ht : a.type = b.type) (hd : a.data = b.data) : a = b := by
  cases a
  cases b
  cases ht
  cases hd
  rfl

/-- The item of an instruction. -/
def ofInstruction (i : Instruction) : AssemblyItem where
  type := .Operation
  data := BitVec.ofNat 256 i.toByte.toNat
  byte _ := by
    have := i.toByte.toNat_lt
    rw [BitVec.toNat_ofNat]
    omega

/-- `AssemblyItem(u256)` -/
def push (v : U256) : AssemblyItem := ⟨.Push, v, nofun⟩

/-- The item that defines a tag. -/
def tag (t : U256) : AssemblyItem := ⟨.Tag, t, nofun⟩

/-- The item that pushes a tag. -/
def pushTag (t : U256) : AssemblyItem := ⟨.PushTag, t, nofun⟩

/-- `instruction()`, which is only asked for operations. -/
def instruction (i : AssemblyItem) : Instruction := Instruction.ofByte (UInt8.ofNat i.data.toNat)

/-- How much higher the stack is after the item. -/
def deposit (i : AssemblyItem) : Int :=
  match i.type with
  | .Operation => (instructionInfo i.instruction).ret - (instructionInfo i.instruction).args
  | .Push | .PushString | .PushTag | .PushData | .PushSub | .PushSubSize | .PushProgramSize | .PushLibraryAddress => 1
  | .Tag | .UndefinedItem => 0

/-- `operator<` -/
def lt (a b : AssemblyItem) : Bool := a.type.index < b.type.index ∨ (a.type.index = b.type.index ∧ a.data < b.data)

end AssemblyItem

namespace SemanticInformation

open AssemblyItem

def altersControlFlow (i : AssemblyItem) : Bool :=
  match i.type, i.instruction with
  -- note that CALL, CALLCODE and CREATE do not really alter the control flow, because we
  -- continue on the next instruction
  | .Operation, .JUMP | .Operation, .JUMPI | .Operation, .RETURN | .Operation, .SUICIDE | .Operation, .STOP => true
  | _, _ => false

def isCommutativeOperation (i : AssemblyItem) : Bool :=
  if i.type ≠ .Operation then false
  else
    match i.instruction with
    | .ADD | .MUL | .EQ | .AND | .OR | .XOR => true
    | _ => false

def isDeterministic (i : AssemblyItem) : Bool :=
  if i.type ≠ .Operation then true
  else
    match i.instruction with
    | .CALL | .CALLCODE | .DELEGATECALL | .CREATE | .GAS | .PC
    | .MSIZE -- depends on previous writes and reads, not only on content
    | .BALANCE -- depends on previous calls
    | .EXTCODESIZE => false
    | _ => true

def invalidatesMemory : Instruction → Bool
  | .CALLDATACOPY | .CODECOPY | .EXTCODECOPY | .MSTORE | .MSTORE8 | .CALL | .CALLCODE | .DELEGATECALL => true
  | _ => false

def invalidatesStorage : Instruction → Bool
  | .CALL | .CALLCODE | .DELEGATECALL | .CREATE | .SSTORE => true
  | _ => false

end SemanticInformation

end Webthree
