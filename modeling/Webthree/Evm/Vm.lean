import Webthree.Lib.EState
import Webthree.Evm.ExtVMFace
import Webthree.Lib.BinarySearch

/-!
# The interpreter

The class `VM`: `checkRequirements`, which charges for an instruction before it runs, and `execImpl` with
`execOrdinaryOpcode`, which run it. The stack is a list with its back at the head, and every access to it, to the memory and to
the source of a copy is checked, so that an access the language leaves undefined ends the run with a `fault`.

The instructions of a code one after the other, each with the bytes that belong to it; behind its end the code goes on with zeros. And
`std::binary_search`, by which `verifyJumpDest` looks for a destination.
-/

namespace Webthree

/-- A range of memory an instruction touches: its operands, and the place and the size they are truncated to. -/
structure Touch where
  offset : U256
  size : U256
  place : Nat
  count : Nat
deriving DecidableEq, Repr

/-- The machine with the gas it is given by reference and the state of its externalities. `touched` is a ghost: the ranges of
memory touched since the instruction began. -/
structure Frame (σ : Type) where
  m_curPC : Nat := 0
  m_temp : Bytes := []
  m_stack : List U256 := []
  m_jumpDests : List Nat := []
  io_gas : U256
  ext : σ
  touched : List Touch := []

namespace VM

variable {σ : Type}

/-- A computation of the machine. -/
abbrev M (σ : Type) := EStateM Stop (Frame σ)

/-! ## Stack, memory and externalities -/

/-- Call a function of the externalities. -/
def onExt {α : Type} (m : EStateM Stop σ α) : M σ α := fun s =>
  match m s.ext with
  | .ok a e => .ok a { s with ext := e }
  | .error x e => .error x { s with ext := e }

/-- `m_stack[m_stack.size() - k]` -/
def fromTop (k : Nat) : M σ U256 := fun s =>
  match k with
  | 0 => .error (.fault .stack) s
  | k + 1 =>
    match s.m_stack[k]? with
    | some x => .ok x s
    | none => .error (.fault .stack) s

/-- `m_stack.back()` -/
def back : M σ U256 := fromTop 1

/-- `m_stack[m_stack.size() - k] = x` -/
def setFromTop (k : Nat) (x : U256) : M σ Unit := fun s =>
  if 0 < k ∧ k ≤ s.m_stack.length then .ok () { s with m_stack := s.m_stack.set (k - 1) x } else .error (.fault .stack) s

/-- `m_stack.pop_back()` -/
def popBack : M σ Unit := fun s =>
  match s.m_stack with
  | [] => .error (.fault .stack) s
  | _ :: rest => .ok () { s with m_stack := rest }

/-- `m_stack.push_back(x)` -/
def pushBack (x : U256) : M σ Unit := modify fun s => { s with m_stack := x :: s.m_stack }

/-- The value at the back, taken off. -/
def takeBack : M σ U256 := do
  let x ← back
  popBack
  pure x

/-- Truncate two operands to integers of `w` bits and touch the range they stand for; a range that is not empty must lie inside
`m_temp`. -/
def touch (w : Nat) (offset size : U256) : M σ (Nat × Nat) := fun s =>
  let place := offset.toNat % 2 ^ w
  let count := size.toNat % 2 ^ w
  let s := { s with touched := ⟨offset, size, place, count⟩ :: s.touched }
  if count = 0 ∨ place + count ≤ s.m_temp.length then .ok (place, count) s else .error (.fault .temp) s

/-- The bytes of `m_temp` at the operands, truncated to `w` bits. -/
def readTemp (w : Nat) (offset size : U256) : M σ Bytes := do
  let (place, count) ← touch w offset size
  pure (((← get).m_temp.drop place).take count)

/-- `bs` written over the bytes of `m` from the place `p` on. -/
def overwrite (m : Bytes) (p : Nat) (bs : Bytes) : Bytes := m.take p ++ bs ++ m.drop (p + bs.length)

/-- Write bytes to `m_temp` at a place that has been touched. -/
def writeTemp (place : Nat) (bs : Bytes) : M σ Unit := modify fun s => { s with m_temp := overwrite s.m_temp place bs }

/-! ## Charging for an instruction -/

/-- `require` -/
def require (F : ExtVMFace σ) (n d : Nat) : M σ Unit := do
  let s ← get
  if s.m_stack.length < n then throw (.vm .StackUnderflow)
  else if s.m_stack.length - n + d > F.evmSchedule.stackLimit.toNat then throw (.vm .OutOfStack)
  else pure ()

/-- `memNeed` -/
def memNeed (offset size : U256) : Nat := if size ≠ 0 then offset.toNat + size.toNat else 0

/-- `gasForMem` -/
def gasForMem (sched : EVMSchedule) (size : Nat) : Nat :=
  let s := size / 32
  sched.memoryGas.toNat * s + s * s / sched.quadCoeffDiv.toNat

/-- `runGas`, `newTempSize` and `copySize` -/
structure Cost where
  runGas : Nat
  newTempSize : Nat
  copySize : Nat := 0
deriving DecidableEq, Repr

/-- `_inst == Instruction::CALL && !_ext.exists(asAddress(m_stack[m_stack.size() - 2]))` -/
def callsNewAccount (F : ExtVMFace σ) (inst : Instruction) : M σ Bool :=
  if inst = .CALL then do pure !(← onExt (F.exists (asAddress (← fromTop 2)))) else pure false

/-- `inst != Instruction::DELEGATECALL && m_stack[m_stack.size() - 3] > 0` -/
def transfersValue (inst : Instruction) : M σ Bool :=
  if inst ≠ .DELEGATECALL then do pure ((← fromTop 3) > 0) else pure false

/-- `case CALL`, `CALLCODE` and `DELEGATECALL` of `checkRequirements`. -/
def costOfCall (F : ExtVMFace σ) (inst : Instruction) : M σ Cost := do
  let gas ← fromTop 1
  let newAccountGas := if ← callsNewAccount F inst then F.evmSchedule.callNewAccountGas.toNat else 0
  let valueTransferGas := if ← transfersValue inst then F.evmSchedule.callValueTransferGas.toNat else 0
  let sizesOffset := if inst = .DELEGATECALL then 3 else 4
  let outNeed := memNeed (← fromTop (sizesOffset + 2)) (← fromTop (sizesOffset + 3))
  let inNeed := memNeed (← fromTop sizesOffset) (← fromTop (sizesOffset + 1))
  pure { runGas := gas.toNat + F.evmSchedule.callGas.toNat + newAccountGas + valueTransferGas
         newTempSize := max outNeed inNeed }

/-- The `switch` of `checkRequirements`, over the cost of the instruction's tier. -/
def costOf (F : ExtVMFace σ) (inst : Instruction) (tierGas : Nat) : M σ Cost := do
  let size := (← get).m_temp.length
  match inst with
  | .SSTORE => do
    if (← onExt (F.store (← back))) = 0 ∧ (← fromTop 2) ≠ 0 then
      pure ⟨F.evmSchedule.sstoreSetGas.toNat, size, 0⟩
    else if (← onExt (F.store (← back))) ≠ 0 ∧ (← fromTop 2) = 0 then do
      onExt (F.addRefunds F.evmSchedule.sstoreRefundGas)
      pure ⟨F.evmSchedule.sstoreResetGas.toNat, size, 0⟩
    else pure ⟨F.evmSchedule.sstoreResetGas.toNat, size, 0⟩
  | .SLOAD => pure ⟨F.evmSchedule.sloadGas.toNat, size, 0⟩
  | .MSTORE => do pure ⟨tierGas, (← back).toNat + 32, 0⟩
  | .MSTORE8 => do pure ⟨tierGas, (← back).toNat + 1, 0⟩
  | .MLOAD => do pure ⟨tierGas, (← back).toNat + 32, 0⟩
  | .RETURN => do pure ⟨tierGas, memNeed (← back) (← fromTop 2), 0⟩
  | .SHA3 => do
    pure ⟨F.evmSchedule.sha3Gas.toNat + ((← fromTop 2).toNat + 31) / 32 * F.evmSchedule.sha3WordGas.toNat,
      memNeed (← back) (← fromTop 2), 0⟩
  | .CALLDATACOPY => do pure ⟨tierGas, memNeed (← back) (← fromTop 3), (← fromTop 3).toNat⟩
  | .CODECOPY => do pure ⟨tierGas, memNeed (← back) (← fromTop 3), (← fromTop 3).toNat⟩
  | .EXTCODECOPY => do pure ⟨tierGas, memNeed (← fromTop 2) (← fromTop 4), (← fromTop 4).toNat⟩
  | .JUMPDEST => pure ⟨1, size, 0⟩
  | .LOG n => do
    pure ⟨(F.evmSchedule.logGas + F.evmSchedule.logTopicGas * BitVec.ofNat 256 n).toNat +
        F.evmSchedule.logDataGas.toNat * (← fromTop 2).toNat,
      memNeed (← fromTop 1) (← fromTop 2), 0⟩
  | .CALL => costOfCall F .CALL
  | .CALLCODE => costOfCall F .CALLCODE
  | .DELEGATECALL => costOfCall F .DELEGATECALL
  | .CREATE => do pure ⟨F.evmSchedule.createGas.toNat, memNeed (← fromTop 2) (← fromTop 3), 0⟩
  | .EXP => do
    let expon ← fromTop 2
    pure ⟨(F.evmSchedule.expGas + F.evmSchedule.expByteGas * BitVec.ofNat 256 (32 - H256.firstBitSet expon / 8)).toNat,
      size, 0⟩
  | _ => pure ⟨tierGas, size, 0⟩

/-- The end of `checkRequirements`: charge for the memory, for the copy and for the instruction, and grow the memory. -/
def charge (F : ExtVMFace σ) (c : Cost) : M σ Unit := do
  let s ← get
  let newTempSize := (c.newTempSize + 31) / 32 * 32
  let forMem :=
    if newTempSize > s.m_temp.length then
      gasForMem F.evmSchedule newTempSize - gasForMem F.evmSchedule s.m_temp.length
    else 0
  let runGas := c.runGas + forMem + F.evmSchedule.copyGas.toNat * ((c.copySize + 31) / 32)
  if s.io_gas.toNat < runGas then throw (.vm .OutOfGas)
  else
    set { s with
      io_gas := s.io_gas - BitVec.ofNat 256 runGas
      m_temp := s.m_temp ++ List.replicate (newTempSize - s.m_temp.length) 0 }

/-- `checkRequirements` -/
def checkRequirements (F : ExtVMFace σ) (inst : Instruction) : M σ Unit := do
  let metric := instructionInfo inst
  if !F.evmSchedule.haveDelegateCall && inst = .DELEGATECALL then throw (.vm .BadInstruction)
  else
    match metric.gasPriceTier.index with
    | none => throw (.vm .BadInstruction)
    | some tier => do
      require F metric.args metric.ret
      let c ← costOf F inst (F.evmSchedule.tierStepGas tier).toNat
      charge F c

/-! ## Ordinary instructions -/

/-- `m_stack.back() = f(m_stack.back())` -/
def unary (f : U256 → U256) : M σ Unit := do
  setFromTop 1 (f (← back))

/-- `m_stack[m_stack.size() - 2] = f(m_stack.back(), m_stack[m_stack.size() - 2])`, and the back taken off. -/
def binary (f : U256 → U256 → U256) : M σ Unit := do
  setFromTop 2 (f (← back) (← fromTop 2))
  popBack

/-- The same for three entries. -/
def ternary (f : U256 → U256 → U256 → U256) : M σ Unit := do
  setFromTop 3 (f (← back) (← fromTop 2) (← fromTop 3))
  popBack
  popBack

/-- The value of a comparison. -/
def flag (b : Bool) : U256 := if b then 1 else 0

/-- `case SIGNEXTEND` -/
def signExtend (k number : U256) : U256 :=
  if k < 31 then
    let testBit := k.toNat * 8 + 7
    let mask : U256 := (1 <<< testBit) - 1
    if number.getLsbD testBit then number ||| ~~~mask else number &&& mask
  else number

/-- `case CALLDATALOAD`: 32 bytes of the data, zeros behind its end. -/
def callDataLoad (data : Bytes) (i : U256) : U256 :=
  if i.toNat + 31 < data.length then BitVec.ofNat 256 (fromBigEndian ((data.drop (i.toNat % 2 ^ 64)).take 32))
  else if i.toNat ≥ data.length then 0
  else BitVec.ofNat 256 (fromBigEndian ((List.range 32).map fun j => data.getD (i.toNat % 2 ^ 32 + j) 0))

/-- `sizeToBeCopied` of `copyDataToMemory`. -/
def sizeToBeCopied (dataSize bigIndex index size : Nat) : Nat :=
  if bigIndex + size > dataSize then if dataSize < bigIndex then 0 else dataSize - index else size

/-- `copyDataToMemory`; the size of the source is a `size_t`. -/
def copyDataToMemory (data : Bytes) : M σ Unit := do
  let offset ← takeBack
  let bigIndex ← takeBack
  let index := bigIndex.toNat % 2 ^ 64
  let size ← takeBack
  let (place, count) ← touch 64 offset size
  let n := sizeToBeCopied (data.length % 2 ^ 64) bigIndex.toNat index count
  if n > 0 ∧ index + n > data.length then throw (.fault .source)
  else writeTemp place ((data.drop index).take n ++ List.replicate (count - n) 0)

/-- `verifyJumpDest` -/
def verifyJumpDest (dest : U256) (validDests : List Nat) : M σ Nat := do
  let nextPC := dest.toNat % 2 ^ 64
  if ¬ nextPC ∈ validDests ∨ dest.toNat > 2 ^ 64 - 1 then throw (.vm .BadJumpDestination) else pure nextPC

/-- `case LOG0` to `LOG4`: the topics are `m_stack[m_stack.size() - 3]` and on. -/
def logTopics : Nat → M σ (List H256)
  | 0 => pure []
  | n + 1 => do
    let ts ← logTopics n
    pure (ts ++ [H256.ofU256 (← fromTop (n + 3))])

/-- `n` times `m_stack.pop_back()` -/
def popMany : Nat → M σ Unit
  | 0 => pure ()
  | n + 1 => do
    popBack
    popMany n

/-- The bytes behind a `PUSH`, most significant first. -/
def pushValue (f : ExtFields) (pc : Nat) : Nat → U256 → U256
  | 0, v => v
  | n + 1, v => pushValue f (pc + 1) n (v <<< 8 ||| BitVec.ofNat 256 (f.getCode pc).toNat)

/-- `execOrdinaryOpcode`, which returns `nextPC`. -/
def execOrdinaryOpcode (F : ExtVMFace σ) (inst : Instruction) : M σ Nat := do
  let s ← get
  let next (m : M σ Unit) : M σ Nat := do
    m
    pure (s.m_curPC + 1)
  match inst with
  | .ADD => next (binary fun a b => b + a)
  | .MUL => next (binary fun a b => b * a)
  | .SUB => next (binary fun a b => a - b)
  | .DIV => next (binary fun a b => if b ≠ 0 then a / b else 0)
  | .SDIV => next (binary fun a b => if b ≠ 0 then s2u ((u2s a).tdiv (u2s b)) else 0)
  | .MOD => next (binary fun a b => if b ≠ 0 then a % b else 0)
  | .SMOD => next (binary fun a b => if b ≠ 0 then s2u ((u2s a).tmod (u2s b)) else 0)
  | .EXP => next (binary fun a b => BitVec.ofNat 256 (powm a.toNat b.toNat (2 ^ 256)))
  | .NOT => next (unary fun a => ~~~a)
  | .LT => next (binary fun a b => flag (a < b))
  | .GT => next (binary fun a b => flag (a > b))
  | .SLT => next (binary fun a b => flag (u2s a < u2s b))
  | .SGT => next (binary fun a b => flag (u2s a > u2s b))
  | .EQ => next (binary fun a b => flag (a = b))
  | .ISZERO => next (unary fun a => flag (a = 0))
  | .AND => next (binary fun a b => a &&& b)
  | .OR => next (binary fun a b => a ||| b)
  | .XOR => next (binary fun a b => a ^^^ b)
  | .BYTE => next (binary fun a b => if a < 32 then (b >>> (8 * (31 - a.toNat))) &&& 0xff else 0)
  | .ADDMOD => next (ternary fun a b c => if c ≠ 0 then BitVec.ofNat 256 ((a.toNat + b.toNat) % c.toNat) else 0)
  | .MULMOD => next (ternary fun a b c => if c ≠ 0 then BitVec.ofNat 256 (a.toNat * b.toNat % c.toNat) else 0)
  | .SIGNEXTEND => next (binary signExtend)
  | .SHA3 => next do
    let inOff ← takeBack
    let inSize ← takeBack
    pushBack (F.sha3 (← readTemp 32 inOff inSize)).toU256
  | .ADDRESS => next (pushBack (fromAddress F.fields.myAddress))
  | .ORIGIN => next (pushBack (fromAddress F.fields.origin))
  | .BALANCE => next do setFromTop 1 (← onExt (F.balance (asAddress (← back))))
  | .CALLER => next (pushBack (fromAddress F.fields.caller))
  | .CALLVALUE => next (pushBack F.fields.value)
  | .CALLDATALOAD => next (unary (callDataLoad F.fields.data))
  | .CALLDATASIZE => next (pushBack (BitVec.ofNat 256 F.fields.data.length))
  | .CODESIZE => next (pushBack (BitVec.ofNat 256 F.fields.code.length))
  | .EXTCODESIZE => next do setFromTop 1 (BitVec.ofNat 256 (← onExt (F.codeAt (asAddress (← back)))).length)
  | .CALLDATACOPY => next (copyDataToMemory F.fields.data)
  | .CODECOPY => next (copyDataToMemory F.fields.code)
  | .EXTCODECOPY => next do
    let a ← takeBack
    copyDataToMemory (← onExt (F.codeAt (asAddress a)))
  | .GASPRICE => next (pushBack F.fields.gasPrice)
  | .BLOCKHASH => next (unary F.fields.blockHash)
  | .COINBASE => next (pushBack (fromAddress F.fields.envInfo.author))
  | .TIMESTAMP => next (pushBack F.fields.envInfo.timestamp)
  | .NUMBER => next (pushBack F.fields.envInfo.number)
  | .DIFFICULTY => next (pushBack F.fields.envInfo.difficulty)
  | .GASLIMIT => next (pushBack F.fields.envInfo.gasLimit)
  | .POP => next popBack
  | .PUSH n => do
    pushBack (pushValue F.fields (s.m_curPC + 1) (n + 1) 0)
    pure (s.m_curPC + 1 + (n + 1))
  | .JUMP => do
    let pc ← verifyJumpDest (← back) s.m_jumpDests
    popBack
    pure pc
  | .JUMPI => do
    let pc ← if (← fromTop 2) ≠ 0 then verifyJumpDest (← back) s.m_jumpDests else pure (s.m_curPC + 1)
    popBack
    popBack
    pure pc
  | .DUP n => next do pushBack (← fromTop (n + 1))
  | .SWAP n => next do
    let d ← back
    setFromTop 1 (← fromTop (n + 2))
    setFromTop (n + 2) d
  | .MLOAD => next do setFromTop 1 (BitVec.ofNat 256 (fromBigEndian (← readTemp 32 (← back) 32)))
  | .MSTORE => next do
    let (place, _) ← touch 32 (← back) 32
    writeTemp place (H256.ofU256 (← fromTop 2)).bytes
    popBack
    popBack
  | .MSTORE8 => next do
    let (place, _) ← touch 32 (← back) 1
    writeTemp place [UInt8.ofNat ((← fromTop 2) &&& 0xff).toNat]
    popBack
    popBack
  | .SLOAD => next do setFromTop 1 (← onExt (F.store (← back)))
  | .SSTORE => next do
    onExt (F.setStore (← back) (← fromTop 2))
    popBack
    popBack
  | .PC => next (pushBack (BitVec.ofNat 256 s.m_curPC))
  | .MSIZE => next (pushBack (BitVec.ofNat 256 s.m_temp.length))
  | .GAS => next (pushBack s.io_gas)
  | .JUMPDEST => pure (s.m_curPC + 1)
  | .LOG n => next do
    let topics ← logTopics n
    onExt (F.log topics (← readTemp 32 (← fromTop 1) (← fromTop 2)))
    popMany (n + 2)
  | .CREATE | .CALL | .CALLCODE | .DELEGATECALL | .RETURN | .SUICIDE | .STOP => pure (s.m_curPC + 1)
  | .INVALID _ => pure (s.m_curPC + 1)

/-! ## Calls, and the loop -/

/-- `case CREATE` of `execImpl`. The reference `endowment` is read after the entry is taken off, above the top of the stack,
where its value still is. -/
def execCreate (F : ExtVMFace σ) : M σ Unit := do
  let endowment ← takeBack
  let initOff ← takeBack
  let initSize ← takeBack
  if (← onExt (F.balance F.fields.myAddress)) ≥ endowment ∧ F.fields.depth < 1024 then do
    let init ← readTemp 32 initOff initSize
    let (address, gas) ← onExt (F.create endowment (← get).io_gas init)
    modify fun s => { s with io_gas := gas }
    pushBack (fromAddress address)
  else pushBack 0

/-- What a call takes off the stack. -/
structure CallOperands where
  gas : U256
  codeAddress : Address
  apparentValue : U256
  valueTransfer : U256
  inOff : U256
  inSize : U256
  outOff : U256
  outSize : U256
deriving DecidableEq, Repr

/-- `apparentValue` and `valueTransfer`: a `DELEGATECALL` shows the value of its own call and sends none. -/
def popCallValue (F : ExtVMFace σ) (inst : Instruction) : M σ (U256 × U256) :=
  if inst = .DELEGATECALL then pure (F.fields.value, 0)
  else do
    let v ← takeBack
    pure (v, v)

/-- The operands of `CALL`, `CALLCODE` and `DELEGATECALL`, in the order they are taken off. -/
def popCallOperands (F : ExtVMFace σ) (inst : Instruction) : M σ CallOperands := do
  let requested ← back
  let gas := if ← transfersValue inst then requested + F.evmSchedule.callStipend else requested
  popBack
  let codeAddress ← takeBack
  let value ← popCallValue F inst
  let inOff ← takeBack
  let inSize ← takeBack
  let outOff ← takeBack
  let outSize ← takeBack
  pure ⟨gas, asAddress codeAddress, value.1, value.2, inOff, inSize, outOff, outSize⟩

/-- `case CALL`, `CALLCODE` and `DELEGATECALL` of `execImpl`. -/
def execCall (F : ExtVMFace σ) (inst : Instruction) : M σ Unit := do
  let p ← popCallOperands F inst
  if (← onExt (F.balance F.fields.myAddress)) ≥ p.valueTransfer ∧ F.fields.depth < 1024 then do
    let data ← readTemp 32 p.inOff p.inSize
    let (outPlace, outCount) ← touch 32 p.outOff p.outSize
    let r ← onExt (F.call
      { senderAddress := if inst = .DELEGATECALL then F.fields.caller else F.fields.myAddress
        codeAddress := p.codeAddress
        receiveAddress := if inst = .CALL then p.codeAddress else F.fields.myAddress
        valueTransfer := p.valueTransfer
        apparentValue := p.apparentValue
        gas := p.gas
        data := data
        out := outCount })
    writeTemp outPlace (r.out.take outCount)
    pushBack (flag r.success)
    modify fun s => { s with io_gas := s.io_gas + r.gas }
  else do
    pushBack 0
    modify fun s => { s with io_gas := s.io_gas + p.gas }

/-- What `execImpl` does with an instruction once it is checked: what is returned, if the run ends here. -/
def perform (F : ExtVMFace σ) (inst : Instruction) : M σ (Option Bytes) :=
  let next (m : M σ Unit) : M σ (Option Bytes) := do
    m
    modify fun s => { s with m_curPC := s.m_curPC + 1 }
    pure none
  match inst with
  | .CREATE => next (execCreate F)
  | .CALL => next (execCall F .CALL)
  | .CALLCODE => next (execCall F .CALLCODE)
  | .DELEGATECALL => next (execCall F .DELEGATECALL)
  | .RETURN => do
    let b ← takeBack
    let s ← takeBack
    pure (some (← readTemp 32 b s))
  | .SUICIDE => do
    onExt (F.suicide (asAddress (← back)))
    pure (some [])
  | .STOP => pure (some [])
  | inst => do
    let nextPC ← execOrdinaryOpcode F inst
    modify fun s => { s with m_curPC := nextPC }
    pure none

/-- One turn of the loop of `execImpl` for the instruction `inst`. -/
def execInstruction (F : ExtVMFace σ) (inst : Instruction) : M σ (Option Bytes) := do
  modify fun s => { s with touched := [] }
  checkRequirements F inst
  perform F inst

/-- `(Instruction)_ext.getCode(m_curPC)` -/
def currentInstruction (F : ExtVMFace σ) (s : Frame σ) : Instruction := .ofByte (F.fields.getCode s.m_curPC)

/-- One turn of the loop of `execImpl`. -/
def step (F : ExtVMFace σ) : M σ (Option Bytes) := fun s => execInstruction F (currentInstruction F s) s

/-- The loop of `execImpl`, for at most `fuel` turns. -/
def loop (F : ExtVMFace σ) : Nat → M σ Bytes
  | 0 => throw .outOfFuel
  | fuel + 1 => do
    match ← step F with
    | some out => pure out
    | none => loop F fuel

/-- The valid jump destinations among the bytes from the place `i` on, of which the first `skip` belong to a `PUSH`. -/
def jumpDestsFrom (i skip : Nat) : Bytes → List Nat
  | [] => []
  | b :: rest =>
    match skip with
    | skip + 1 => jumpDestsFrom (i + 1) skip rest
    | 0 =>
      if b.toNat = 0x5b then i :: jumpDestsFrom (i + 1) 0 rest
      else if 0x60 ≤ b.toNat ∧ b.toNat ≤ 0x7f then jumpDestsFrom (i + 1) (b.toNat - 0x60 + 1) rest
      else jumpDestsFrom (i + 1) 0 rest

/-- The machine as `execImpl` finds it after its first loop. -/
def initial (F : ExtVMFace σ) (gas : U256) (ext : σ) : Frame σ :=
  { m_jumpDests := jumpDestsFrom 0 0 F.fields.code, io_gas := gas, ext := ext }

/-- `execImpl` -/
def execImpl (F : ExtVMFace σ) (fuel : Nat) (gas : U256) (ext : σ) : EStateM.Result Stop (Frame σ) Bytes :=
  loop F fuel (initial F gas ext)

end VM

/-! ## The linear decoding of code -/

/-- The bytes that an instruction takes. -/
def Instruction.width : Instruction → Nat
  | .PUSH n => n + 2
  | _ => 1

/-- Where an instruction starts. -/
def instructionStart (code : Bytes) : Nat → Nat
  | 0 => 0
  | k + 1 => instructionStart code k + (Instruction.ofByte (code.getD (instructionStart code k) 0)).width

/-- A place where a jump may go: a byte `0x5b` that is the start of an instruction. -/
def Destination (code : Bytes) (d : Nat) : Prop := (∃ k, d = instructionStart code k) ∧ code[d]? = some 0x5b

namespace VM

/-- `std::binary_search(_validDests.begin(), _validDests.end(), nextPC)` -/
def binary_search (validDests : List Nat) (nextPC : Nat) : Bool :=
  BinarySearch.found (fun i => validDests.getD i 0) validDests.length nextPC

end VM

end Webthree
