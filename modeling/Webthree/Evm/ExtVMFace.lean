import Webthree.Evm.Instruction

/-!
# The externalities of the machine

`ExtVMFace`: what the machine reads of its surroundings and the functions through which it acts on them. The functions are
virtual in the source, so the machine is a function of them; `σ` is whatever they read and write.
-/

namespace Webthree

/-- What derives from `VMException`. -/
inductive VMException where
  | BadInstruction
  | BadJumpDestination
  | OutOfGas
  | OutOfStack
  | StackUnderflow
deriving DecidableEq, Repr

/-- Exceptions that do not derive from `VMException`. -/
inductive OtherException where
  | NotEnoughCash
  | InvalidAccountStartNonceInState
  | BlockGasLimitReached
  | OutOfGasBase
  | InvalidNonce
deriving DecidableEq, Repr

/-- Accesses the language leaves undefined: below the bottom of `m_stack`, outside `m_temp`, outside the source of a copy. -/
inductive Fault where
  | stack
  | temp
  | source
deriving DecidableEq, Repr

/-- Why a computation ends without returning; `outOfFuel` only bounds the recursion of the model. -/
inductive Stop where
  | vm (e : VMException)
  | other (e : OtherException)
  | fault (f : Fault)
  | outOfFuel
deriving DecidableEq, Repr

/-- `EnvInfo` -/
structure EnvInfo where
  number : U256
  author : Address
  timestamp : U256
  difficulty : U256
  gasLimit : U256
  lastHashes : List H256
  gasUsed : U256
deriving DecidableEq, Repr

/-- `CallParameters`; `out` is the size of the output buffer. -/
structure CallParameters where
  senderAddress : Address
  codeAddress : Address
  receiveAddress : Address
  valueTransfer : U256
  apparentValue : U256
  gas : U256
  data : Bytes
  out : Nat
deriving DecidableEq, Repr

/-- What `call` leaves behind: whether it succeeded, `_p.gas`, and what it wrote to `_p.out`. -/
structure CallResult where
  success : Bool
  gas : U256
  out : Bytes
deriving DecidableEq, Repr

/-- The data members of `ExtVMFace` that do not change during a run. -/
structure ExtFields where
  envInfo : EnvInfo
  myAddress : Address
  caller : Address
  origin : Address
  value : U256
  gasPrice : U256
  data : Bytes
  code : Bytes
  depth : Nat
deriving DecidableEq, Repr

namespace ExtFields

/-- `getCode` -/
def getCode (f : ExtFields) (n : Nat) : UInt8 := f.code.getD n 0

/-- `blockHash` -/
def blockHash (f : ExtFields) (number : U256) : U256 :=
  if number < f.envInfo.number ∧ number ≥ (if 256 < f.envInfo.number then f.envInfo.number else 256) - 256 then
    match f.envInfo.lastHashes[(f.envInfo.number - 1 - number).toNat % 2 ^ 32]? with
    | some h => h.toU256
    | none => 0
  else 0

end ExtFields

/-- `ExtVMFace`, with its virtual functions over the state `σ`, and the hash function of the build. -/
structure ExtVMFace (σ : Type) where
  fields : ExtFields
  evmSchedule : EVMSchedule
  sha3 : Bytes → H256
  store : U256 → EStateM Stop σ U256
  setStore : U256 → U256 → EStateM Stop σ Unit
  balance : Address → EStateM Stop σ U256
  codeAt : Address → EStateM Stop σ Bytes
  «exists» : Address → EStateM Stop σ Bool
  suicide : Address → EStateM Stop σ Unit
  /-- The endowment, the gas and the code; the new address and the gas that is left. -/
  create : U256 → U256 → Bytes → EStateM Stop σ (Address × U256)
  call : CallParameters → EStateM Stop σ CallResult
  log : List H256 → Bytes → EStateM Stop σ Unit
  /-- `sub.refunds += ` -/
  addRefunds : U256 → EStateM Stop σ Unit

end Webthree
