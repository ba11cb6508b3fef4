import Mathlib.Data.Finset.Basic
import Webthree.Evm.State
import Webthree.Evm.Vm
import Webthree.Rlp.Item

/-!
# Calls, creations and transactions

`ExtVM`, the externalities of the machine over a `State`, and `Executive`, which sets up a call or a creation, runs the machine
on it and settles a transaction. The recursion of the source (`execImpl`, `ExtVM::call` and `create`, `Executive::go`) is a
recursion on two bounds: the turns of the loop at one level, and the levels.
-/

namespace Webthree

/-- `LogEntry` -/
structure LogEntry where
  address : Address
  topics : List H256
  data : Bytes
deriving DecidableEq, Repr

/-- `SubState`. `burnt` is a ghost: what accounts that suicided in favour of themselves had. -/
structure SubState where
  suicides : Finset Address := ∅
  logs : List LogEntry := []
  refunds : U256 := 0
  burnt : Address → Nat := fun _ => 0

namespace SubState

/-- `operator+=` -/
def add (s t : SubState) : SubState :=
  { suicides := s.suicides ∪ t.suicides, logs := s.logs ++ t.logs, refunds := s.refunds + t.refunds,
    burnt := fun a => s.burnt a + t.burnt a }

end SubState

/-- A contract of the client itself, known by its cost for an input and by what it writes. -/
structure PrecompiledContract where
  cost : Nat → Nat
  execute : Bytes → Bytes

/-- `SealEngineFace`, what execution asks it for. -/
structure SealEngine where
  evmSchedule : EnvInfo → EVMSchedule
  precompiled : Address → Option PrecompiledContract

/-- `TransactionException` -/
inductive TransactionException where
  | None | Unknown | BadRLP | InvalidFormat | OutOfGasIntrinsic | InvalidSignature | InvalidNonce | NotEnoughCash
  | OutOfGasBase | BlockGasLimitReached | BadInstruction | BadJumpDestination | OutOfGas | OutOfStack | StackUnderflow
deriving DecidableEq, Repr

/-- `toTransactionException`, of what derives from `VMException`. -/
def toTransactionException : VMException → TransactionException
  | .BadInstruction => .BadInstruction
  | .BadJumpDestination => .BadJumpDestination
  | .OutOfGas => .OutOfGas
  | .OutOfStack => .OutOfStack
  | .StackUnderflow => .StackUnderflow

/-- `CodeDeposit` -/
inductive CodeDeposit where
  | None | Failed | Success
deriving DecidableEq, Repr

/-- `ExecutionResult` -/
structure ExecutionResult where
  gasUsed : U256 := 0
  excepted : TransactionException := .Unknown
  newAddress : Address := 0
  output : Bytes := []
  codeDeposit : CodeDeposit := .None
  gasRefunded : U256 := 0
  depositSize : Nat := 0
  gasForDeposit : U256 := 0
deriving DecidableEq, Repr

/-- `Transaction`, with the sender its signature gives. -/
structure Transaction where
  isCreation : Bool
  sender : Address
  nonce : U256
  value : U256
  receiveAddress : Address
  gasPrice : U256
  gas : U256
  data : Bytes
deriving DecidableEq, Repr

/-- `gasRequired` -/
def Transaction.gasRequired (t : Transaction) (es : EVMSchedule) : Nat :=
  (if t.isCreation then es.txCreateGas else es.txGas).toNat +
    (t.data.map fun i => if i ≠ 0 then es.txDataNonZeroGas.toNat else es.txDataZeroGas.toNat).sum

/-- `ExtVM` without the state it refers to: the fields of `ExtVMFace`, the cache as it was prior to the execution, and the
sub-state. -/
structure Ext where
  fields : ExtFields
  m_origCache : AccountMap
  sub : SubState := {}

/-- `Executive` -/
structure Executive where
  m_s : State
  m_envInfo : EnvInfo
  m_ext : Option Ext := none
  m_depth : Nat := 0
  m_isCreation : Bool := false
  m_excepted : TransactionException := .None
  m_baseGasRequired : Nat := 0
  m_gas : U256 := 0
  m_refunded : U256 := 0
  m_gasCost : Nat := 0
  m_newAddress : Address := 0
  m_res : Option ExecutionResult := none
  /-- What was written to the output buffer `m_outRef`. -/
  m_out : Bytes := []

/-- What the functions of `ExtVM` read and write: the state it refers to and its sub-state. -/
structure ExtVM where
  m_s : State
  sub : SubState

namespace Executive

/-- A computation of the executive. -/
abbrev M := EStateM Stop Executive

/-- A computation on the state the executive refers to. -/
def onState {α : Type} (m : State.M α) : M α := fun e =>
  match m e.m_s with
  | .ok a s => .ok a { e with m_s := s }
  | .error x s => .error x { e with m_s := s }

/-- The constructor of `ExtVM`. -/
def makeExt (fields : ExtFields) : M Unit := do
  let origCache := (← get).m_s.m_cache
  onState (State.ensureCached fields.myAddress true true)
  modify fun e => { e with m_ext := some { fields := fields, m_origCache := origCache } }

/-- `call`: whether all is finished. -/
def call (E : SealEngine) (p : CallParameters) (gasPrice : U256) (origin : Address) : M Bool := do
  modify fun e => { e with m_isCreation := false }
  match E.precompiled p.codeAddress with
  | some c =>
    let g := c.cost (p.data.length % 2 ^ 32)
    if p.gas.toNat < g then do
      modify fun e => { e with m_excepted := .OutOfGasBase }
      pure true
    else do
      modify fun e => { e with m_gas := BitVec.ofNat 256 (p.gas.toNat - g), m_out := (c.execute p.data).take p.out }
      finish p
  | none => do
    modify fun e => { e with m_gas := p.gas }
    if ← onState (State.addressHasCode p.codeAddress) then do
      let c ← onState (State.code p.codeAddress)
      let e ← get
      makeExt
        { envInfo := e.m_envInfo, myAddress := p.receiveAddress, caller := p.senderAddress, origin := origin,
          value := p.apparentValue, gasPrice := gasPrice, data := p.data, code := c, depth := e.m_depth }
    finish p
where
  /-- The transfer at the end, and `return !m_ext`. -/
  finish (p : CallParameters) : M Bool := do
    onState (State.transferBalance p.senderAddress p.receiveAddress p.valueTransfer)
    pure (← get).m_ext.isNone

/-- `right160(sha3(rlpList(_sender, _nonce)))` -/
def contractAddress (sha3 : Bytes → H256) (sender : Address) (nonce : U256) : Address :=
  (sha3 (Item.list [.data ((H256.ofU256 (fromAddress sender)).bytes.drop 12), .data (toBigEndian nonce.toNat)]).encode).right160

/-- `create`: whether all is finished. The balance that the new account starts with is read before the account is put into the
cache. -/
def create (sender : Address) (endowment gasPrice gas : U256) (init : Bytes) (origin : Address) : M Bool := do
  modify fun e => { e with m_isCreation := true }
  let nonce ← onState (State.transactionsFrom sender)
  let newAddress := contractAddress (← get).m_s.sha3 sender (nonce - 1)
  modify fun e => { e with m_newAddress := newAddress, m_gas := gas }
  if init ≠ [] then do
    let e ← get
    makeExt
      { envInfo := e.m_envInfo, myAddress := newAddress, caller := sender, origin := origin, value := endowment,
        gasPrice := gasPrice, data := [], code := init, depth := e.m_depth }
  conceive sender newAddress endowment init
where
  /-- The new account, its endowment and, without code to run, its code, and `return !m_ext`. -/
  conceive (sender newAddress : Address) (endowment : U256) (init : Bytes) : M Bool := do
    let startNonce ← onState State.requireAccountStartNonce
    let balance ← onState (State.balance newAddress)
    onState (State.cache newAddress (.contractConception (← get).m_s.sha3 startNonce balance))
    onState (State.transferBalance sender newAddress endowment)
    if init = [] then onState (State.setCode newAddress [])
    pure (← get).m_ext.isNone

/-- `catch (VMException const& _e)` of `go`, with `ExtVM::revert`. -/
def catchVM (x : Ext) (v : VMException) (e : Executive) : Executive :=
  { e with
    m_gas := 0
    m_excepted := toTransactionException v
    m_s := { e.m_s with m_cache := x.m_origCache }
    m_ext := some { x with sub := {} }
    m_newAddress := if e.m_isCreation then 0 else e.m_newAddress }

/-- `m_cache[m_newAddress].setCode(out)` -/
def setNewCode (out : Bytes) (e : Executive) : Executive :=
  { e with
    m_s := { e.m_s with
      m_cache := e.m_s.m_cache.insert e.m_newAddress
        (((e.m_s.m_cache e.m_newAddress).getD (.dead e.m_s.sha3)).setCode out) } }

/-- What `go` notes of the code that a creation returned, before it may throw. -/
def noteDeposit (out : Bytes) (e : Executive) : Executive :=
  { e with m_res := e.m_res.map fun (r : ExecutionResult) => { r with gasForDeposit := e.m_gas, depositSize := out.length } }

/-- What `go` does with this code. -/
def deposit (sched : EVMSchedule) (out : Bytes) (e : Executive) : Except VMException Executive :=
  if BitVec.ofNat 256 out.length * sched.createDataGas ≤ e.m_gas then
    pure (setNewCode out { e with
      m_gas := e.m_gas - BitVec.ofNat 256 out.length * sched.createDataGas
      m_res := e.m_res.map fun (r : ExecutionResult) => { r with codeDeposit := .Success, output := out } })
  else if sched.exceptionalFailedCodeDeposit then throw .OutOfGas
  else pure (setNewCode [] { e with m_res := e.m_res.map fun (r : ExecutionResult) => { r with codeDeposit := .Failed, output := [] } })

/-- `accrueSubState` -/
def accrueSubState (e : Executive) (parent : SubState) : SubState :=
  match e.m_ext with
  | some x => parent.add x.sub
  | none => parent

end Executive

namespace ExtVM

/-- A computation of the externalities. -/
abbrev M := EStateM Stop ExtVM

/-- A computation on the state. -/
def onState {α : Type} (m : State.M α) : M α := fun x =>
  match m x.m_s with
  | .ok a s => .ok a { x with m_s := s }
  | .error e s => .error e { x with m_s := s }

/-- `suicide` -/
def suicide (my dest : Address) : M Unit := do
  let b ← onState (State.balance my)
  onState (State.addBalance dest b)
  let b' ← onState (State.balance my)
  onState (State.subBalance my b'.toNat)
  modify fun x => { x with sub := { x.sub with
    suicides := insert my x.sub.suicides
    burnt := fun a => x.sub.burnt a + if a = my ∧ dest = my then b.toNat else 0 } }

/-- Run an `Executive` on the state: set it up, run the machine if it is not finished, and add its sub-state to this one. -/
def withExecutive (fields : ExtFields) (setUp : Executive.M Bool) (go : Executive.M Unit) : M Executive := fun x =>
  let e : Executive := { m_s := x.m_s, m_envInfo := fields.envInfo, m_depth := fields.depth + 1 }
  match setUp e with
  | .error s e => .error s { x with m_s := e.m_s }
  | .ok true e => .ok e { x with m_s := e.m_s }
  | .ok false e =>
    match go e with
    | .error s e => .error s { x with m_s := e.m_s }
    | .ok _ e => .ok e { m_s := e.m_s, sub := e.accrueSubState x.sub }

/-- `ExtVM::call` -/
def call (E : SealEngine) (fields : ExtFields) (go : Executive.M Unit) (p : CallParameters) : M CallResult := do
  let e ← withExecutive fields (Executive.call E p fields.gasPrice fields.origin) go
  pure ⟨e.m_excepted = .None, e.m_gas, e.m_out⟩

/-- `ExtVM::create` -/
def create (fields : ExtFields) (go : Executive.M Unit) (endowment gas : U256) (code : Bytes) : M (Address × U256) := do
  onState (State.noteSending fields.myAddress)
  let e ← withExecutive fields
    (Executive.create fields.myAddress endowment fields.gasPrice gas code fields.origin) go
  pure (e.m_newAddress, e.m_gas)

/-- `ExtVM` as the externalities of the machine; `go` is `Executive::go` for the calls and creations it makes. -/
def face (E : SealEngine) (sha3 : Bytes → H256) (fields : ExtFields) (go : Executive.M Unit) : ExtVMFace ExtVM where
  fields := fields
  evmSchedule := E.evmSchedule fields.envInfo
  sha3 := sha3
  store := fun n => onState (State.storage fields.myAddress n)
  setStore := fun n v => onState (State.setStorage fields.myAddress n v)
  balance := fun a => onState (State.balance a)
  codeAt := fun a => onState (State.code a)
  «exists» := fun a => onState (State.addressInUse a)
  suicide := suicide fields.myAddress
  create := create fields go
  call := call E fields go
  log := fun ts b => modify fun x => { x with sub := { x.sub with logs := x.sub.logs ++ [⟨fields.myAddress, ts, b⟩] } }
  addRefunds := fun v => modify fun x => { x with sub := { x.sub with refunds := x.sub.refunds + v } }

end ExtVM

namespace Executive

/-- `go`, with at most `turns` turns of the machine's loop and `nested` for the calls and creations the machine makes. -/
def goWith (E : SealEngine) (turns : Nat) (nested : M Unit) : M Unit := fun e =>
  match e.m_ext with
  | none => .ok () e
  | some x =>
    let F := ExtVM.face E e.m_s.sha3 x.fields nested
    match VM.execImpl F turns e.m_gas ⟨e.m_s, x.sub⟩ with
    | .ok out fr =>
      let e := { e with m_gas := fr.io_gas, m_s := fr.ext.m_s, m_ext := some { x with sub := fr.ext.sub } }
      if e.m_isCreation then
        let e := noteDeposit out e
        match deposit F.evmSchedule out e with
        | .ok e => .ok () e
        | .error v => .ok () (catchVM x v e)
      else .ok () { e with m_out := out, m_res := e.m_res.map fun (r : ExecutionResult) => { r with output := out } }
    | .error (.vm v) fr => .ok () (catchVM x v { e with m_s := fr.ext.m_s })
    | .error (.other _) fr =>
      .ok () { e with m_gas := fr.io_gas, m_s := fr.ext.m_s, m_ext := some { x with sub := fr.ext.sub } }
    | .error s fr =>
      .error s { e with m_gas := fr.io_gas, m_s := fr.ext.m_s, m_ext := some { x with sub := fr.ext.sub } }

/-- `go`, for at most `turns` turns of the machine's loop at each of at most so many levels of calls and creations. -/
def go (E : SealEngine) (turns : Nat) : Nat → M Unit
  | 0 => throw .outOfFuel
  | levels + 1 => goWith E turns (go E turns levels)

/-- `initialize` -/
def initializeTx (E : SealEngine) (t : Transaction) : M Unit := do
  let env := (← get).m_envInfo
  if env.gasUsed.toNat + t.gas.toNat > env.gasLimit.toNat then throw (.other .BlockGasLimitReached)
  else do
    let required := t.gasRequired (E.evmSchedule env)
    modify fun e => { e with m_baseGasRequired := required }
    if required > t.gas.toNat then throw (.other .OutOfGasBase)
    else do
      let nonceReq ← onState (State.transactionsFrom t.sender)
      if t.nonce ≠ nonceReq then throw (.other .InvalidNonce)
      else do
        let gasCost := t.gas.toNat * t.gasPrice.toNat
        modify fun e => { e with m_gasCost := gasCost }
        if (← onState (State.balance t.sender)).toNat < t.value.toNat + gasCost then throw (.other .NotEnoughCash)
        else pure ()

/-- The first half of `execute`: the nonce of the sender, and the payment for the gas. -/
def pay (t : Transaction) : M Unit := do
  onState (State.noteSending t.sender)
  onState (State.subBalance t.sender (← get).m_gasCost)

/-- The second half of `execute`: set up the creation or the call. -/
def start (E : SealEngine) (t : Transaction) : M Bool := do
  let gas := t.gas - BitVec.ofNat 256 (← get).m_baseGasRequired
  if t.isCreation then create t.sender t.value t.gasPrice gas t.data t.sender
  else
    call E
      { senderAddress := t.sender, codeAddress := t.receiveAddress, receiveAddress := t.receiveAddress,
        valueTransfer := t.value, apparentValue := t.value, gas := gas, data := t.data, out := 0 }
      t.gasPrice t.sender

/-- `execute`: whether all is finished. -/
def execute (E : SealEngine) (t : Transaction) : M Bool := do
  pay t
  start E t

/-- The refund counter `finalize` starts from: that of the sub-state and what is given for suicides. -/
def totalRefunds (E : SealEngine) (e : Executive) : U256 :=
  match e.m_ext with
  | some x => x.sub.refunds + (E.evmSchedule e.m_envInfo).suicideRefundGas * BitVec.ofNat 256 x.sub.suicides.card
  | none => 0

/-- The accounts `finalize` kills. -/
def suicides (e : Executive) : Finset Address :=
  match e.m_ext with
  | some x => x.sub.suicides
  | none => ∅

/-- `m_s.m_cache[a].kill()` for every suicide. -/
def killSuicides (suicides : Finset Address) (s : State) : State :=
  { s with m_cache := fun a => if a ∈ suicides then some (((s.m_cache a).getD (.dead s.sha3)).kill s.sha3) else s.m_cache a }

/-- What `finalize` gives to `m_refunded`: `min((m_t.gas() - m_gas) / 2, m_ext->sub.refunds)`. -/
def refundOf (E : SealEngine) (t : Transaction) (e : Executive) : U256 :=
  if e.m_ext.isSome then
    if totalRefunds E e < (t.gas - e.m_gas) / 2 then totalRefunds E e else (t.gas - e.m_gas) / 2
  else 0

/-- `gasUsed` -/
def gasUsed (t : Transaction) (e : Executive) : U256 := t.gas - e.m_gas

/-- `finalize` -/
def finalize (E : SealEngine) (t : Transaction) : M Unit := do
  let e ← get
  let gas := e.m_gas + refundOf E t e
  modify fun e' => { e' with m_refunded := refundOf E t e, m_gas := gas }
  onState (State.addBalance t.sender (gas * t.gasPrice))
  let feesEarned := (t.gas - gas) * t.gasPrice
  onState (State.addBalance e.m_envInfo.author feesEarned)
  modify fun e' => { e' with
    m_s := killSuicides e.suicides e'.m_s
    m_res := e'.m_res.map fun (r : ExecutionResult) => { r with
      gasUsed := gasUsed t e', excepted := e'.m_excepted, newAddress := e'.m_newAddress, gasRefunded := totalRefunds E e } }

/-- `State::execute` without the commit at its end: the executive it leaves. -/
def transact (E : SealEngine) (env : EnvInfo) (t : Transaction) : State → EStateM.Result Stop Executive Unit := fun s =>
  let run : M Unit := do
    initializeTx E t
    if !(← execute E t) then go E ((← get).m_gas.toNat + 1) 1025
    finalize E t
  run { m_s := s, m_envInfo := env, m_res := some {} }

end Executive

end Webthree
