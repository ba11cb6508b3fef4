import Mathlib.Tactic.Linarith
import Webthree.Common
import Webthree.Lib.EState
import Webthree.Lib.SearchTree
import Webthree.Lib.Table

/-!
# The transaction queue

`TransactionQueue`, under its lock: the six containers and the operations on them. An iterator of `m_current` is the number of
the element it refers to, and numbers are never given twice. Logging and the signals are left out, and the counts, `unsigned` in
the source, are `Nat`.

Parameters are the hash function, the reading of a transaction from its bytes, how the multiset balances its tree, and where the
iteration over the hash table `m_future` begins.
-/

namespace Webthree

/-- What ends an operation early. Only `InvalidSignature` is an exception of the source. -/
inductive QueueError where
  | InvalidSignature
  | assertionFailed
  /-- An iterator that refers to nothing is followed, or the first entry of an empty map is asked for. -/
  | undefinedBehaviour
  /-- The loop that drops transactions out of bounds does not come to an end. -/
  | noProgress
deriving DecidableEq, Repr

/-- `ImportResult`, as far as the queue returns it. -/
inductive QueueImport where
  | Success
  | Malformed
  | AlreadyInChain
  | AlreadyKnown
  | OverbidGasPrice
deriving DecidableEq, Repr

/-- `IfDropped` -/
inductive IfDropped where
  | Ignore
  | Retry
deriving DecidableEq, Repr

/-- A transaction as the queue sees it. -/
structure SignedTransaction where
  /-- The address recovered from the signature, if there is one. -/
  recovered : Option Address
  nonce : U256
  gasPrice : U256
  /-- `sha3(WithSignature)` -/
  sha3 : H256
deriving DecidableEq, Repr

namespace SignedTransaction

/-- `sender`, which throws if the signature is invalid. -/
def sender (t : SignedTransaction) : Except QueueError Address :=
  match t.recovered with
  | some a => .ok a
  | none => .error .InvalidSignature

/-- `from`, a synonym for `safeSender`: the null address if the signature is invalid. -/
def «from» (t : SignedTransaction) : Address := t.recovered.getD 0

end SignedTransaction

/-- `VerifiedTransaction`, an element of `m_current`. -/
structure VerifiedTransaction where
  handle : Nat
  transaction : SignedTransaction
deriving DecidableEq, Repr

/-- `std::map` from nonces. -/
abbrev NonceMap (β : Type) := Std.TreeMap U256 β

/-- `TransactionQueue` -/
structure TransactionQueue where
  m_known : H256 → Bool
  m_dropped : H256 → Bool
  m_current : SearchTree VerifiedTransaction
  m_currentByHash : H256 → Option Nat
  /-- An iterator that is not set yet is `none`. -/
  m_currentByAddressAndNonce : Address → Option (NonceMap (Option Nat))
  m_future : Table Address (NonceMap SignedTransaction)
  m_limit : Nat
  m_futureLimit : Nat
  /-- `unsigned`, where fewer than 2^32 transactions are held. -/
  m_futureSize : Nat
  /-- The number that the next element of `m_current` gets. -/
  nextHandle : Nat
  /-- Not in the source: whether an element has been put into an `m_current` that was not in order for it. -/
  disordered : Bool

namespace TransactionQueue

/-- `TransactionQueue(_limit, _futureLimit)` -/
def new (limit futureLimit : Nat) : TransactionQueue :=
  { m_known := fun _ => false, m_dropped := fun _ => false, m_current := .nil, m_currentByHash := fun _ => none
    m_currentByAddressAndNonce := fun _ => none, m_future := .empty, m_limit := limit, m_futureLimit := futureLimit
    m_futureSize := 0, nextHandle := 0, disordered := false }

/-- What the queue gets from outside. -/
structure Library where
  sha3 : Bytes → H256
  /-- The fields of the transaction in a byte string; `none` if reading them throws. -/
  read : Bytes → Option SignedTransaction
  balance : Balance VerifiedTransaction
  /-- Where the iteration over a hash table with this many entries begins. -/
  «begin» : Nat → Nat

/-- An operation on the queue. -/
abbrev QueueM := EStateM QueueError TransactionQueue

/-! ## The order of the current transactions -/

/-- How far a transaction is above the lowest nonce of its sender. -/
def height (q : TransactionQueue) (t : SignedTransaction) : Except QueueError U256 := do
  let a ← t.sender
  match (q.m_currentByAddressAndNonce a).bind fun m => m.keys.head? with
  | some n => return t.nonce - n
  | none => throw .undefinedBehaviour

/-- `PriorityCompare`: compare transaction by nonce height and gas price. -/
def priorityCompare (q : TransactionQueue) (first second : VerifiedTransaction) : Except QueueError Bool := do
  let height1 ← q.height first.transaction
  let height2 ← q.height second.transaction
  return height1 < height2 || (height1 = height2 && first.transaction.gasPrice > second.transaction.gasPrice)

/-- Whether `m_current` is in order for a new element: all elements that compare greater stand behind all those that do not. -/
def inOrderFor (q : TransactionQueue) (v : VerifiedTransaction) : Bool :=
  (q.m_current.toList.dropWhile fun w => q.priorityCompare v w = .ok false).all fun w => q.priorityCompare v w = .ok true

/-- The element an iterator refers to. -/
def element (q : TransactionQueue) (i : Nat) : Option VerifiedTransaction := q.m_current.toList.find? fun v => v.handle = i

/-- `m_current.size()` -/
def currentSize (q : TransactionQueue) : Nat := q.m_current.toList.length

/-- `*_it` -/
def deref (it : Option Nat) : QueueM VerifiedTransaction := do
  match it.bind (← get).element with
  | some v => return v
  | none => throw .undefinedBehaviour

/-! ## Changes of one container -/

/-- `m_currentByAddressAndNonce[_a]`, made if it is not there. -/
def nonces (q : TransactionQueue) (a : Address) : NonceMap (Option Nat) := (q.m_currentByAddressAndNonce a).getD ∅

/-- `m_currentByAddressAndNonce[_a].insert(make_pair(_n, PriorityQueue::iterator()))` -/
def indexNonce (a : Address) (n : U256) : QueueM Unit := modify fun q =>
  { q with m_currentByAddressAndNonce :=
    Function.update q.m_currentByAddressAndNonce a (some ((q.nonces a).insertIfNew n none)) }

/-- `inserted.first->second = _handle` -/
def setIterator (a : Address) (n : U256) (handle : Nat) : QueueM Unit := modify fun q =>
  { q with m_currentByAddressAndNonce := Function.update q.m_currentByAddressAndNonce a (some ((q.nonces a).insert n (some handle))) }

/-- `m_currentByHash[_h] = _handle` -/
def indexHash (h : H256) (handle : Nat) : QueueM Unit := modify fun q =>
  { q with m_currentByHash := Function.update q.m_currentByHash h (some handle) }

/-- `m_known.insert(_h)` -/
def know (h : H256) : QueueM Unit := modify fun q => { q with m_known := Function.update q.m_known h true }

/-- What is put for a sender where the map of a sender may have become empty: the map is erased then. -/
def unlessEmpty {β : Type} (m : NonceMap β) : Option (NonceMap β) := if m.isEmpty then none else some m

/-- The map of future transactions of a sender is put back, or erased if it has become empty. -/
def setFutureOf (q : TransactionQueue) (a : Address) (m : NonceMap SignedTransaction) : TransactionQueue :=
  { q with m_future := if m.isEmpty then q.m_future.remove a else q.m_future.set a m }

variable (L : Library)

/-- `m_current.emplace(_t)` -/
def emplace (t : SignedTransaction) : QueueM Nat := do
  let q ← get
  let v := ⟨q.nextHandle, t⟩
  match q.m_current.insertBy q.priorityCompare v with
  | .error e => throw e
  | .ok tree => do
    set { q with
      m_current := L.balance.fix tree, nextHandle := q.nextHandle + 1, disordered := q.disordered || !q.inOrderFor v }
    return q.nextHandle

/-- `m_current.erase(_it)` -/
def eraseCurrent (q : TransactionQueue) (i : Nat) : TransactionQueue :=
  { q with m_current := L.balance.erase (fun v => v.handle = i) q.m_current }

/-! ## Moving transactions -/

/-- `remove_WITH_LOCK` -/
def remove_WITH_LOCK (txHash : H256) : QueueM Bool := do
  match (← get).m_currentByHash txHash with
  | none => return false
  | some i => do
    let t := (← deref (some i)).transaction
    match (← get).m_currentByAddressAndNonce t.from with
    | none => throw .assertionFailed
    | some m => do
      modify fun q =>
        { eraseCurrent L q i with
          m_currentByHash := Function.update q.m_currentByHash txHash none
          m_currentByAddressAndNonce := Function.update q.m_currentByAddressAndNonce t.from (unlessEmpty (m.erase t.nonce))
          m_known := Function.update q.m_known txHash false }
      return true

/-- Put a transaction into `m_current` and its indices. -/
def place (a : Address) (h : H256) (t : SignedTransaction) : QueueM Unit := do
  indexNonce a t.nonce
  let handle ← emplace L t
  setIterator a t.nonce handle
  indexHash h handle

/-- The loop of `makeCurrent_WITH_LOCK` from the iterator `ft` on; it returns the nonces up to the iterator it stops at. -/
def promote (a : Address) : (nonce : U256) → (ft : List (U256 × SignedTransaction)) → QueueM (List U256)
  | _, [] => return []
  | nonce, (n, t) :: ft => do
    if t.nonce = nonce then
      place L a t.sha3 t
      modify fun q => { q with m_futureSize := q.m_futureSize - 1 }
      let ns ← promote a (nonce + 1) ft
      return n :: ns
    else return []

/-- The iterators of a map from a nonce on. -/
def iterFrom {β : Type} (m : NonceMap β) (n : U256) : List (U256 × β) := m.toList.filter fun e => n ≤ e.1

/-- Move following transactions from future to current. -/
def makeFollowing (t : SignedTransaction) : QueueM Unit := do
  match (← get).m_future.find t.from with
  | none => return ()
  | some fs =>
    if (fs[t.nonce + 1]?).isSome then do
      let moved ← promote L t.from (t.nonce + 1) (iterFrom fs (t.nonce + 1))
      modify fun q => q.setFutureOf t.from (moved.foldl Std.TreeMap.erase fs)
    else return ()

/-- For now just drop random chain end: the last transaction of the sender that the iteration over `m_future` begins with. -/
def dropFuture : QueueM Unit := do
  let q ← get
  match q.m_future.entries[L.begin q.m_future.entries.length % q.m_future.entries.length]? with
  | none => throw .undefinedBehaviour
  | some (a, m) =>
    match m.keys.getLast? with
    | none => throw .undefinedBehaviour
    | some n => set ({ q with m_futureSize := q.m_futureSize - 1 }.setFutureOf a (m.erase n))

/-- `while (m_futureSize > m_futureLimit)`, with the number of turns that are left. -/
def dropFutures : Nat → QueueM Unit
  | 0 => return ()
  | turns + 1 => do
    dropFuture L
    dropFutures turns

/-- `makeCurrent_WITH_LOCK` -/
def makeCurrent_WITH_LOCK (t : SignedTransaction) : QueueM Unit := do
  makeFollowing L t
  let q ← get
  dropFutures L (q.m_futureSize - q.m_futureLimit)

/-- `insertCurrent_WITH_LOCK` -/
def insertCurrent_WITH_LOCK (h : H256) (t : SignedTransaction) : QueueM Unit := do
  if ((← get).m_currentByHash h).isSome then return ()
  else do
    place L t.from h t
    -- Move following transactions from future to current
    makeCurrent_WITH_LOCK L t
    know h

/-- `while (m_current.size() > m_limit)`; as many turns as there are elements are enough if each takes one away. -/
def dropOutOfBounds : (turns : Nat) → QueueM Unit
  | 0 => throw .noProgress
  | turns + 1 => do
    let q ← get
    if q.currentSize > q.m_limit then
      match q.m_current.toList.getLast? with
      | none => throw .undefinedBehaviour
      | some v => do
        let _ ← remove_WITH_LOCK L v.transaction.sha3
        dropOutOfBounds turns
    else return ()

/-! ## Importing -/

/-- `check_WITH_LOCK` -/
def check_WITH_LOCK (q : TransactionQueue) (h : H256) (ik : IfDropped) : QueueImport :=
  if q.m_known h then .AlreadyKnown
  else if q.m_dropped h && ik = .Ignore then .AlreadyInChain
  else .Success

/-- Remove any prior transaction with the same nonce but a lower gas price; `false` if there's a prior transaction with higher gas
price. -/
def replaceCurrent (t : SignedTransaction) : QueueM Bool := do
  match ((← get).m_currentByAddressAndNonce t.from).bind fun m => m[t.nonce]? with
  | none => return true
  | some it => do
    let v ← deref it
    if t.gasPrice < v.transaction.gasPrice then return false
    let _ ← remove_WITH_LOCK L v.transaction.sha3
    return true

/-- The same among the future transactions. -/
def replaceFuture (t : SignedTransaction) : QueueM Bool := do
  match (← get).m_future.find t.from with
  | none => return true
  | some fs =>
    match fs[t.nonce]? with
    | none => return true
    | some prior => do
      if t.gasPrice < prior.gasPrice then return false
      modify fun q => { q with m_futureSize := q.m_futureSize - 1 }.setFutureOf t.from (fs.erase t.nonce)
      return true

/-- `manageImport_WITH_LOCK`, before its exceptions are caught. -/
def manageImport (h : H256) (t : SignedTransaction) : QueueM QueueImport := do
  if h ≠ t.sha3 then throw .assertionFailed
  if !(← replaceCurrent L t) then return .OverbidGasPrice
  if !(← replaceFuture t) then return .OverbidGasPrice
  -- If valid, append to transactions.
  insertCurrent_WITH_LOCK L h t
  dropOutOfBounds L ((← get).currentSize + 1)
  return .Success

/-- `manageImport_WITH_LOCK` -/
def manageImport_WITH_LOCK (h : H256) (t : SignedTransaction) : QueueM QueueImport := fun q =>
  match manageImport L h t q with
  | .error .InvalidSignature q => .ok .Malformed q
  | r => r

/-- `import(_transaction, _ik)` -/
def «import» (t : SignedTransaction) (ik : IfDropped) : QueueM QueueImport := do
  match (← get).check_WITH_LOCK t.sha3 ik with
  | .Success => manageImport_WITH_LOCK L t.sha3 t
  | ir => return ir

/-- `import(_transactionRLP, _ik)`. Reading the transaction with `CheckTransaction::Everything` includes `sender()`. -/
def importRLP (rlp : Bytes) (ik : IfDropped) : QueueM QueueImport := do
  match (← get).check_WITH_LOCK (L.sha3 rlp) ik with
  | .Success =>
    match L.read rlp with
    | none => return .Malformed
    | some t =>
      match t.sender with
      | .error _ => return .Malformed
      | .ok _ => manageImport_WITH_LOCK L (L.sha3 rlp) t
  | ir => return ir

/-! ## The other operations -/

/-- `drop` -/
def drop (txHash : H256) : QueueM Unit := do
  if !(← get).m_known txHash then return ()
  else do
    modify fun q => { q with m_dropped := Function.update q.m_dropped txHash true }
    let _ ← remove_WITH_LOCK L txHash

/-- `dropGood` -/
def dropGood (t : SignedTransaction) : QueueM Unit := do
  makeCurrent_WITH_LOCK L t
  if !(← get).m_known t.sha3 then return ()
  else do
    let _ ← remove_WITH_LOCK L t.sha3

/-- The loop of `setFuture`, over the iterators from the cutoff on. -/
def demote (a : Address) : List (U256 × Option Nat) → QueueM Unit
  | [] => return ()
  | (_, it) :: ms => do
    let v ← deref it
    modify fun q =>
      { eraseCurrent L q v.handle with
        m_currentByHash := Function.update q.m_currentByHash v.transaction.sha3 none
        m_future := q.m_future.set a (((q.m_future.find a).getD ∅).insertIfNew v.transaction.nonce v.transaction)
        m_futureSize := q.m_futureSize + 1 }
    demote a ms

/-- `setFuture` -/
def setFuture (txHash : H256) : QueueM Unit := do
  match (← get).m_currentByHash txHash with
  | none => return ()
  | some i => do
    let st ← deref (some i)
    let a := st.transaction.from
    let queue := (← get).nonces a
    -- m_future[from] is made if it is not there
    modify fun q => { q with m_future := q.m_future.set a ((q.m_future.find a).getD ∅) }
    demote L a (iterFrom queue st.transaction.nonce)
    modify fun q =>
      { q with m_currentByAddressAndNonce :=
        Function.update q.m_currentByAddressAndNonce a (unlessEmpty (queue.filter fun n _ => n < st.transaction.nonce)) }

/-- `clear` -/
def clear : QueueM Unit := modify fun q =>
  { q with
    m_known := fun _ => false
    m_current := .nil
    m_currentByAddressAndNonce := fun _ => none
    m_currentByHash := fun _ => none
    m_future := .empty
    m_futureSize := 0 }

/-- `topTransactions` -/
def topTransactions (q : TransactionQueue) (limit : Nat) (avoid : H256 → Bool) : List SignedTransaction :=
  ((q.m_current.toList.map VerifiedTransaction.transaction).filter fun t => !avoid t.sha3).take limit

end TransactionQueue

/-! ## Runs -/

/-- An operation on the queue. -/
inductive QueueOp where
  | import (t : SignedTransaction) (ik : IfDropped)
  | importRLP (rlp : Bytes) (ik : IfDropped)
  | drop (txHash : H256)
  | dropGood (t : SignedTransaction)
  | setFuture (txHash : H256)
  | clear

namespace QueueOp

open TransactionQueue

/-- What the operation does. -/
def run (L : Library) : QueueOp → QueueM Unit
  | .import t ik => do let _ ← TransactionQueue.import L t ik
  | .importRLP rlp ik => do let _ ← TransactionQueue.importRLP L rlp ik
  | .drop h => TransactionQueue.drop L h
  | .dropGood t => TransactionQueue.dropGood L t
  | .setFuture h => TransactionQueue.setFuture L h
  | .clear => TransactionQueue.clear

/-- One operation after the other. -/
def runAll (L : Library) : List QueueOp → QueueM Unit
  | [] => return ()
  | op :: ops => do
    op.run L
    runAll L ops

end QueueOp

end Webthree
