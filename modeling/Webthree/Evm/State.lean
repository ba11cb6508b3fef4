import Webthree.Evm.ExtVMFace

/-!
# Accounts and the state

`Account`, a cached account, and `State`, the cache in front of the state trie. The trie is known by what it holds: the
accounts by address, the code by its hash, and the storage by its root.
-/

namespace Webthree

/-- `Invalid256` -/
def Invalid256 : U256 := ~~~0

/-- `EmptySHA3`, the hash of nothing. -/
def EmptySHA3 (sha3 : Bytes → H256) : H256 := sha3 []

/-- `EmptyTrie`, the hash of the empty string as an item. -/
def EmptyTrie (sha3 : Bytes → H256) : H256 := sha3 [0x80]

/-- What the state trie holds for an address. -/
structure TrieAccount where
  nonce : U256
  balance : U256
  storageRoot : H256
  codeHash : H256
deriving DecidableEq, Repr

/-- `Account` -/
structure Account where
  m_isAlive : Bool
  m_isUnchanged : Bool
  m_nonce : U256
  m_balance : U256
  m_storageRoot : H256
  m_codeHash : H256
  m_storageOverlay : U256 → Option U256
  m_codeCache : Bytes

namespace Account

/-- `c_contractConceptionCodeHash` -/
def c_contractConceptionCodeHash : H256 := .ofU256 0

/-- The default constructor, a dead account. -/
def dead (sha3 : Bytes → H256) : Account :=
  { m_isAlive := false, m_isUnchanged := false, m_nonce := 0, m_balance := 0, m_storageRoot := EmptyTrie sha3,
    m_codeHash := EmptySHA3 sha3, m_storageOverlay := fun _ => none, m_codeCache := [] }

/-- `Account(_nonce, _balance, NormalCreation)` -/
def normalCreation (sha3 : Bytes → H256) (nonce balance : U256) : Account :=
  { dead sha3 with m_isAlive := true, m_nonce := nonce, m_balance := balance }

/-- `Account(_nonce, _balance, ContractConception)` -/
def contractConception (sha3 : Bytes → H256) (nonce balance : U256) : Account :=
  { dead sha3 with
    m_isAlive := true, m_nonce := nonce, m_balance := balance, m_codeHash := c_contractConceptionCodeHash }

/-- `Account(_nonce, _balance, _contractRoot, _codeHash, Unchanged)`, from what the trie holds. -/
def ofTrie (sha3 : Bytes → H256) (t : TrieAccount) : Account :=
  { dead sha3 with
    m_isAlive := true, m_isUnchanged := true, m_nonce := t.nonce, m_balance := t.balance,
    m_storageRoot := t.storageRoot, m_codeHash := t.codeHash }

/-- `kill` -/
def kill (sha3 : Bytes → H256) (a : Account) : Account :=
  { a with
    m_isAlive := false, m_storageOverlay := fun _ => none, m_codeHash := EmptySHA3 sha3,
    m_storageRoot := EmptyTrie sha3, m_balance := 0, m_nonce := 0, m_isUnchanged := false }

/-- `addBalance`, of a `bigint` that may be negative. -/
def addBalance (a : Account) (i : Int) : Account :=
  if i = 0 then a else { a with m_balance := BitVec.ofInt 256 (a.m_balance.toNat + i), m_isUnchanged := false }

/-- `incNonce` -/
def incNonce (a : Account) : Account := { a with m_nonce := a.m_nonce + 1, m_isUnchanged := false }

/-- `setStorage` -/
def setStorage (a : Account) (p v : U256) : Account :=
  { a with m_storageOverlay := fun q => if q = p then some v else a.m_storageOverlay q, m_isUnchanged := false }

/-- `isFreshCode` -/
def isFreshCode (a : Account) : Bool := a.m_codeHash = c_contractConceptionCodeHash

/-- `codeCacheValid` -/
def codeCacheValid (sha3 : Bytes → H256) (a : Account) : Bool :=
  a.m_codeHash = EmptySHA3 sha3 || a.m_codeHash = c_contractConceptionCodeHash || !a.m_codeCache.isEmpty

/-- `setCode` -/
def setCode (a : Account) (code : Bytes) : Account := { a with m_codeCache := code, m_isUnchanged := false }

/-- `noteCode` -/
def noteCode (a : Account) (code : Bytes) : Account := { a with m_codeCache := code }

end Account

/-- `m_cache` -/
abbrev AccountMap := Address → Option Account

/-- `m_cache[_a] = _x` -/
def AccountMap.insert (m : AccountMap) (a : Address) (x : Account) : AccountMap := fun b => if b = a then some x else m b

/-- `State`, with the hash function of the build. `m_db` and `m_storage` are the code and the storage in the database, by the
hash of the code and by the root of the storage trie. -/
structure State where
  sha3 : Bytes → H256
  m_db : H256 → Bytes
  m_storage : H256 → U256 → U256
  m_state : Address → Option TrieAccount
  m_cache : AccountMap
  m_accountStartNonce : U256

namespace State

/-- A computation on the state. -/
abbrev M := EStateM Stop State

/-- Put an account into the cache. -/
def cache (a : Address) (x : Account) : M Unit := modify fun s => { s with m_cache := s.m_cache.insert a x }

/-- `requireAccountStartNonce` -/
def requireAccountStartNonce : M U256 := do
  let s ← get
  if s.m_accountStartNonce = Invalid256 then throw (.other .InvalidAccountStartNonceInState) else pure s.m_accountStartNonce

/-- The first half of `ensureCached`: the basic information of an account. -/
def ensureCachedBasic (a : Address) (forceCreate : Bool) : M Unit := do
  let s ← get
  match s.m_cache a, s.m_state a with
  | some _, _ => pure ()
  | none, some t => cache a (.ofTrie s.sha3 t)
  | none, none => if forceCreate then do cache a (.normalCreation s.sha3 (← requireAccountStartNonce) 0) else pure ()

/-- The second half of `ensureCached`: the code of an account in the cache. -/
def ensureCachedCode (a : Address) : M Unit := do
  let s ← get
  match s.m_cache a with
  | some x =>
    if !x.isFreshCode && !x.codeCacheValid s.sha3 then
      cache a (x.noteCode (if x.m_codeHash = EmptySHA3 s.sha3 then [] else s.m_db x.m_codeHash))
    else pure ()
  | none => pure ()

/-- `ensureCached` -/
def ensureCached (a : Address) (requireCode forceCreate : Bool) : M Unit := do
  ensureCachedBasic a forceCreate
  if requireCode then ensureCachedCode a else pure ()

/-- `ensureCached(_id, false, false)` and `m_cache.find(_id)` -/
def find (a : Address) : M (Option Account) := do
  ensureCached a false false
  pure ((← get).m_cache a)

/-- `addressInUse` -/
def addressInUse (a : Address) : M Bool := do pure (← find a).isSome

/-- `addressHasCode` -/
def addressHasCode (a : Address) : M Bool := do
  match ← find a with
  | none => pure false
  | some x => do pure (x.isFreshCode || x.m_codeHash ≠ EmptySHA3 (← get).sha3)

/-- `balance` -/
def balance (a : Address) : M U256 := do
  match ← find a with
  | none => pure 0
  | some x => pure x.m_balance

/-- `noteSending` -/
def noteSending (a : Address) : M Unit := do
  match ← find a with
  | none => do cache a (.normalCreation (← get).sha3 ((← requireAccountStartNonce) + 1) 0)
  | some x => cache a x.incNonce

/-- `addBalance` -/
def addBalance (a : Address) (amount : U256) : M Unit := do
  match ← find a with
  | none => do cache a (.normalCreation (← get).sha3 (← requireAccountStartNonce) amount)
  | some x => cache a (x.addBalance amount.toNat)

/-- `subBalance` -/
def subBalance (a : Address) (amount : Nat) : M Unit := do
  match ← find a with
  | none => throw (.other .NotEnoughCash)
  | some x => if x.m_balance.toNat < amount then throw (.other .NotEnoughCash) else cache a (x.addBalance (-amount))

/-- `transferBalance` -/
def transferBalance («from» «to» : Address) (value : U256) : M Unit := do
  subBalance «from» value.toNat
  addBalance «to» value

/-- `transactionsFrom` -/
def transactionsFrom (a : Address) : M U256 := do
  match ← find a with
  | none => do pure (← get).m_accountStartNonce
  | some x => pure x.m_nonce

/-- `storage`; what is read from the trie is kept in the overlay. -/
def storage (a : Address) (key : U256) : M U256 := do
  match ← find a with
  | none => pure 0
  | some x =>
    match x.m_storageOverlay key with
    | some v => pure v
    | none => do
      let v := (← get).m_storage x.m_storageRoot key
      cache a (x.setStorage key v)
      pure v

/-- `m_cache[_a]`, which is a dead account if there was none. -/
def cached (a : Address) : M Account := do
  let s ← get
  pure ((s.m_cache a).getD (.dead s.sha3))

/-- `setStorage` -/
def setStorage (a : Address) (key value : U256) : M Unit := do cache a ((← cached a).setStorage key value)

/-- `m_cache[_a].setCode(_code)` -/
def setCode (a : Address) (code : Bytes) : M Unit := do cache a ((← cached a).setCode code)

/-- `code` -/
def code (a : Address) : M Bytes := do
  if !(← addressHasCode a) then pure []
  else do
    ensureCached a true false
    pure (← cached a).m_codeCache

end State

end Webthree
