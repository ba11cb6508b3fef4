import Webthree.Trie.Tree
import Webthree.Lib.EState

/-!
# Nodes and the database

What the queries of the trie say of the nodes of a tree, and what the database operations do to the nodes and the references a
database holds.
-/

namespace Webthree

open TrieDB

variable {sha3 : Bytes → H256}

/-! ## Nodes -/

/-- What stands behind the key of a node with a key. -/
abbrev Body := Value ⊕ Tree

/-- A leaf or an extension. -/
def pairOf : Body → List Nibble → Tree
  | .inl v, k => .leaf k v
  | .inr c, k => .ext k c

/-- The second item of a node with a key. -/
def bodyItem (sha3 : Bytes → H256) : Body → Item
  | .inl v => .data v.val
  | .inr c => refOf sha3 (itemOf sha3 c)

/-- A leaf or an extension is a pair of its key and its body. -/
theorem itemOf_pairOf (b : Body) (k : List Nibble) :
    itemOf sha3 (pairOf b k) = .list [.data (hexPrefix k b.isLeft), bodyItem sha3 b] := by
  cases b <;> rfl

@[simp] theorem keyOf_pair (k : List Nibble) (l : Bool) (y : Item) : keyOf (.list [.data (hexPrefix k l), y]) = k := by
  rw [keyOf]
  exact keyOfBytes_hexPrefix k l

@[simp] theorem isLeaf_pair (k : List Nibble) (l : Bool) (y : Item) : isLeaf (.list [.data (hexPrefix k l), y]) = l := by
  have h := hexPrefix_leaf k l
  have h' : isLeaf (.list [.data (hexPrefix k l), y]) = decide ((hexPrefix k l).headD 0 &&& 0x20 ≠ 0) := rfl
  rw [h']
  cases l with
  | true => exact decide_eq_true (h.mpr rfl)
  | false =>
    refine decide_eq_false ?_
    intro hn
    exact absurd (h.mp hn) (by simp)

@[simp] theorem isEmpty_itemOf (t : Tree) : (itemOf sha3 t).isEmpty = t.isEmpty := by
  cases t with
  | empty => rfl
  | leaf k v => rfl
  | ext k c => rfl
  | branch cs v => simp [itemOf, Item.isEmpty, Patricia.isEmpty]

/-- All trees but the empty one are lists. -/
theorem isList_itemOf {t : Tree} (h : t ≠ .empty) : (itemOf sha3 t).isList = true := by
  cases t with
  | empty => exact absurd rfl h
  | _ => rfl

/-! The items of a branch are a row of sixteen and one more. -/

/-- In a row with one more element the first ones are found by their indices. -/
theorem getD_ofFn_append {α : Type} {n : Nat} (f : Fin n → α) (x d : α) (i : Fin n) : (List.ofFn f ++ [x]).getD i d = f i := by
  simp [List.getD_eq_getElem?_getD]

/-- The last one is found behind them. -/
theorem getD_ofFn_append_last {α : Type} {n : Nat} (f : Fin n → α) (x d : α) : (List.ofFn f ++ [x]).getD n d = x := by
  simp [List.getD_eq_getElem?_getD]

/-- To set one of the first leaves the last one. -/
theorem set_ofFn_append {α : Type} {n : Nat} (f : Fin n → α) (x y : α) (i : Fin n) :
    (List.ofFn f ++ [x]).set i y = List.ofFn (Function.update f i y) ++ [x] := by
  refine List.ext_getElem (by simp) ?_
  intro j h1 h2
  rw [List.getElem_set]
  by_cases hij : i.val = j
  · subst hij
    simp
  · rw [if_neg hij, List.getElem_append, List.getElem_append]
    simp only [List.length_ofFn]
    by_cases hn : j < n
    · have hne : (⟨j, hn⟩ : Fin n) ≠ i := fun h => hij (by rw [← h])
      rw [dif_pos hn, dif_pos hn, List.getElem_ofFn, List.getElem_ofFn, Function.update_of_ne hne]
    · rw [dif_neg hn, dif_neg hn]

section Branch

variable (cs : Fin 16 → Tree) (v : Option Value)

@[simp] theorem itemCount_branch : (itemOf sha3 (.branch cs v)).itemCount = 17 := by
  rw [itemOf, Item.itemCount, Item.items, List.length_append, List.length_ofFn]
  rfl

/-- The child of a branch is a reference to its node. -/
@[simp] theorem get_branch (i : Fin 16) : (itemOf sha3 (.branch cs v)).get i = refOf sha3 (itemOf sha3 (cs i)) :=
  getD_ofFn_append _ _ _ i

/-- The value of a branch is behind its children. -/
@[simp] theorem get_branch_sixteen : (itemOf sha3 (.branch cs v)).get 16 = .data (valueBytes v) :=
  getD_ofFn_append_last _ _ _

theorem map_get_branch :
    (List.range 16).map (itemOf sha3 (.branch cs v)).get = List.ofFn fun i => refOf sha3 (itemOf sha3 (cs i)) := by
  refine List.ext_getElem (by rw [List.length_map, List.length_range, List.length_ofFn]) ?_
  intro i h1 h2
  have hi : i < 16 := by simpa using h1
  rw [List.getElem_map, List.getElem_range, List.getElem_ofFn]
  exact get_branch cs v ⟨i, hi⟩

/-- A branch with another child. -/
theorem replace_branch (i : Fin 16) (c : Tree) :
    replace (itemOf sha3 (.branch cs v)) i (refOf sha3 (itemOf sha3 c)) =
      itemOf sha3 (.branch (Function.update cs i c) v) := by
  simp only [replace, itemOf, Item.items, Item.list.injEq]
  rw [set_ofFn_append]
  congr 2
  funext j
  by_cases hj : j = i
  · subst hj
    simp
  · rw [Function.update_of_ne hj, Function.update_of_ne hj]

end Branch

/-- A branch with one child. -/
theorem itemOf_only (i : Fin 16) (c : Tree) :
    itemOf sha3 (Patricia.only i c) = .list ((List.replicate 17 (.data [])).set i (refOf sha3 (itemOf sha3 c))) := by
  rw [Patricia.only, ← replace_branch]
  have h : itemOf sha3 (.branch (fun _ => .empty) none) = .list (List.replicate 17 (.data [])) := by
    simp [itemOf, refOf, Item.encodeData, Item.header, c_rlpDataImmLenStart, List.replicate, valueBytes]
  rw [h]
  rfl

/-! ## References -/

/-- The bytes of a hash are read as the hash. -/
theorem toHash_bytes (h : H256) : (Item.data h.bytes).toHash = .ok h := by
  have hl := h.length_eq
  simp [Item.toHash, hl]

/-- A hash is not empty. -/
theorem isEmpty_hash (h : H256) : (Item.data h.bytes).isEmpty = false := by
  have hl := h.length_eq
  rw [Item.isEmpty]
  cases hb : h.bytes with
  | nil => simp [hb] at hl
  | cons x xs => rfl

/-- A child stands in its node as nothing, as itself, or as its hash. -/
theorem refOf_cases (sha3 : Bytes → H256) (t : Tree) :
    (t = .empty ∧ refOf sha3 (itemOf sha3 t) = .data []) ∨
    (t ≠ .empty ∧ (itemOf sha3 t).encode.length < 32 ∧ refOf sha3 (itemOf sha3 t) = itemOf sha3 t) ∨
    (t ≠ .empty ∧ 32 ≤ (itemOf sha3 t).encode.length ∧
      refOf sha3 (itemOf sha3 t) = .data (hashOf sha3 (itemOf sha3 t)).bytes) := by
  by_cases he : t = .empty
  · subst he
    exact Or.inl ⟨rfl, by simp [itemOf, refOf, Item.encodeData, Item.header]⟩
  · by_cases h : (itemOf sha3 t).encode.length < 32
    · exact Or.inr (Or.inl ⟨he, h, if_pos h⟩)
    · exact Or.inr (Or.inr ⟨he, Nat.le_of_not_lt h, if_neg h⟩)

@[simp] theorem isEmpty_refOf (t : Tree) : (refOf sha3 (itemOf sha3 t)).isEmpty = t.isEmpty := by
  rcases refOf_cases sha3 t with ⟨rfl, h⟩ | ⟨-, -, h⟩ | ⟨he, -, h⟩
  · rw [h]
    rfl
  · rw [h, isEmpty_itemOf]
  · rw [h, isEmpty_hash]
    cases t with
    | empty => exact absurd rfl he
    | _ => rfl

/-- A short node has no entry of its own. -/
theorem own_of_lt {x : Item} (h : x.encode.length < 32) : own sha3 x = 0 := if_pos h

/-- A long node has one under its hash. -/
theorem own_of_le {x : Item} (h : 32 ≤ x.encode.length) : own sha3 x = one (hashOf sha3 x) := if_neg (by omega)

@[simp] theorem own_empty : own sha3 (itemOf sha3 .empty) = 0 := by
  refine own_of_lt ?_
  simp [itemOf, Item.encodeData, Item.header]

@[simp] theorem one_self (h : H256) : one h h = 1 := if_pos rfl

/-! ## The database -/

/-- A database has grown from itself. -/
theorem Grown.refl (db : MemoryDB) : Grown sha3 db db := ⟨fun _ h => h, rfl⟩

/-- What has grown twice has grown. -/
theorem Grown.trans {db db' db'' : MemoryDB} (h : Grown sha3 db db') (h' : Grown sha3 db' db'') : Grown sha3 db db'' :=
  ⟨fun x hx => h'.has x (h.has x hx), h'.enforce_eq.trans h.enforce_eq⟩

/-- What is held stays so as the database grows. -/
theorem Held.grown {db db' : MemoryDB} {x : Item} (h : Held sha3 db x) (hg : Grown sha3 db db') : Held sha3 db' x :=
  fun hx => hg.has x (h hx)

/-- What is stored stays so as the database grows. -/
theorem Stored.grown {db db' : MemoryDB} {t : Tree} (h : Stored sha3 db t) (hg : Grown sha3 db db') : Stored sha3 db' t := by
  induction t with
  | empty => trivial
  | leaf k v => trivial
  | ext k c ih => exact ⟨h.1.grown hg, ih h.2⟩
  | branch cs v ih => exact fun i => ⟨(h i).1.grown hg, ih i (h i).2⟩

/-- A node that is there and has a reference is found. -/
theorem Has.lookup {db : MemoryDB} {x : Item} {b : H256 → Nat} (h : Has sha3 db x) (ha : Accounted sha3 db b)
    (hb : 1 ≤ b (hashOf sha3 x)) : db.lookup (hashOf sha3 x) = some x := by
  obtain ⟨n, hn⟩ := h
  rw [MemoryDB.lookup, hn]
  cases he : db.m_enforceRefs with
  | false => rfl
  | true =>
    have hc := ha.count_eq he (hashOf sha3 x)
    rw [MemoryDB.count, hn] at hc
    have hn' : n > 0 := by
      simp only at hc
      omega
    simp [hn']

theorem insert_main (db : MemoryDB) (h : H256) (v : Item) :
    (db.insert h v).m_main = Function.update db.m_main h (some (v, db.count h + 1)) := rfl

/-- To insert a node counts one reference. -/
theorem count_insert (db : MemoryDB) (h : H256) (v : Item) (h' : H256) :
    (db.insert h v).count h' = db.count h' + one h h' := by
  by_cases hh : h' = h
  · subst hh
    simp [MemoryDB.count, MemoryDB.insert]
  · simp [MemoryDB.count, MemoryDB.insert, one, hh]

/-- To kill a node counts one reference less. -/
theorem count_kill {db : MemoryDB} {h : H256} (hc : 0 < db.count h) (h' : H256) :
    (db.kill h).count h' + one h h' = db.count h' := by
  unfold MemoryDB.count at hc
  cases hm : db.m_main h with
  | none => simp [hm] at hc
  | some p =>
    obtain ⟨v, n⟩ := p
    simp only [hm] at hc
    have hk : db.kill h = { db with m_main := Function.update db.m_main h (some (v, n - 1)) } := by
      simp [MemoryDB.kill, hm, hc]
    rw [hk]
    by_cases hh : h' = h
    · subst hh
      simp only [MemoryDB.count, Function.update_self, hm, one_self]
      omega
    · simp [MemoryDB.count, one, hh]

/-- Killing takes no node away. -/
theorem kill_main (db : MemoryDB) (h h' : H256) :
    ((db.kill h).m_main h' = db.m_main h') ∨
      ∃ v n n', db.m_main h' = some (v, n) ∧ (db.kill h).m_main h' = some (v, n') := by
  unfold MemoryDB.kill
  cases hm : db.m_main h with
  | none => exact Or.inl rfl
  | some p =>
    obtain ⟨v, n⟩ := p
    by_cases hn : n > 0
    · by_cases hh : h' = h
      · subst hh
        exact Or.inr ⟨v, n, n - 1, hm, by simp [hn]⟩
      · exact Or.inl (by simp [hn, Function.update_of_ne hh])
    · exact Or.inl (by simp [hn])

@[simp] theorem kill_enforceRefs (db : MemoryDB) (h : H256) : (db.kill h).m_enforceRefs = db.m_enforceRefs := by
  unfold MemoryDB.kill
  split
  · split <;> rfl
  · rfl

@[simp] theorem kill_inserted (db : MemoryDB) (h : H256) : (db.kill h).inserted = db.inserted := by
  unfold MemoryDB.kill
  split
  · split <;> rfl
  · rfl

/-- To kill a node takes no node away. -/
theorem grown_kill (db : MemoryDB) (h : H256) : Grown sha3 db (db.kill h) := by
  refine ⟨?_, kill_enforceRefs db h⟩
  rintro x ⟨n, hn⟩
  rcases kill_main db h (hashOf sha3 x) with he | ⟨v, m, m', hm, hm'⟩
  · exact ⟨n, he.trans hn⟩
  · rw [hn] at hm
    cases hm
    exact ⟨m', hm'⟩

/-- No node came into the database. -/
def SameNodes (db db' : MemoryDB) : Prop := ∀ h x n, db'.m_main h = some (x, n) → ∃ n', db.m_main h = some (x, n')

theorem SameNodes.refl (db : MemoryDB) : SameNodes db db := fun _ _ n h => ⟨n, h⟩

/-- The same nodes are the same after two steps. -/
theorem SameNodes.trans {db db₁ db₂ : MemoryDB} (h : SameNodes db db₁) (h' : SameNodes db₁ db₂) : SameNodes db db₂ := by
  intro hh x n hx
  obtain ⟨n', hn'⟩ := h' hh x n hx
  exact h hh x n' hn'

/-- To kill a node keeps the nodes. -/
theorem SameNodes.kill (db : MemoryDB) (h : H256) : SameNodes db (db.kill h) := by
  intro h' x n hx
  rcases kill_main db h h' with he | ⟨v, m, m', hm, hm'⟩
  · exact ⟨n, he ▸ hx⟩
  · rw [hm'] at hx
    cases hx
    exact ⟨m, hm⟩

/-- After a node is killed, each entry still is under its hash. -/
theorem Accounted.hash_eq_kill {db : MemoryDB} {b : H256 → Nat} (ha : Accounted sha3 db b) (h : H256) :
    ∀ h' x n, (db.kill h).m_main h' = some (x, n) → hashOf sha3 x = h' ∧ x ∈ (db.kill h).inserted := by
  intro h' x n hx
  rw [kill_inserted]
  rcases kill_main db h h' with he | ⟨v, m, m', hm, hm'⟩
  · exact ha.hash_eq h' x n (he ▸ hx)
  · rw [hm'] at hx
    cases hx
    exact ha.hash_eq h' x m hm

/-- Killing a node takes a reference to it away. -/
theorem Accounted.kill {db : MemoryDB} {b : H256 → Nat} {h : H256} (ha : Accounted sha3 db (b + one h)) :
    Accounted sha3 (db.kill h) b := by
  refine ⟨ha.hash_eq_kill h, ?_⟩
  intro he h'
  rw [kill_enforceRefs] at he
  have h1 := ha.count_eq he h
  have h2 := ha.count_eq he h'
  rw [Pi.add_apply] at h1 h2
  have hpos : 0 < db.count h := by
    rw [h1, one_self]
    omega
  have h3 := count_kill hpos h'
  omega

/-- Where references are not enforced nobody counts them. -/
theorem Accounted.of_not_enforced {db : MemoryDB} {b : H256 → Nat} (ha : Accounted sha3 db b)
    (he : db.m_enforceRefs = false) (b' : H256 → Nat) : Accounted sha3 db b' :=
  ⟨ha.hash_eq, fun he' => absurd (he.symm.trans he') (by simp)⟩

/-- No collision arises from what was inserted before. -/
theorem CollisionFree.of_insert {db : MemoryDB} {h : H256} {v : Item} (hc : CollisionFree sha3 (db.insert h v)) :
    CollisionFree sha3 db := hc.mono fun _ hx => List.mem_cons_of_mem v hx

/-- To kill a node inserts nothing. -/
theorem CollisionFree.of_kill {db : MemoryDB} {h : H256} (hc : CollisionFree sha3 (db.kill h)) : CollisionFree sha3 db := by
  rwa [CollisionFree, kill_inserted] at hc

/-- A node already under the hash of an inserted one is that node. -/
theorem Accounted.insert_has {db : MemoryDB} {b : H256 → Nat} {v : Item} (ha : Accounted sha3 db b)
    (hc : CollisionFree sha3 (db.insert (hashOf sha3 v) v)) {x : Item} (hx : Has sha3 db x) :
    Has sha3 (db.insert (hashOf sha3 v) v) x := by
  obtain ⟨n, hn⟩ := hx
  by_cases hh : hashOf sha3 x = hashOf sha3 v
  · have hxv : x = v := hc (List.mem_cons_of_mem v (ha.hash_eq _ x n hn).2) List.mem_cons_self hh
    subst hxv
    exact ⟨_, Function.update_self _ _ _⟩
  · exact ⟨n, by rw [← hn]; exact Function.update_of_ne hh _ _⟩

/-- Inserting a node adds a reference to it. -/
theorem Accounted.insert {db : MemoryDB} {b : H256 → Nat} (ha : Accounted sha3 db b) (v : Item) :
    Accounted sha3 (db.insert (hashOf sha3 v) v) (b + one (hashOf sha3 v)) := by
  refine ⟨?_, ?_⟩
  · intro h' x n hx
    by_cases hh : h' = hashOf sha3 v
    · subst hh
      rw [insert_main, Function.update_self] at hx
      cases hx
      exact ⟨rfl, List.mem_cons_self⟩
    · rw [insert_main, Function.update_of_ne hh] at hx
      obtain ⟨h1, h2⟩ := ha.hash_eq h' x n hx
      exact ⟨h1, List.mem_cons_of_mem v h2⟩
  · intro he h'
    rw [count_insert, ha.count_eq he, Pi.add_apply]

/-! ## The database operations of the trie -/

/-- Started where the references are counted, `m` returns with them counted as `b` says and no node lost. -/
def Turns (sha3 : Bytes → H256) {α : Type} (m : TrieM α) (db : MemoryDB) (b : H256 → Nat) (R : α → MemoryDB → Prop) : Prop :=
  Provided (CollisionFree sha3) m db fun a db' => Accounted sha3 db' b ∧ Grown sha3 db db' ∧ R a db'

section Turns

variable {α β : Type} {db : MemoryDB} {b b' : H256 → Nat} {R : α → MemoryDB → Prop}

/-- What returns at once leaves what is accounted for. -/
theorem Turns.pure {a : α} (ha : Accounted sha3 db b) (hR : R a db) : Turns sha3 (pure a) db b R :=
  Provided.pure fun _ => ⟨ha, Grown.refl db, hR⟩

/-- One computation after another: what the second finds is what the first leaves. -/
theorem Turns.bind {m : TrieM β} {f : β → TrieM α} {P : β → MemoryDB → Prop} (hm : Turns sha3 m db b' P)
    (hf : ∀ x db', Accounted sha3 db' b' → Grown sha3 db db' → P x db' → Turns sha3 (f x) db' b R)
    (hp : ∀ x, Preserves (CollisionFree sha3) (f x)) : Turns sha3 (m >>= f) db b R := by
  refine Provided.bind hm ?_ hp
  rintro x db' ⟨ha, hg, hP⟩
  refine (hf x db' ha hg hP).mono ?_
  rintro a db'' ⟨ha', hg', hR⟩
  exact ⟨ha', hg.trans hg', hR⟩

/-- What is said of the end can be weakened. -/
theorem Turns.mono {m : TrieM α} {R' : α → MemoryDB → Prop} (h : Turns sha3 m db b R)
    (hR : ∀ a db', Grown sha3 db db' → R a db' → R' a db') : Turns sha3 m db b R' := by
  refine Provided.mono h ?_
  rintro a db' ⟨ha, hg, h⟩
  exact ⟨ha, hg, hR a db' hg h⟩

end Turns

theorem preserves_forceInsertNode (v : Item) : Preserves (CollisionFree sha3) (forceInsertNode sha3 v) :=
  Preserves.bind (Preserves.modify fun _ => CollisionFree.of_insert) fun _ => Preserves.pure _

theorem preserves_forceKillNode (h : H256) : Preserves (CollisionFree sha3) (forceKillNode h) :=
  Preserves.modify fun _ => CollisionFree.of_kill

theorem preserves_killNodeHash (x : Item) (h : H256) : Preserves (CollisionFree sha3) (killNodeHash x h) :=
  Preserves.ite (preserves_forceKillNode h) (Preserves.pure _)

theorem preserves_streamNode (x : Item) : Preserves (CollisionFree sha3) (streamNode sha3 x) :=
  Preserves.ite (Preserves.pure _) (Preserves.bind (preserves_forceInsertNode x) fun _ => Preserves.pure _)

theorem preserves_assert (c : Bool) : Preserves (CollisionFree sha3) (assert c) :=
  Preserves.ite (Preserves.pure _) (Preserves.throw _)

theorem preserves_ofExcept {α : Type} (x : Except TrieError α) : Preserves (CollisionFree sha3) (ofExcept x) := by
  cases x with
  | ok a => exact Preserves.pure a
  | error e => exact Preserves.throw e

theorem preserves_node (h : H256) : Preserves (CollisionFree sha3) (node h) :=
  Preserves.bind Preserves.get fun _ => Preserves.pure _

section Specs

variable {db : MemoryDB} {b : H256 → Nat}

/-- To insert a node accounts for one more reference. -/
theorem forceInsertNode_turns (ha : Accounted sha3 db b) (v : Item) :
    Turns sha3 (forceInsertNode sha3 v) db (b + one (hashOf sha3 v)) fun h db' => h = hashOf sha3 v ∧ Has sha3 db' v := by
  intro hc
  exact ⟨_, _, rfl, ha.insert v, ⟨fun x hx => ha.insert_has hc hx, rfl⟩, rfl, ⟨_, Function.update_self _ _ _⟩⟩

/-- To kill a node accounts for one less. -/
theorem forceKillNode_turns {h : H256} (ha : Accounted sha3 db (b + one h)) :
    Turns sha3 (forceKillNode h) db b fun _ db' => SameNodes db db' :=
  fun _ => ⟨_, _, rfl, ha.kill, grown_kill db h, SameNodes.kill db h⟩

/-- A node gives up its reference. -/
theorem killNode_turns {x : Item} (ha : Accounted sha3 db (b + own sha3 x)) :
    Turns sha3 (killNode sha3 x) db b fun _ db' => SameNodes db db' := by
  unfold killNode killNodeHash
  by_cases hx : x.encode.length ≥ 32
  · rw [own_of_le hx] at ha
    rw [if_pos hx]
    exact forceKillNode_turns ha
  · rw [own_of_lt (by omega), add_zero] at ha
    rw [if_neg hx]
    exact Turns.pure ha (SameNodes.refl db)

/-- A node gets its place. -/
theorem streamNode_turns (ha : Accounted sha3 db b) (x : Item) :
    Turns sha3 (streamNode sha3 x) db (b + own sha3 x) fun r db' => r = refOf sha3 x ∧ Held sha3 db' x := by
  unfold streamNode refOf
  by_cases hx : x.encode.length < 32
  · rw [if_pos hx, if_pos hx, own_of_lt hx, add_zero]
    exact Turns.pure ha ⟨rfl, fun hx' => absurd hx (by omega)⟩
  · rw [if_neg hx, if_neg hx, own_of_le (by omega)]
    refine Turns.bind (forceInsertNode_turns ha x) ?_ fun _ => Preserves.pure _
    rintro h db' ha' - ⟨rfl, hh⟩
    exact Turns.pure ha' ⟨rfl, fun _ => hh⟩

/-- Looking up a node that has a reference. -/
theorem node_eq {x : Item} (hx : Has sha3 db x) (ha : Accounted sha3 db b) (hb : 1 ≤ b (hashOf sha3 x)) :
    node (hashOf sha3 x) db = .ok (some x) db := by
  have h : node (hashOf sha3 x) db = .ok (db.lookup (hashOf sha3 x)) db := rfl
  rw [h, hx.lookup ha hb]

end Specs

end Webthree
