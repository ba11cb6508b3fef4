import Webthree.Lemmas.TrieRead
import Webthree.Lemmas.TrieHash

/-!
# Runs of the trie

The operations on a trie and the finite map they denote: each step keeps the tree in the database in step with the map.
-/

namespace Webthree

open TrieDB

variable {sha3 : Bytes → H256}

/-- An operation on a trie. -/
inductive TrieOp where
  | insert (key : Bytes) (value : Value)
  | remove (key : Bytes)

namespace TrieOp

/-- The key of an operation. -/
def key : TrieOp → Bytes
  | insert k _ => k
  | remove k => k

/-- What the operation does to a trie. -/
def run (sha3 : Bytes → H256) (root : H256) : TrieOp → TrieM H256
  | insert k v => TrieDB.insert sha3 root k v.val
  | remove k => TrieDB.remove sha3 root k

/-- What the operation does to a map. -/
def denote (m : BytesMap) : TrieOp → BytesMap
  | insert k v => m.insert k v.val
  | remove k => m.erase k

end TrieOp

/-- A run of operations on a trie. -/
def runFrom (sha3 : Bytes → H256) : List TrieOp → H256 → TrieM H256
  | [], root => pure root
  | op :: ops, root => op.run sha3 root >>= runFrom sha3 ops

/-- A run from `init()`. -/
def trieRun (sha3 : Bytes → H256) (ops : List TrieOp) : TrieM H256 := TrieDB.init sha3 >>= runFrom sha3 ops

/-- The map that operations denote. -/
def contents (ops : List TrieOp) : BytesMap := ops.foldl TrieOp.denote ∅

/-! ## Nothing makes a collision go away -/

/-- One level of a deletion keeps hashes free of collisions, when the levels below do. -/
theorem preserves_deleteAtAux {f : Option Item → NibbleSlice → TrieM (Option Item)}
    (hf : ∀ x k, Preserves (CollisionFree sha3) (f x k)) (x : Item) (k : NibbleSlice) :
    Preserves (CollisionFree sha3) (deleteAtAux sha3 f x k) := by
  refine Preserves.bind (Preserves.ite (Preserves.pure _) (Preserves.ite (hf _ _) ?_)) ?_
  · exact Preserves.bind (preserves_ofExcept _) fun _ => Preserves.bind (preserves_node _) fun _ => hf _ _
  · intro r
    cases r with
    | none => exact Preserves.pure _
    | some r => exact Preserves.bind (preserves_streamNode _) fun _ => Preserves.pure _

/-- A deletion keeps hashes free of collisions. -/
theorem preserves_deleteAt (fuel : Nat) (x : Option Item) (k : NibbleSlice) :
    Preserves (CollisionFree sha3) (deleteAt sha3 fuel x k) := by
  induction fuel generalizing x k with
  | zero => exact Preserves.throw _
  | succ fuel ih =>
    have haux := preserves_deleteAtAux ih
    cases x with
    | none => exact Preserves.throw _
    | some x =>
      rw [deleteAt]
      refine Preserves.ite (Preserves.pure _) (Preserves.bind (preserves_assert _) fun _ => Preserves.ite ?_ ?_)
      · refine Preserves.ite (Preserves.bind (preserves_killNode x) fun _ => Preserves.pure _) (Preserves.ite ?_ (Preserves.pure _))
        exact Preserves.bind (haux _ _) (preserves_deletePairEnd x)
      · refine Preserves.ite ?_ (Preserves.bind (preserves_ofExcept _) fun n => ?_)
        · refine Preserves.bind (preserves_killNode x) fun _ => Preserves.ite ?_ (Preserves.pure _)
          exact Preserves.bind (preserves_mergeUsed _ _) fun _ => Preserves.pure _
        · exact Preserves.bind (haux _ _) (preserves_deleteBranchEnd x n)

/-- An insertion keeps hashes free of collisions. -/
theorem preserves_insert (root : H256) (key value : Bytes) : Preserves (CollisionFree sha3) (TrieDB.insert sha3 root key value) := by
  refine Preserves.bind (preserves_node _) ?_
  intro r
  cases r with
  | none => exact Preserves.throw _
  | some r =>
    refine Preserves.bind (preserves_mergeAt _ _ _ _ _ _) fun _ => ?_
    exact Preserves.bind (preserves_doIf _ (preserves_forceKillNode _)) fun _ => preserves_forceInsertNode _

/-- A removal keeps hashes free of collisions. -/
theorem preserves_remove (root : H256) (key : Bytes) : Preserves (CollisionFree sha3) (TrieDB.remove sha3 root key) := by
  refine Preserves.bind (preserves_node _) fun rv => Preserves.bind (preserves_deleteAt _ _ _) ?_
  intro r
  cases r with
  | none => exact Preserves.pure _
  | some r => exact Preserves.bind (preserves_doIf _ (preserves_forceKillNode _)) fun _ => preserves_forceInsertNode _

/-- Every operation keeps hashes free of collisions. -/
theorem preserves_run (op : TrieOp) (root : H256) : Preserves (CollisionFree sha3) (op.run sha3 root) := by
  cases op with
  | insert k v => exact preserves_insert root k v.val
  | remove k => exact preserves_remove root k

/-- Every run keeps hashes free of collisions. -/
theorem preserves_runFrom (ops : List TrieOp) (root : H256) : Preserves (CollisionFree sha3) (runFrom sha3 ops root) := by
  induction ops generalizing root with
  | nil => exact Preserves.pure _
  | cons op ops ih => exact Preserves.bind (preserves_run op root) ih

/-! ## One step -/

/-- Only equal bytes compare as equal. -/
theorem compare_eq_iff {a b : Bytes} : compare a b = .eq ↔ a = b :=
  ⟨Std.LawfulEqOrd.eq_of_compare, fun h => by rw [h]; exact Std.ReflOrd.compare_self⟩

/-- The empty tree denotes the empty map. -/
theorem denotes_empty : Denotes ∅ .empty := by
  refine ⟨?_, ?_⟩
  · intro k b
    simp
  · intro x hx
    exact absurd rfl hx

/-- Setting an entry of a map and of its tree. -/
theorem Denotes.insert {m : BytesMap} {t : Tree} (h : Denotes m t) (ht : t.Canonical) (k : Bytes) (v : Value) :
    Denotes (m.insert k v.val) (t.insert (asNibbles k) v) := by
  obtain ⟨hget, hkeys⟩ := h
  rw [Denotes, (Patricia.insert_spec ht (asNibbles k) v).1]
  refine ⟨?_, ?_⟩
  · intro k' b
    rw [Std.TreeMap.getElem?_insert]
    by_cases hk : k = k'
    · subst hk
      rw [if_pos (compare_eq_iff.mpr rfl), Function.update_self]
      constructor
      · intro he
        exact ⟨v, Option.some.inj he, rfl⟩
      · rintro ⟨u, rfl, hu⟩
        rw [Option.some.inj hu]
    · rw [if_neg (fun h => hk (compare_eq_iff.mp h)), Function.update_of_ne (fun h => hk (asNibbles_injective h).symm)]
      exact hget k' b
  · intro x hx
    by_cases hxk : x = asNibbles k
    · exact ⟨k, hxk.symm⟩
    · rw [Function.update_of_ne hxk] at hx
      exact hkeys x hx

/-- Erasing an entry of a map and of its tree. -/
theorem Denotes.erase {m : BytesMap} {t : Tree} (h : Denotes m t) (ht : t.Canonical) (k : Bytes) :
    Denotes (m.erase k) (t.erase (asNibbles k)) := by
  obtain ⟨hget, hkeys⟩ := h
  rw [Denotes, (Patricia.erase_spec ht (asNibbles k)).1]
  refine ⟨?_, ?_⟩
  · intro k' b
    rw [Std.TreeMap.getElem?_erase]
    by_cases hk : k = k'
    · subst hk
      rw [if_pos (compare_eq_iff.mpr rfl), Function.update_self]
      simp
    · rw [if_neg (fun h => hk (compare_eq_iff.mp h)), Function.update_of_ne (fun h => hk (asNibbles_injective h).symm)]
      exact hget k' b
  · intro x hx
    by_cases hxk : x = asNibbles k
    · exact ⟨k, hxk.symm⟩
    · rw [Function.update_of_ne hxk] at hx
      exact hkeys x hx

/-- What a map says of a key, its tree says too. -/
theorem Denotes.getElem?_eq {m : BytesMap} {t : Tree} (h : Denotes m t) (k : Bytes) :
    m[k]?.getD [] = valueBytes (t.get (asNibbles k)) := by
  cases hk : t.get (asNibbles k) with
  | some v => rw [(h.1 k v.val).mpr ⟨v, rfl, hk⟩]; rfl
  | none =>
    cases hm : m[k]? with
    | none => rfl
    | some b =>
      obtain ⟨v, -, hv⟩ := (h.1 k b).mp hm
      rw [hk] at hv
      cases hv

/-- A key is absent from the tree when it is absent from the map. -/
theorem Denotes.get_eq_none {m : BytesMap} {t : Tree} (h : Denotes m t) (k : Bytes) :
    t.get (asNibbles k) = none ↔ m[k]? = none := by
  constructor
  · intro hk
    cases hm : m[k]? with
    | none => rfl
    | some b =>
      obtain ⟨v, -, hv⟩ := (h.1 k b).mp hm
      rw [hk] at hv
      cases hv
  · intro hm
    cases hk : t.get (asNibbles k) with
    | none => rfl
    | some v =>
      rw [(h.1 k v.val).mpr ⟨v, rfl, hk⟩] at hm
      cases hm

/-- The trie under the root holds the map. -/
def Holds (sha3 : Bytes → H256) (db : MemoryDB) (root : H256) (m : BytesMap) : Prop :=
  ∃ t, Rooted sha3 db root t ∧ Denotes m t

/-- `at` reads what the map has, and nothing where it has nothing. -/
theorem Holds.at_eq {db : MemoryDB} {root : H256} {m : BytesMap} (h : Holds sha3 db root m) (k : Bytes) :
    at' db root k = .ok (m[k]?.getD []) := by
  obtain ⟨t, hr, hd⟩ := h
  rw [hr.at_eq, hd.getElem?_eq]

/-- A key is read as empty only where the map has no entry for it. -/
theorem Holds.getElem?_eq_none {db : MemoryDB} {root : H256} {m : BytesMap} (h : Holds sha3 db root m) {k : Bytes}
    (hk : m[k]?.getD [] = []) : m[k]? = none := by
  obtain ⟨t, -, hd⟩ := h
  cases hm : m[k]? with
  | none => rfl
  | some b =>
    obtain ⟨v, rfl, -⟩ := (hd.1 k b).mp hm
    rw [hm] at hk
    exact absurd hk v.property

/-- The root is the hash that is computed from the contents. -/
theorem Holds.hash256_eq {db : MemoryDB} {root : H256} {m : BytesMap} (h : Holds sha3 db root m) :
    hash256 sha3 m = some root := by
  obtain ⟨t, hr, hd⟩ := h
  rw [Webthree.hash256_eq hr.canonical hd, hr.root_eq]

/-- The root is one that the database knows. -/
theorem Holds.root_eq {db : MemoryDB} {root : H256} {m : BytesMap} (h : Holds sha3 db root m) :
    TrieDB.root db root = .ok root := by
  obtain ⟨t, hr, -⟩ := h
  rw [TrieDB.root, hr.lookup_eq]
  rfl

/-- Two trees of one map are read alike. -/
theorem Denotes.get_congr {m m' : BytesMap} {t t' : Tree} (h : Denotes m t) (h' : Denotes m' t') (hm : ∀ k : Bytes, m'[k]? = m[k]?) :
    t'.get = t.get := by
  funext x
  by_cases hx : ∃ k, asNibbles k = x
  · obtain ⟨k, rfl⟩ := hx
    cases hk : t.get (asNibbles k) with
    | none => rw [h'.get_eq_none, hm, ← h.get_eq_none, hk]
    | some v =>
      have hmk := (h.1 k v.val).mpr ⟨v, rfl, hk⟩
      rw [← hm] at hmk
      obtain ⟨u, hu, hk'⟩ := (h'.1 k v.val).mp hmk
      rw [hk', Subtype.ext hu]
  · have hnone : ∀ {m : BytesMap} {t : Tree}, Denotes m t → t.get x = none := fun hd => by
      by_contra hne
      exact hx (hd.2 x hne)
    rw [hnone h, hnone h']

/-- A root says what it holds, and nothing about how it came to hold it. -/
theorem Holds.root_unique {db db' : MemoryDB} {root root' : H256} {m m' : BytesMap} (h : Holds sha3 db root m)
    (h' : Holds sha3 db' root' m') (hm : ∀ k : Bytes, m'[k]? = m[k]?) : root' = root := by
  obtain ⟨t, hr, hd⟩ := h
  obtain ⟨t', hr', hd'⟩ := h'
  rw [hr.root_eq, hr'.root_eq, hr'.canonical.ext_get hr.canonical (hd.get_congr hd' hm)]

/-! ## Keys that can be removed -/

/-- What keeps `remove` from going wrong, in the terms of a map on words: no entry ends where the way of `x` goes on unless
others go on there too; entries do not part where `x` ends without one of its own; and the value of an entry that is left
alone where `x` went on is not taken for a node. -/
structure SafeWord (db : MemoryDB) (m : List Nibble → Option Value) (x : List Nibble) : Prop where
  leaf : ∀ p, m p ≠ none → p <+: x → p ≠ x → ∃ q, m q ≠ none ∧ p <+: q ∧ q ≠ p
  branch : m x = none → ∀ i j y z, m (x ++ i :: y) ≠ none → m (x ++ j :: z) ≠ none → i = j
  value : ∀ p w, m p = some w → m x ≠ none → p <+: x → p ≠ x → (∀ q, m q ≠ none → p <+: q → q = p ∨ q = x) → Harmless db w

/-- What is safe to remove is safe below a prefix. -/
theorem SafeWord.under {db : MemoryDB} {m : List Nibble → Option Value} {k x : List Nibble}
    (h : SafeWord db (under k m) (k ++ x)) : SafeWord db m x := by
  refine ⟨?_, ?_, ?_⟩
  · intro p hp hpx hne
    obtain ⟨q, hq, hpq, hqp⟩ := h.leaf (k ++ p) (by rwa [under_append]) ((List.prefix_append_right_inj k).mpr hpx) (by simpa using hne)
    rcases under_cases k m q with ⟨r, rfl, hu⟩ | ⟨-, hu⟩
    · exact ⟨r, by rwa [hu] at hq, (List.prefix_append_right_inj k).mp hpq, by simpa using hqp⟩
    · exact absurd hu hq
  · intro hx i j y z hy hz
    refine h.branch (by rwa [under_append]) i j y z ?_ ?_
    · rwa [List.append_assoc, under_append]
    · rwa [List.append_assoc, under_append]
  · intro p w hp hx hpx hne hall
    refine h.value (k ++ p) w (by rwa [under_append]) (by rwa [under_append]) ((List.prefix_append_right_inj k).mpr hpx)
      (by simpa using hne) ?_
    intro q hq hpq
    rcases under_cases k m q with ⟨r, rfl, hu⟩ | ⟨-, hu⟩
    · rcases hall r (by rwa [hu] at hq) ((List.prefix_append_right_inj k).mp hpq) with rfl | rfl
      · exact Or.inl rfl
      · exact Or.inr rfl
    · exact absurd hu hq

/-- What is safe to remove in a branch is safe in its child. -/
theorem SafeWord.child {db : MemoryDB} {cs : Fin 16 → Tree} {v : Option Value} {i : Nibble} {x : List Nibble}
    (h : SafeWord db (Patricia.branch cs v : Tree).get (i :: x)) : SafeWord db (cs i).get x := by
  refine ⟨?_, ?_, ?_⟩
  · intro p hp hpx hne
    obtain ⟨q, hq, hpq, hqp⟩ := h.leaf (i :: p) hp (List.cons_prefix_cons.mpr ⟨rfl, hpx⟩) (by simpa using hne)
    obtain ⟨r, rfl⟩ := hpq
    exact ⟨p ++ r, hq, List.prefix_append p r, by simpa using hqp⟩
  · intro hx a b y z hy hz
    exact h.branch hx a b y z hy hz
  · intro p w hp hx hpx hne hall
    refine h.value (i :: p) w hp hx (List.cons_prefix_cons.mpr ⟨rfl, hpx⟩) (by simpa using hne) ?_
    rintro q hq ⟨r, rfl⟩
    rcases hall (p ++ r) hq (List.prefix_append p r) with hr | hr
    · exact Or.inl (by rw [List.cons_append, hr])
    · exact Or.inr (by rw [List.cons_append, hr])

/-- A safe key can be removed from a canonical tree. -/
theorem SafeWord.removable {db : MemoryDB} {t : Tree} (ht : t.Canonical) {x : List Nibble} (h : SafeWord db t.get x) :
    Removable db t x := by
  induction t generalizing x with
  | empty => trivial
  | leaf k w =>
    intro hp
    by_contra hne
    obtain ⟨q, hq, -, hqk⟩ := h.leaf k (by simp [Patricia.get_leaf_apply]) hp hne
    exact hq (by rw [Patricia.get_leaf_apply, if_neg hqk])
  | ext k c ih =>
    rintro ⟨y, rfl⟩
    rw [List.drop_left]
    exact ih ht.2.2 (SafeWord.under (by rwa [Patricia.get_ext] at h))
  | branch cs v ih =>
    cases x with
    | nil =>
      rintro rfl
      obtain ⟨s, hs, ho⟩ := ht.other none
      cases s with
      | none => exact hs rfl
      | some i =>
        obtain ⟨s', hs', ho'⟩ := ht.other (some i)
        cases s' with
        | none => exact ho' rfl
        | some j =>
          obtain ⟨y, hy⟩ := (ht.1 i).exists_get ho
          obtain ⟨z, hz⟩ := (ht.1 j).exists_get ho'
          exact hs' (by rw [h.branch rfl i j y z hy hz])
    | cons i x =>
      refine ⟨ih i (ht.1 i) h.child, ?_⟩
      rintro w rfl hx hempty
      refine h.value [] w rfl hx List.nil_prefix (by simp) ?_
      intro q hq _
      cases q with
      | nil => exact Or.inl rfl
      | cons j q =>
        right
        have hj : j = i := by
          by_contra hne
          have he := hempty j
          rw [Function.update_of_ne hne] at he
          exact hq (by rw [Patricia.get_branch_cons, he]; rfl)
        subst hj
        have he := hempty j
        rw [Function.update_self] at he
        by_contra hne
        have hqx : q ≠ x := fun h => hne (by rw [h])
        exact absurd he (erase_ne_empty (ht.1 j) hq hqx)

/-- Nibbles are prefixes when the bytes are. -/
theorem asNibbles_prefix_iff {a b : Bytes} : asNibbles a <+: asNibbles b ↔ a <+: b := by
  constructor
  · intro h
    induction a generalizing b with
    | nil => exact List.nil_prefix
    | cons x a ih =>
      cases b with
      | nil => simp [asNibbles] at h
      | cons y b =>
        simp only [asNibbles, List.cons_prefix_cons] at h
        rw [nibbles_inj x y h.1 h.2.1]
        exact List.cons_prefix_cons.mpr ⟨rfl, ih h.2.2⟩
  · rintro ⟨c, rfl⟩
    rw [asNibbles_append]
    exact List.prefix_append _ _

/-- A key whose removal does not run into one of the three faults of `deleteAt`, with the map and the database before it:
- every entry whose key is a proper prefix of the key has another entry behind it (else the leaf is taken for an extension);
- if the key is missing, the entries behind it go on with one and the same nibble (else a nibble behind its end is read);
- if the entry goes and leaves only the entry at a proper prefix there, that entry's value is `Harmless` (else it is taken for a
  node). -/
structure RemoveSafe (db : MemoryDB) (m : BytesMap) (k : Bytes) : Prop where
  leaf : ∀ p, m[p]? ≠ none → p <+: k → p ≠ k → ∃ q, m[q]? ≠ none ∧ p <+: q ∧ q ≠ p
  branch : m[k]? = none → ∀ q q', m[q]? ≠ none → m[q']? ≠ none → ∀ i j y z, asNibbles q = asNibbles k ++ i :: y →
    asNibbles q' = asNibbles k ++ j :: z → i = j
  value : ∀ (p : Bytes) (w : Value), m[p]? = some w.val → m[k]? ≠ none → p <+: k → p ≠ k →
    (∀ q, m[q]? ≠ none → p <+: q → q = p ∨ q = k) → Harmless db w

/-- A key with an entry can be removed where no entry stands at a proper prefix of it. -/
theorem removeSafe_of_present {db : MemoryDB} {m : BytesMap} {k : Bytes} (hk : m[k]? ≠ none)
    (h : ∀ p, m[p]? ≠ none → p <+: k → p = k) : RemoveSafe db m k := by
  refine ⟨?_, fun hn => absurd hn hk, ?_⟩
  · intro p hp hpk hne
    exact absurd (h p hp hpk) hne
  · intro p w hp _ hpk hne _
    exact absurd (h p (by rw [hp]; exact Option.some_ne_none _) hpk) hne

/-- A removal that is safe for the map is safe for the tree. -/
theorem RemoveSafe.safeWord {db : MemoryDB} {m : BytesMap} {t : Tree} {k : Bytes} (h : RemoveSafe db m k) (hd : Denotes m t) :
    SafeWord db t.get (asNibbles k) := by
  have hne : ∀ k, t.get (asNibbles k) ≠ none ↔ m[k]? ≠ none := fun k => not_congr (hd.get_eq_none k)
  refine ⟨?_, ?_, ?_⟩
  · intro p hp hpk hpne
    obtain ⟨p, rfl⟩ := hd.2 p hp
    obtain ⟨q, hq, hpq, hqp⟩ := h.leaf p ((hne p).mp hp) (asNibbles_prefix_iff.mp hpk) (fun h => hpne (by rw [h]))
    exact ⟨asNibbles q, (hne q).mpr hq, asNibbles_prefix_iff.mpr hpq, fun h => hqp (asNibbles_injective h)⟩
  · intro hx i j y z hy hz
    obtain ⟨q, hq⟩ := hd.2 _ hy
    obtain ⟨q', hq'⟩ := hd.2 _ hz
    rw [← hq] at hy
    rw [← hq'] at hz
    exact h.branch ((hd.get_eq_none k).mp hx) q q' ((hne q).mp hy) ((hne q').mp hz) i j y z hq hq'
  · intro p w hp hx hpk hpne hall
    obtain ⟨p, rfl⟩ := hd.2 p (by rw [hp]; exact Option.some_ne_none w)
    refine h.value p w ((hd.1 p w.val).mpr ⟨w, rfl, hp⟩) ((hne k).mp hx) (asNibbles_prefix_iff.mp hpk)
      (fun h => hpne (by rw [h])) ?_
    intro q hq hpq
    rcases hall (asNibbles q) ((hne q).mpr hq) (asNibbles_prefix_iff.mpr hpq) with h | h
    · exact Or.inl (asNibbles_injective h)
    · exact Or.inr (asNibbles_injective h)

/-! ## The steps -/

/-- `insert` keeps the trie in step with the map. -/
theorem insert_holds {db : MemoryDB} {root : H256} {m : BytesMap} (h : Holds sha3 db root m) (k : Bytes) (v : Value)
    (hclear : db.m_enforceRefs = true → ∀ q, m[q]? ≠ none → k <+: q → k = q) :
    Provided (CollisionFree sha3) (TrieDB.insert sha3 root k v.val) db fun root' db' =>
      Holds sha3 db' root' (m.insert k v.val) ∧ db'.m_enforceRefs = db.m_enforceRefs := by
  obtain ⟨t, hr, hd⟩ := h
  refine (insert_turns hr k v ?_).mono ?_
  · intro he y hy hky
    obtain ⟨q, rfl⟩ := hd.2 y hy
    rw [hclear he q (fun h => hy ((hd.get_eq_none q).mpr h)) (asNibbles_prefix_iff.mp hky)]
  · rintro root' db' ⟨hr', he⟩
    exact ⟨⟨_, hr', hd.insert hr.canonical k v⟩, he⟩

/-- `remove` of a safe key keeps the trie in step with the map, and leaves it alone if the key is missing. -/
theorem remove_holds {db : MemoryDB} {root : H256} {m : BytesMap} (h : Holds sha3 db root m) {k : Bytes}
    (hs : RemoveSafe db m k) :
    Provided (CollisionFree sha3) (TrieDB.remove sha3 root k) db fun root' db' =>
      Holds sha3 db' root' (m.erase k) ∧ db'.m_enforceRefs = db.m_enforceRefs ∧ (m[k]? = none → root' = root) := by
  obtain ⟨t, hr, hd⟩ := h
  have hrem := (hs.safeWord hd).removable hr.canonical
  by_cases hk : t.get (asNibbles k) = none
  · have he := remove_absent hr k hrem hk
    have hd' := hd.erase hr.canonical k
    rw [Patricia.erase_of_get_eq_none hr.canonical hk] at hd'
    exact fun _ => ⟨root, db, he, ⟨t, hr, hd'⟩, rfl, fun _ => rfl⟩
  · refine (remove_turns hr k hrem hk).mono ?_
    rintro root' db' ⟨hr', he⟩
    exact ⟨⟨_, hr', hd.erase hr.canonical k⟩, he, fun hm => absurd ((hd.get_eq_none k).mpr hm) hk⟩

/-! ## Runs of safe steps -/

/-- An operation that does not run into a fault, with the map and the database before it. Where references are enforced,
`insert` of a key that other keys go on from would take a reference from a node which was never put into the database. -/
def TrieOp.Safe (e : Bool) (db : MemoryDB) (m : BytesMap) : TrieOp → Prop
  | insert k _ => e = true → ∀ q, m[q]? ≠ none → k <+: q → k = q
  | remove k => RemoveSafe db m k

/-- Every step of a run is safe where it is made. -/
def SafeFrom (sha3 : Bytes → H256) (e : Bool) : List TrieOp → H256 → MemoryDB → BytesMap → Prop
  | [], _, _, _ => True
  | op :: ops, root, db, m =>
    op.Safe e db m ∧ ∀ root' db', op.run sha3 root db = .ok root' db' → SafeFrom sha3 e ops root' db' (op.denote m)

/-- Every step of a run from `init()` is safe where it is made. -/
def SafeRun (sha3 : Bytes → H256) (e : Bool) (ops : List TrieOp) : Prop :=
  ∀ root db, TrieDB.init sha3 (MemoryDB.fresh e) = .ok root db → SafeFrom sha3 e ops root db ∅

/-- A safe step. -/
theorem run_holds {e : Bool} {db : MemoryDB} {root : H256} {m : BytesMap} (h : Holds sha3 db root m) (he : db.m_enforceRefs = e)
    {op : TrieOp} (hs : op.Safe e db m) :
    Provided (CollisionFree sha3) (op.run sha3 root) db fun root' db' =>
      Holds sha3 db' root' (op.denote m) ∧ db'.m_enforceRefs = e := by
  subst he
  cases op with
  | insert k v => exact insert_holds h k v hs
  | remove k =>
    refine (remove_holds h hs).mono ?_
    rintro root' db' ⟨h', he, -⟩
    exact ⟨h', he⟩

/-- A run of safe steps. -/
theorem runFrom_holds {e : Bool} (ops : List TrieOp) {db : MemoryDB} {root : H256} {m : BytesMap} (h : Holds sha3 db root m)
    (he : db.m_enforceRefs = e) (hs : SafeFrom sha3 e ops root db m) :
    Provided (CollisionFree sha3) (runFrom sha3 ops root) db fun root' db' =>
      Holds sha3 db' root' (ops.foldl TrieOp.denote m) ∧ db'.m_enforceRefs = e := by
  induction ops generalizing db root m with
  | nil => exact Provided.pure fun _ => ⟨h, he⟩
  | cons op ops ih =>
    have hstep : Provided (CollisionFree sha3) (op.run sha3 root) db fun root' db' =>
        op.run sha3 root db = .ok root' db' ∧ Holds sha3 db' root' (op.denote m) ∧ db'.m_enforceRefs = e := by
      intro hc
      obtain ⟨root', db', hr, h'⟩ := run_holds h he hs.1 hc
      exact ⟨root', db', hr, hr, h'⟩
    refine Provided.bind hstep ?_ (preserves_runFrom ops)
    rintro root' db' ⟨hr, h', he'⟩
    exact ih h' he' (hs.2 root' db' hr)

/-- A new trie holds the empty map. -/
theorem init_holds (sha3 : Bytes → H256) (e : Bool) :
    ∃ root db, TrieDB.init sha3 (MemoryDB.fresh e) = .ok root db ∧ Holds sha3 db root ∅ ∧ db.m_enforceRefs = e := by
  obtain ⟨root, db, hi, hr, he⟩ := init_turns sha3 e
  exact ⟨root, db, hi, ⟨.empty, hr, denotes_empty⟩, he⟩

/-- A run of safe steps from `init()`. -/
theorem trieRun_holds {e : Bool} {ops : List TrieOp} (hs : SafeRun sha3 e ops)
    (hc : CollisionFree sha3 (endState (trieRun sha3 ops (MemoryDB.fresh e)))) :
    ∃ root db, trieRun sha3 ops (MemoryDB.fresh e) = .ok root db ∧ Holds sha3 db root (contents ops) ∧ db.m_enforceRefs = e := by
  obtain ⟨root, db, hi, h0, he⟩ := init_holds sha3 e
  have hrun : trieRun sha3 ops (MemoryDB.fresh e) = runFrom sha3 ops root db := by
    simp only [trieRun, Bind.bind, EStateM.bind, hi]
  rw [hrun] at hc ⊢
  exact runFrom_holds ops h0 he (hs root db hi) hc

/-- Two runs are one after the other. -/
theorem runFrom_append (ops ops' : List TrieOp) (root : H256) :
    runFrom sha3 (ops ++ ops') root = runFrom sha3 ops root >>= runFrom sha3 ops' := by
  induction ops generalizing root with
  | nil => rw [List.nil_append, runFrom, pure_bind]
  | cons op ops ih =>
    simp only [List.cons_append, runFrom, bind_assoc]
    congr 1
    funext root'
    exact ih root'

/-- A run can be continued. -/
theorem trieRun_append (ops ops' : List TrieOp) : trieRun sha3 (ops ++ ops') = trieRun sha3 ops >>= runFrom sha3 ops' := by
  simp only [trieRun, bind_assoc]
  congr 1
  funext root
  exact runFrom_append ops ops' root

/-- A safe run is safe in both its parts. -/
theorem SafeFrom.append {e : Bool} {ops ops' : List TrieOp} {root : H256} {db : MemoryDB} {m : BytesMap}
    (h : SafeFrom sha3 e (ops ++ ops') root db m) :
    SafeFrom sha3 e ops root db m ∧ ∀ root' db', runFrom sha3 ops root db = .ok root' db' →
      SafeFrom sha3 e ops' root' db' (ops.foldl TrieOp.denote m) := by
  induction ops generalizing root db m with
  | nil =>
    refine ⟨trivial, ?_⟩
    intro root' db' hr
    cases hr
    exact h
  | cons op ops ih =>
    refine ⟨⟨h.1, fun root' db' hr => (ih (h.2 root' db' hr)).1⟩, ?_⟩
    intro root' db' hr
    obtain ⟨root₁, db₁, h₁, hr⟩ := bind_eq_result_ok.mp hr
    exact (ih (h.2 root₁ db₁ h₁)).2 root' db' hr

/-- The parts of a safe run, the second one in the state where the first one ends. -/
theorem SafeRun.append {e : Bool} {ops ops' : List TrieOp} (h : SafeRun sha3 e (ops ++ ops')) :
    SafeRun sha3 e ops ∧ ∀ root db, trieRun sha3 ops (MemoryDB.fresh e) = .ok root db →
      SafeFrom sha3 e ops' root db (contents ops) := by
  refine ⟨fun root db hi => (h root db hi).append.1, ?_⟩
  intro root' db' hr
  obtain ⟨root, db, hi, hr⟩ := bind_eq_result_ok.mp hr
  exact (h root db hi).append.2 root' db' hr

/-! ## Keys of one length -/

/-- All keys of a map have the length `n`. -/
def FixedLength (n : Nat) (m : BytesMap) : Prop := ∀ k : Bytes, m[k]? ≠ none → k.length = n

/-- Operations on keys of one length keep the length of the keys. -/
theorem FixedLength.denote {n : Nat} {m : BytesMap} (h : FixedLength n m) {op : TrieOp} (hop : op.key.length = n) :
    FixedLength n (op.denote m) := by
  intro k hk
  cases op with
  | insert k' v =>
    rw [TrieOp.denote, Std.TreeMap.getElem?_insert] at hk
    by_cases hkk : k' = k
    · rw [← hkk]
      exact hop
    · rw [if_neg (fun h => hkk (compare_eq_iff.mp h))] at hk
      exact h k hk
  | remove k' =>
    rw [TrieOp.denote, Std.TreeMap.getElem?_erase] at hk
    by_cases hkk : k' = k
    · rw [if_pos (compare_eq_iff.mpr hkk)] at hk
      exact absurd rfl hk
    · rw [if_neg (fun h => hkk (compare_eq_iff.mp h))] at hk
      exact h k hk

/-- Keys of one length can all be removed. -/
theorem FixedLength.removeSafe {n : Nat} {m : BytesMap} (h : FixedLength n m) (db : MemoryDB) {k : Bytes} (hk : k.length = n) :
    RemoveSafe db m k := by
  refine ⟨?_, ?_, ?_⟩
  · intro p hp hpk hne
    exact absurd (hpk.eq_of_length ((h p hp).trans hk.symm)) hne
  · intro _ q q' hq _ i j y z hqy _
    have hlen := congrArg List.length hqy
    rw [length_asNibbles, List.length_append, length_asNibbles, h q hq, hk, List.length_cons] at hlen
    omega
  · intro p w hp _ hpk hne _
    exact absurd (hpk.eq_of_length ((h p (by rw [hp]; exact Option.some_ne_none _)).trans hk.symm)) hne

/-- Operations on keys of one length are safe. -/
theorem FixedLength.safe {n : Nat} {m : BytesMap} (h : FixedLength n m) (e : Bool) (db : MemoryDB) {op : TrieOp}
    (hop : op.key.length = n) : op.Safe e db m := by
  cases op with
  | insert k v =>
    intro _ q hq hkq
    exact hkq.eq_of_length (hop.trans (h q hq).symm)
  | remove k => exact h.removeSafe db hop

/-- Runs over keys of one length are safe. -/
theorem FixedLength.safeFrom {n : Nat} {m : BytesMap} (h : FixedLength n m) (e : Bool) {ops : List TrieOp}
    (hops : ∀ op ∈ ops, op.key.length = n) (root : H256) (db : MemoryDB) : SafeFrom sha3 e ops root db m := by
  induction ops generalizing root db m with
  | nil => trivial
  | cons op ops ih =>
    have hop := hops op List.mem_cons_self
    refine ⟨h.safe e db hop, ?_⟩
    intro root' db' _
    exact ih (h.denote hop) (fun o ho => hops o (List.mem_cons_of_mem op ho)) root' db'

/-- A run over keys of one length is safe. -/
theorem safeRun_of_length {n : Nat} {ops : List TrieOp} (hops : ∀ op ∈ ops, op.key.length = n) (e : Bool) :
    SafeRun sha3 e ops := by
  intro root db _
  have hn : FixedLength n ∅ := by
    intro k hk
    simp at hk
  exact hn.safeFrom e hops root db

end Webthree
