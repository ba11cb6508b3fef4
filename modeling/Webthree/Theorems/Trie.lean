import Webthree.Lemmas.Iterator

/-!
# The trie over every run

The root, the contents and the references of a trie after any run of `insert` and `remove`.
-/

namespace Webthree

open TrieDB

namespace Sample

/-- `sha3` on the strings of the nodes of the sample runs, each string and each hash as a big-endian number. -/
def sha3Table : List (Nat × Nat) :=
  [(0x80, 0x56e81f171bcc55a6ff8345e692c0f86e5b48e01b996cadc001622fb5e363b421),
   (0xec822012a861616161616161616161616161616161616161616161616161616161616161616161616161616161,
    0x06cf9f30b6aa81c9de154e366076d1f934e42a297bf39e2646f52e7b6e9b14a0),
   (0xea32a861616161616161616161616161616161616161616161616161616161616161616161616161616161,
    0x4b20b1e49a6319d8a9d7acb19f8d259ae0655fcd017a72a53b7b6ee713ac4c82),
   (0xea20a861616161616161616161616161616161616161616161616161616161616161616161616161616161,
    0xb92f0d1de36d5a8d76c0a74121f1196066f51e83e69d29805cdd0143459cdd2a),
   (0xf68080a0b92f0d1de36d5a8d76c0a74121f1196066f51e83e69d29805cdd0143459cdd2ac52083646f6780808080808080808080808080,
    0x3e9b380b3332d9e5c36dddbee33d2d32da9563356f992c9ac04dc18ac39001ed),
   (0xe211a03e9b380b3332d9e5c36dddbee33d2d32da9563356f992c9ac04dc18ac39001ed,
    0xd86df30a9194ce60dcd865d45cdfa8e5498cd4fd110298b5f1fbc7a8b84d3552),
   (0xc782201383646f67, 0xc83e77c0309bd6b1ebfef497ddd81812182cd9be82a2537ce774b51e690d369e),
   (0xc88320123483646f67, 0x137ca156c7db9327b9e2e70363162ff73c6d79b06d5254b1424424fcf349ee79),
   (0xdf820012db808080c53483646f6780c53683646f678080808080808080808080,
    0xe89b778f21004612d1387c7e7d63e7839b162b4c7629ca72ce19d21dd802c1e9),
   (0xf83e808080c53483646f67808080808080808080808080a861616161616161616161616161616161616161616161616161616161616161616161616161616161,
    0x1e8fa45fc2ac9456f3079494f15c954883c5bd9ea0dde05db472e61f723d890a),
   (0xe4820012a01e8fa45fc2ac9456f3079494f15c954883c5bd9ea0dde05db472e61f723d890a,
    0x454edefab06f9ae328192e42f1f92f04660fcdf94a6a2d8fcb59be53d0a4f23d)]

/-- `sha3` as far as the table goes. -/
def sha3 (b : Bytes) : H256 := .ofU256 (BitVec.ofNat 256 ((sha3Table.lookup (fromBigEndian b)).getD 0))

/-- A value with a leaf too long to stand inside another node. -/
def longValue : Value := ⟨List.replicate 40 0x61, by decide⟩

def dog : Value := ⟨[0x64, 0x6f, 0x67], by decide⟩

/-- A run that splits a leaf, misses a key and joins what it split. -/
def trieOps : List TrieOp := [.insert [0x12] longValue, .insert [0x13] dog, .remove [0x14], .remove [0x12]]

/-- A key and one behind it. -/
def nestedOps : List TrieOp := [.insert [0x12] longValue, .insert [0x12, 0x34] dog]

def leafPrefix : List TrieOp := [.insert [0x12] longValue, .remove [0x12, 0x34]]

def endsAtBranch : List TrieOp := [.insert [0x12, 0x34] dog, .insert [0x12, 0x56] dog, .remove [0x12]]

def aloneInBranch : List TrieOp := [.insert [0x12] longValue, .insert [0x12, 0x34] dog, .remove [0x12, 0x34]]

end Sample

/-- Nodes whose hashes are all different. -/
theorem collisionFree_of_nodup {sha3 : Bytes → H256} {db : MemoryDB} (h : (db.inserted.map (hashOf sha3)).Nodup) :
    CollisionFree sha3 db :=
  fun _ hx _ hy hxy => List.inj_on_of_nodup_map h hx hy hxy

/-! ## Keys of one length -/

/-- After `init()` and any run of `insert` and `remove` with keys of one length, the trie is the one of the map that the
operations denote: `root()` is its `hash256`, `at` reads it, and every other run that denotes the same map ends with the same
root. `hfree` says that no two of the nodes that a run puts into the database have the same hash. -/
theorem root_eq_hash256 (sha3 : Bytes → H256) (n : Nat) (ops : List TrieOp) (hops : ∀ op ∈ ops, op.key.length = n) (e : Bool)
    (hfree : CollisionFree sha3 (endState (trieRun sha3 ops (MemoryDB.fresh e)))) :
    ∃ r db, trieRun sha3 ops (MemoryDB.fresh e) = .ok r db ∧
      TrieDB.root db r = .ok r ∧
      hash256 sha3 (contents ops) = some r ∧
      (∀ k : Bytes, TrieDB.at' db r k = .ok ((contents ops)[k]?.getD [])) ∧
      ∀ (ops' : List TrieOp) (e' : Bool), (∀ op ∈ ops', op.key.length = n) →
        CollisionFree sha3 (endState (trieRun sha3 ops' (MemoryDB.fresh e'))) →
        (∀ k : Bytes, (contents ops')[k]? = (contents ops)[k]?) →
        ∃ db', trieRun sha3 ops' (MemoryDB.fresh e') = .ok r db' := by
  obtain ⟨r, db, hrun, h, -⟩ := trieRun_holds (safeRun_of_length hops e) hfree
  refine ⟨r, db, hrun, h.root_eq, h.hash256_eq, h.at_eq, ?_⟩
  intro ops' e' hops' hfree' hsame
  obtain ⟨r', db', hrun', h', -⟩ := trieRun_holds (safeRun_of_length hops' e') hfree'
  rw [h.root_unique h' hsame] at hrun'
  exact ⟨db', hrun'⟩

/-- The run of the sample. -/
theorem root_eq_hash256_sample :
    ∃ r db, trieRun Sample.sha3 Sample.trieOps (MemoryDB.fresh false) = .ok r db ∧
      hash256 Sample.sha3 (contents Sample.trieOps) = some r ∧ TrieDB.at' db r [0x13] = .ok [0x64, 0x6f, 0x67] := by
  obtain ⟨r, db, hrun, -, hhash, hat, -⟩ := root_eq_hash256 Sample.sha3 1 Sample.trieOps (by decide) false
    (collisionFree_of_nodup (by decide +kernel))
  exact ⟨r, db, hrun, hhash, by rw [hat]; decide +kernel⟩

/-! ## References -/

/-- A hash that has references is found. -/
theorem lookup_ne_none {db : MemoryDB} {h : H256} (hc : 0 < db.count h) : db.lookup h ≠ none := by
  unfold MemoryDB.count at hc
  unfold MemoryDB.lookup
  cases hm : db.m_main h with
  | none => simp [hm] at hc
  | some p => simp_all

/-- With references enforced, after `init()` and any run of `insert` and `remove` with keys of one length, the hashes with
references are those in the trie, each is counted as often as it occurs there (the root once for itself), all of them are found,
and `leftOvers` ends and leaves nothing. -/
theorem references_exact (sha3 : Bytes → H256) (n : Nat) (ops : List TrieOp) (hops : ∀ op ∈ ops, op.key.length = n)
    (hfree : CollisionFree sha3 (endState (trieRun sha3 ops (MemoryDB.fresh true)))) :
    ∃ r db, trieRun sha3 ops (MemoryDB.fresh true) = .ok r db ∧ ∃ turns, ∀ fuel, turns ≤ fuel →
      (∀ h, db.keys h = true ↔ h ∈ trieRefs db fuel r) ∧
      (∀ h, db.count h = (trieRefs db fuel r).count h) ∧
      (∀ h ∈ trieRefs db fuel r, db.lookup h ≠ none) ∧
      leftOvers sha3 db r fuel = .ok fun _ => false := by
  obtain ⟨r, db, hrun, ⟨t, h, -⟩, he⟩ := trieRun_holds (safeRun_of_length hops true) hfree
  rw [hrun] at hfree
  refine ⟨r, db, hrun, t.depth, ?_⟩
  intro fuel hfuel
  have hcount : ∀ x, db.count x = (trieRefs db fuel r).count x := by
    intro x
    rw [h.accounted.count_eq he, h.count_trieRefs hfuel]
  refine ⟨?_, hcount, ?_, h.leftOvers_eq hfree he hfuel⟩
  · intro x
    rw [MemoryDB.keys, decide_eq_true_iff, hcount x]
    exact List.count_pos_iff
  · intro x hx
    refine lookup_ne_none ?_
    rw [hcount x]
    exact List.count_pos_iff.mpr hx

/-- The run of the sample leaves the reference to its root. -/
theorem references_exact_sample :
    ∃ r db, trieRun Sample.sha3 Sample.trieOps (MemoryDB.fresh true) = .ok r db ∧
      ∃ turns, ∀ fuel, turns ≤ fuel → leftOvers Sample.sha3 db r fuel = .ok fun _ => false := by
  obtain ⟨r, db, hrun, turns, h⟩ := references_exact Sample.sha3 1 Sample.trieOps (by decide)
    (collisionFree_of_nodup (by decide +kernel))
  exact ⟨r, db, hrun, turns, fun fuel hfuel => (h fuel hfuel).2.2.2⟩

/-! ## Keys of any length -/

/-- After any run of safe steps from `init()`, a safe removal completes, the key is gone, every other key is read as before and
the root of a trie without the key stays. What a safe removal is says `RemoveSafe`. -/
theorem remove_of_safeRun (sha3 : Bytes → H256) (e : Bool) (ops : List TrieOp) (k : Bytes)
    (hsafe : SafeRun sha3 e (ops ++ [.remove k]))
    (hfree : CollisionFree sha3 (endState (trieRun sha3 (ops ++ [.remove k]) (MemoryDB.fresh e)))) :
    ∃ r db r' db', trieRun sha3 ops (MemoryDB.fresh e) = .ok r db ∧
      TrieDB.remove sha3 r k db = .ok r' db' ∧
      TrieDB.at' db' r' k = .ok [] ∧
      (∀ k', k' ≠ k → TrieDB.at' db' r' k' = TrieDB.at' db r k') ∧
      (TrieDB.at' db r k = .ok [] → r' = r) := by
  rw [trieRun_append] at hfree
  obtain ⟨r, db, hrun, h, he⟩ := trieRun_holds hsafe.append.1 (Preserves.of_bind (preserves_runFrom _) hfree)
  have hs : RemoveSafe db (contents ops) k := (hsafe.append.2 r db hrun).1
  simp only [Bind.bind, EStateM.bind, hrun] at hfree
  obtain ⟨r', db', hrem, h', -, hsame⟩ := remove_holds h hs (Preserves.of_bind (preserves_runFrom _) hfree)
  refine ⟨r, db, r', db', hrun, hrem, ?_, ?_, ?_⟩
  · rw [h'.at_eq, Std.TreeMap.getElem?_erase, if_pos (compare_eq_iff.mpr rfl)]
    rfl
  · intro k' hk
    rw [h'.at_eq, h.at_eq, Std.TreeMap.getElem?_erase, if_neg (fun hc => hk (compare_eq_iff.mp hc).symm)]
  · intro hk
    rw [h.at_eq] at hk
    exact hsame (h.getElem?_eq_none (Except.ok.inj hk))

/-- A key with another one behind it is removed. -/
theorem remove_of_safeRun_sample :
    ∃ r db r' db', trieRun Sample.sha3 Sample.nestedOps (MemoryDB.fresh false) = .ok r db ∧
      TrieDB.remove Sample.sha3 r [0x12] db = .ok r' db' ∧ TrieDB.at' db' r' [0x12] = .ok [] := by
  have hsafe : SafeRun Sample.sha3 false (Sample.nestedOps ++ [.remove [0x12]]) := by
    refine fun _ _ _ => ⟨nofun, fun _ _ _ => ⟨nofun, fun _ db _ => ⟨removeSafe_of_present ?_ ?_, fun _ _ _ => trivial⟩⟩⟩
    · decide
    · intro p hp hpk
      -- of the two keys, the longer one is not a prefix of the shorter one
      simp only [TrieOp.denote, Std.TreeMap.getElem?_insert, compare_eq_iff] at hp
      by_cases h₁ : [0x12, 0x34] = p
      · subst h₁
        exact absurd hpk (by decide)
      · by_cases h₂ : [0x12] = p
        · exact h₂.symm
        · simp [h₁, h₂] at hp
  obtain ⟨r, db, r', db', hrun, hrem, hat, -⟩ := remove_of_safeRun Sample.sha3 false Sample.nestedOps [0x12] hsafe
    (collisionFree_of_nodup (by decide +kernel))
  exact ⟨r, db, r', db', hrun, hrem, hat⟩

/-- What a run throws. -/
def thrown : EStateM.Result TrieError MemoryDB H256 → Option TrieError
  | .ok _ _ => none
  | .error e _ => some e

/-- Three removals that do not complete, each in a state that `insert` reaches and with no two nodes of one hash: a leaf whose
key is a proper prefix of the missing key; a missing key that ends at a branch; a value left alone in a branch. -/
theorem remove_throws :
    (∀ ops ∈ [Sample.leafPrefix, Sample.endsAtBranch, Sample.aloneInBranch],
      ((endState (trieRun Sample.sha3 ops (MemoryDB.fresh false))).inserted.map (hashOf Sample.sha3)).Nodup) ∧
    thrown (trieRun Sample.sha3 Sample.leafPrefix (MemoryDB.fresh false)) = some .BadCast ∧
    thrown (trieRun Sample.sha3 Sample.endsAtBranch (MemoryDB.fresh false)) = some .nibbleOutOfRange ∧
    thrown (trieRun Sample.sha3 Sample.aloneInBranch (MemoryDB.fresh false)) = some .BadCast := by
  decide +kernel

/-! ## Iterators -/

/-- After any run of safe steps from `init()` (every run of `insert` alone is one, where references are not enforced), the list
`l` of the entries of the trie in ascending lexicographic order of their keys is what an iterator reads from `begin()` to
`end()`, and from `lower_bound(k)` on it reads those of them whose keys are not before `k`. -/
theorem iterator_reads (sha3 : Bytes → H256) (e : Bool) (ops : List TrieOp) (hsafe : SafeRun sha3 e ops)
    (hfree : CollisionFree sha3 (endState (trieRun sha3 ops (MemoryDB.fresh e)))) :
    ∃ r db l, trieRun sha3 ops (MemoryDB.fresh e) = .ok r db ∧
      l.Pairwise (fun a b : Bytes × Bytes => a.1 < b.1) ∧
      (∀ k b : Bytes, (k, b) ∈ l ↔ (contents ops)[k]? = some b) ∧
      (∃ turns, ∀ fuel, turns ≤ fuel → (begin' db fuel r >>= readAll db fuel fuel) = .ok l) ∧
      ∀ k, ∃ turns, ∀ fuel, turns ≤ fuel →
        (lower_bound db fuel r k >>= readAll db fuel fuel) = .ok (l.filter fun a => ¬a.1 < k) := by
  obtain ⟨r, db, hrun, ⟨t, h, hd⟩, -⟩ := trieRun_holds hsafe hfree
  exact ⟨r, db, t.entries.map byteEntry, hrun, hd.entries_sorted, fun k b => hd.mem_entries, h.read_begin hd,
    h.read_lower_bound hd⟩

/-- Iterating over a key and one behind it. -/
theorem iterator_reads_sample :
    ∃ r db l, trieRun Sample.sha3 Sample.nestedOps (MemoryDB.fresh false) = .ok r db ∧
      ([0x12, 0x34], [0x64, 0x6f, 0x67]) ∈ l ∧
      ∃ turns, ∀ fuel, turns ≤ fuel → (begin' db fuel r >>= readAll db fuel fuel) = .ok l := by
  have hsafe : SafeRun Sample.sha3 false Sample.nestedOps := fun _ _ _ => ⟨nofun, fun _ _ _ => ⟨nofun, fun _ _ _ => trivial⟩⟩
  obtain ⟨r, db, l, hrun, -, hmem, hbegin, -⟩ := iterator_reads Sample.sha3 false Sample.nestedOps hsafe
    (collisionFree_of_nodup (by decide +kernel))
  exact ⟨r, db, l, hrun, (hmem _ _).mpr (by decide +kernel), hbegin⟩

end Webthree
