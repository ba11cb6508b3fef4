import Webthree.Lemmas.TrieDelete
import Webthree.Trie.TrieHash

/-!
# Reading a tree from the database
-/

namespace Webthree

open TrieDB

variable {sha3 : Bytes → H256}

/-! ## Nodes that are found -/

/-- What stands for a tree inside the node above it leads to its first node. -/
def Leads (sha3 : Bytes → H256) (db : MemoryDB) (t : Tree) : Prop :=
  32 ≤ (itemOf sha3 t).encode.length → db.lookup (hashOf sha3 (itemOf sha3 t)) = some (itemOf sha3 t)

/-- Every node below the first one is found. -/
def Found (sha3 : Bytes → H256) (db : MemoryDB) : Tree → Prop
  | .empty => True
  | .leaf _ _ => True
  | .ext _ c => Leads sha3 db c ∧ Found sha3 db c
  | .branch cs _ => ∀ i, Leads sha3 db (cs i) ∧ Found sha3 db (cs i)

theorem Held.leads {db : MemoryDB} {t : Tree} {b : H256 → Nat} (h : Held sha3 db (itemOf sha3 t))
    (ha : Accounted sha3 db (b + own sha3 (itemOf sha3 t))) : Leads sha3 db t := by
  intro hle
  refine (h hle).lookup ha ?_
  rw [Pi.add_apply, own_of_le hle, one_self]
  omega

/-- Nodes that are there and have their references are found. -/
theorem Stored.found {db : MemoryDB} {t : Tree} {b : H256 → Nat} (h : Stored sha3 db t)
    (ha : Accounted sha3 db (b + below sha3 t)) : Found sha3 db t := by
  induction t generalizing b with
  | empty => trivial
  | leaf k v => trivial
  | ext k c ih =>
    refine ⟨h.1.leads (b := b + below sha3 c) (ha.congr ?_), ih h.2 (b := b + own sha3 (itemOf sha3 c)) (ha.congr ?_)⟩
    all_goals rw [below]; abel
  | branch cs v ih =>
    intro i
    obtain ⟨rest, hb, -⟩ := below_branch sha3 cs v i
    refine ⟨(h i).1.leads (b := b + rest + below sha3 (cs i)) (ha.congr ?_),
      ih i (h i).2 (b := b + rest + own sha3 (itemOf sha3 (cs i))) (ha.congr ?_)⟩
    all_goals rw [hb]; abel

theorem Rooted.found {db : MemoryDB} {root : H256} {t : Tree} (h : Rooted sha3 db root t) : Found sha3 db t :=
  h.stored.found (h.accounted.congr (add_comm _ _))

/-! ## `at` -/

theorem Leads.deref_eq {db : MemoryDB} {t : Tree} (h : Leads sha3 db t) (hne : t ≠ .empty) :
    deref db (refOf sha3 (itemOf sha3 t)) = .ok (some (itemOf sha3 t)) := by
  unfold deref
  rcases refOf_cases sha3 t with ⟨rfl, -⟩ | ⟨-, -, hr⟩ | ⟨-, hle, hr⟩
  · exact absurd rfl hne
  · rw [hr, if_pos (isList_itemOf hne)]
  · rw [hr, toHash_bytes, if_neg (by simp [Item.isList]), Except.map, h hle]

theorem atAux_pair (db : MemoryDB) (fuel : Nat) (k : List Nibble) (l : Bool) (y : Item) (x : NibbleSlice) :
    atAux db (fuel + 1) (some (.list [.data (hexPrefix k l), y])) x =
      if x = k ∧ l = true then .ok y.toString
      else if k <+: x ∧ l = false then deref db y >>= fun c => atAux db fuel c (x.drop k.length)
      else .ok [] := by
  rw [atAux]
  have h1 : (Item.list [.data (hexPrefix k l), y]).isEmpty = false := rfl
  have h2 : (Item.list [.data (hexPrefix k l), y]).isList = true := rfl
  have h3 : (Item.list [.data (hexPrefix k l), y]).itemCount = 2 := rfl
  simp only [h1, h2, h3, keyOf_pair, isLeaf_pair, Bool.and_eq_true, NibbleSlice.eq_iff, NibbleSlice.contains_iff,
    decide_true, Bool.true_or, Bool.and_self, reduceIte, Bool.not_eq_true', Bool.false_eq_true, Bool.not_true]
  rfl

/-- `at` finds the entries of the tree. -/
theorem atAux_eq {db : MemoryDB} {t : Tree} (ht : t.Canonical) {x : List Nibble} {fuel : Nat} (hfuel : x.length + 1 ≤ fuel)
    (hf : Found sha3 db t) : atAux db fuel (some (itemOf sha3 t)) x = .ok (valueBytes (t.get x)) := by
  induction t generalizing x fuel with
  | empty =>
    obtain ⟨fuel, rfl⟩ : ∃ n, fuel = n + 1 := ⟨fuel - 1, by omega⟩
    rfl
  | leaf k w =>
    obtain ⟨fuel, rfl⟩ : ∃ n, fuel = n + 1 := ⟨fuel - 1, by omega⟩
    have hitem : itemOf sha3 (.leaf k w) = .list [.data (hexPrefix k true), .data w.val] := rfl
    rw [hitem, atAux_pair, Patricia.get_leaf_apply]
    by_cases hx : x = k
    · rw [if_pos ⟨hx, rfl⟩, if_pos hx]
      rfl
    · rw [if_neg (fun h => hx h.1), if_neg (by simp), if_neg hx]
      rfl
  | ext k c ih =>
    obtain ⟨fuel, rfl⟩ : ∃ n, fuel = n + 1 := ⟨fuel - 1, by omega⟩
    obtain ⟨hk, hb, hc⟩ := ht
    have hitem : itemOf sha3 (.ext k c) = .list [.data (hexPrefix k false), refOf sha3 (itemOf sha3 c)] := rfl
    rw [hitem, atAux_pair, if_neg (by simp), Patricia.get_ext]
    rcases under_cases k c.get x with ⟨y, rfl, hu⟩ | ⟨hn, hu⟩
    · have hy : y.length + 1 ≤ (k ++ y).length := by
        cases k with
        | nil => exact absurd rfl hk
        | cons j k => simp
      rw [hu, if_pos ⟨List.prefix_append k y, rfl⟩, List.drop_left, hf.1.deref_eq hb.ne_empty]
      exact ih hc (by omega) hf.2
    · rw [hu, if_neg (fun h => hn h.1)]
      rfl
  | branch cs w ih =>
    obtain ⟨fuel, rfl⟩ : ∃ n, fuel = n + 1 := ⟨fuel - 1, by omega⟩
    have h1 : (itemOf sha3 (.branch cs w)).isList = true := isList_itemOf (by simp)
    have h2 : (Patricia.branch cs w : Tree).isEmpty = false := rfl
    rw [atAux]
    simp only [isEmpty_itemOf, h1, h2, itemCount_branch, decide_true, Bool.or_true, Bool.and_self, Bool.not_true, reduceIte,
      Bool.false_eq_true, get_branch_sixteen, NibbleSlice.size]
    rw [if_neg (by decide)]
    cases x with
    | nil => rfl
    | cons i x =>
      simp only [List.length_cons] at hfuel
      rw [if_neg (by simp), NibbleSlice.nibbleAt, List.getElem?_cons_zero, NibbleSlice.mid, List.drop_succ_cons, List.drop_zero]
      simp only [ok_bind, get_branch, isEmpty_refOf, Patricia.get_branch_cons]
      by_cases he : cs i = .empty
      · rw [he]
        rfl
      · rw [if_neg (by rwa [Patricia.isEmpty_iff]), (hf i).1.deref_eq he]
        exact ih i (ht.1 i) (by omega) (hf i).2

theorem Rooted.at_eq {db : MemoryDB} {root : H256} {t : Tree} (h : Rooted sha3 db root t) (key : Bytes) :
    at' db root key = .ok (valueBytes (t.get (asNibbles key))) := by
  unfold at'
  rw [ofBytes_zero, h.lookup_eq]
  exact atAux_eq h.canonical (Nat.le_succ _) h.found

/-! ## The references of a tree -/

theorem count_cons_hash (h h' : H256) (l : List H256) : (h :: l).count h' = one h h' + l.count h' := by
  rw [List.count_cons, one, Nat.add_comm]
  by_cases hh : h' = h
  · rw [if_pos hh, if_pos (beq_iff_eq.mpr hh.symm)]
  · rw [if_neg hh, if_neg (fun hc => hh (beq_iff_eq.mp hc).symm)]

theorem count_entryRefs {db : MemoryDB} {f : Item → List H256} {t : Tree} (hl : Leads sha3 db t)
    (hf : ∀ h, (f (itemOf sha3 t)).count h = below sha3 t h) (h : H256) :
    (entryRefs db f (refOf sha3 (itemOf sha3 t))).count h = own sha3 (itemOf sha3 t) h + below sha3 t h := by
  unfold entryRefs
  rcases refOf_cases sha3 t with ⟨rfl, hr⟩ | ⟨hne, hlt, hr⟩ | ⟨hne, hle, hr⟩
  · rw [hr, own_empty]
    rfl
  · rw [hr, if_neg, if_pos (isList_itemOf hne), hf, own_of_lt hlt, Pi.zero_apply, Nat.zero_add]
    rwa [isEmpty_itemOf, Patricia.isEmpty_iff]
  · rw [hr, isEmpty_hash, toHash_bytes, own_of_le hle]
    simp only [Bool.false_eq_true, if_false, Item.isList, hl hle, Option.map_some, Option.getD_some, count_cons_hash, hf]

/-- The references in the nodes of a tree are the ones counted. -/
theorem count_nodeRefs {db : MemoryDB} {t : Tree} {fuel : Nat} (hfuel : t.depth ≤ fuel) (hf : Found sha3 db t) (h : H256) :
    (nodeRefs db fuel (itemOf sha3 t)).count h = below sha3 t h := by
  induction t generalizing fuel h with
  | empty =>
    obtain ⟨fuel, rfl⟩ := Patricia.exists_eq_succ_of_depth_le hfuel
    have hz : nodeRefs db (fuel + 1) (itemOf sha3 .empty) = (List.finRange 16).flatMap fun _ => [] := rfl
    rw [hz, List.flatMap_eq_nil_iff.mpr fun _ _ => rfl]
    rfl
  | leaf k w =>
    obtain ⟨fuel, rfl⟩ := Patricia.exists_eq_succ_of_depth_le hfuel
    have hitem : itemOf sha3 (.leaf k w) = .list [.data (hexPrefix k true), .data w.val] := rfl
    rw [nodeRefs, hitem, isLeaf_pair]
    rfl
  | ext k c ih =>
    obtain ⟨fuel, rfl⟩ := Patricia.exists_eq_succ_of_depth_le hfuel
    have hitem : itemOf sha3 (.ext k c) = .list [.data (hexPrefix k false), refOf sha3 (itemOf sha3 c)] := rfl
    rw [nodeRefs, hitem, isLeaf_pair]
    exact count_entryRefs hf.1 (ih (Nat.le_of_succ_le_succ hfuel) hf.2) h
  | branch cs w ih =>
    obtain ⟨fuel, rfl⟩ := Patricia.exists_eq_succ_of_depth_le hfuel
    have hchild : ∀ i : Fin 16, (entryRefs db (nodeRefs db fuel) ((itemOf sha3 (.branch cs w)).get i.val)).count h =
        own sha3 (itemOf sha3 (cs i)) h + below sha3 (cs i) h := by
      intro i
      rw [get_branch]
      refine count_entryRefs (hf i).1 (ih i ?_ (hf i).2) h
      have := Patricia.depth_child_lt cs w i
      omega
    rw [nodeRefs, itemCount_branch, if_neg (by decide), List.count_flatMap, below, Finset.sum_apply, Fin.sum_univ_def]
    congr 1
    refine List.map_congr_left ?_
    intro i _
    exact hchild i

/-- The references of a trie are the ones the database counts. -/
theorem Rooted.count_trieRefs {db : MemoryDB} {root : H256} {t : Tree} (h : Rooted sha3 db root t) {fuel : Nat}
    (hfuel : t.depth ≤ fuel) (x : H256) : (trieRefs db fuel root).count x = (below sha3 t + one root) x := by
  unfold trieRefs entryRefs
  rw [isEmpty_hash, toHash_bytes]
  simp only [Bool.false_eq_true, if_false, Item.isList, h.lookup_eq, Option.map_some, Option.getD_some, count_cons_hash,
    count_nodeRefs hfuel h.found, Pi.add_apply]
  exact Nat.add_comm _ _

/-! ## Scanning -/

/-- A set without the hashes that are referred to. -/
def strike (keyMask : H256Hash) (b : H256 → Nat) : H256Hash := fun h => keyMask h && b h == 0

theorem strike_zero (keyMask : H256Hash) : strike keyMask 0 = keyMask := by
  funext h
  simp [strike]

theorem strike_strike (keyMask : H256Hash) (a b : H256 → Nat) : strike (strike keyMask a) b = strike keyMask (a + b) := by
  funext h
  simp only [strike, Pi.add_apply, Bool.and_assoc]
  congr 1
  rw [Bool.eq_iff_iff]
  simp [Nat.add_eq_zero_iff]

theorem update_eq_strike (keyMask : H256Hash) (k : H256) : Function.update keyMask k false = strike keyMask (one k) := by
  funext h
  by_cases hh : h = k
  · subst hh
    simp [strike]
  · simp [strike, one, hh]

/-- `descendEntry` of what stands for a tree, in a trie that is not empty. -/
theorem descendEntry_eq {db : MemoryDB} {root : H256} (hroot : root ≠ c_shaNull sha3)
    {f : Item → Bool → H256Hash → Except TrieError H256Hash} {t : Tree} (hne : t ≠ .empty) (hl : Leads sha3 db t) {wasExt : Bool}
    (hf : ∀ keyMask, f (itemOf sha3 t) wasExt keyMask = .ok (strike keyMask (below sha3 t))) (keyMask : H256Hash) :
    descendEntry sha3 db root f (refOf sha3 (itemOf sha3 t)) wasExt keyMask =
      .ok (strike keyMask (own sha3 (itemOf sha3 t) + below sha3 t)) := by
  unfold descendEntry
  rcases refOf_cases sha3 t with ⟨rfl, -⟩ | ⟨-, hlt, hr⟩ | ⟨-, hle, hr⟩
  · exact absurd rfl hne
  · have hlist : (itemOf sha3 t).isList = true := isList_itemOf hne
    rw [hr, Item.isData, hlist, own_of_lt hlt, zero_add]
    exact hf keyMask
  · have hk : ¬(hashOf sha3 (itemOf sha3 t) = root ∧ hashOf sha3 (itemOf sha3 t) = c_shaNull sha3) := by
      rintro ⟨h1, h2⟩
      exact hroot (h1.symm.trans h2)
    have hlen := (hashOf sha3 (itemOf sha3 t)).length_eq
    rw [hr, toHash_bytes, own_of_le hle]
    simp only [Item.isData, Item.isList, Item.toString, hlen, ok_bind, descendKey, hl hle, update_eq_strike, hf, strike_strike,
      Bool.not_false, decide_true, Bool.and_self, if_true]
    rw [if_neg (by simpa using hk)]

theorem foldlM_ok {α β ε : Type} {f : β → α → Except ε β} {g : β → α → β} {l : List α} (h : ∀ b, ∀ a ∈ l, f b a = .ok (g b a))
    (b : β) : l.foldlM f b = .ok (l.foldl g b) := by
  induction l generalizing b with
  | nil => rfl
  | cons a l ih =>
    rw [List.foldlM_cons, h b a List.mem_cons_self, ok_bind, List.foldl_cons]
    exact ih (fun b' a' ha => h b' a' (List.mem_cons_of_mem a ha)) (g b a)

theorem foldl_strike {α : Type} (b : α → H256 → Nat) (l : List α) (keyMask : H256Hash) :
    l.foldl (fun keyMask a => strike keyMask (b a)) keyMask = strike keyMask (l.map b).sum := by
  induction l generalizing keyMask with
  | nil => rw [List.map_nil, List.sum_nil, strike_zero, List.foldl_nil]
  | cons a l ih => rw [List.foldl_cons, ih, strike_strike, List.map_cons, List.sum_cons]

theorem range_sixteen : List.range 16 = (List.finRange 16).map Fin.val := by decide

/-- `descendList` takes out the hashes that the nodes of a tree refer to. -/
theorem descendList_eq {db : MemoryDB} {root : H256} (hroot : root ≠ c_shaNull sha3) {t : Tree} (ht : t.Canonical)
    (hne : t ≠ .empty) (wasExt : Bool) (hext : wasExt = true → t.IsBranch) {fuel : Nat} (hfuel : t.depth ≤ fuel)
    (hf : Found sha3 db t) (keyMask : H256Hash) :
    descendList sha3 db root fuel (itemOf sha3 t) wasExt keyMask = .ok (strike keyMask (below sha3 t)) := by
  induction t generalizing wasExt fuel keyMask with
  | empty => exact absurd rfl hne
  | leaf k w =>
    obtain ⟨fuel, rfl⟩ := Patricia.exists_eq_succ_of_depth_le hfuel
    have hitem : itemOf sha3 (.leaf k w) = .list [.data (hexPrefix k true), .data w.val] := rfl
    have hw : wasExt = false := Bool.eq_false_iff.mpr hext
    rw [descendList, hitem, isLeaf_pair, hw, below, strike_zero]
    rfl
  | ext k c ih =>
    obtain ⟨fuel, rfl⟩ := Patricia.exists_eq_succ_of_depth_le hfuel
    obtain ⟨-, hb, hc⟩ := ht
    have hitem : itemOf sha3 (.ext k c) = .list [.data (hexPrefix k false), refOf sha3 (itemOf sha3 c)] := rfl
    have hw : wasExt = false := Bool.eq_false_iff.mpr hext
    rw [descendList, hitem, isLeaf_pair, hw]
    exact descendEntry_eq hroot hb.ne_empty hf.1
      (fun keyMask => ih hc hb.ne_empty true (fun _ => hb) (Nat.le_of_succ_le_succ hfuel) hf.2 keyMask) keyMask
  | branch cs w ih =>
    obtain ⟨fuel, rfl⟩ := Patricia.exists_eq_succ_of_depth_le hfuel
    have hlist : (itemOf sha3 (.branch cs w)).isList = true := isList_itemOf (by simp)
    -- one turn of the loop
    have hturn : ∀ (keyMask : H256Hash) (i : Fin 16),
        (if !((itemOf sha3 (.branch cs w)).get i.val).isEmpty then
          descendEntry sha3 db root (descendList sha3 db root fuel) ((itemOf sha3 (.branch cs w)).get i.val) false keyMask
        else .ok keyMask) = .ok (strike keyMask (own sha3 (itemOf sha3 (cs i)) + below sha3 (cs i))) := by
      intro keyMask i
      rw [get_branch, isEmpty_refOf]
      by_cases he : cs i = .empty
      · rw [he, own_empty, below, add_zero, strike_zero]
        rfl
      · have hd := Patricia.depth_child_lt cs w i
        have hn : (cs i).isEmpty = false := by rwa [← Bool.not_eq_true, Patricia.isEmpty_iff]
        rw [hn]
        exact descendEntry_eq hroot he (hf i).1
          (fun keyMask => ih i (ht.1 i) he false (fun h => absurd h Bool.false_ne_true) (by omega) (hf i).2 keyMask) keyMask
    rw [descendList, hlist, itemCount_branch, range_sixteen, List.foldlM_map, foldlM_ok fun keyMask i _ => hturn keyMask i,
      foldl_strike, below, Fin.sum_univ_def]
    rfl

/-- The root of a tree with entries is not that of the empty one. -/
theorem Rooted.root_ne {db : MemoryDB} {root : H256} {t : Tree} (h : Rooted sha3 db root t) (hc : CollisionFree sha3 db)
    (hne : t ≠ .empty) : root ≠ c_shaNull sha3 := by
  intro he
  have hmem : ∀ {x}, Has sha3 db x → x ∈ db.inserted := fun ⟨n, hn⟩ => (h.accounted.hash_eq _ _ n hn).2
  have hitem := hc (hmem h.has) (hmem h.null) (h.root_eq.symm.trans he)
  have hl : (itemOf sha3 t).isList = true := isList_itemOf hne
  rw [hitem] at hl
  cases hl

/-- `leftOvers` leaves nothing. -/
theorem Rooted.leftOvers_eq {db : MemoryDB} {root : H256} {t : Tree} (h : Rooted sha3 db root t) (hc : CollisionFree sha3 db)
    (he : db.m_enforceRefs = true) {fuel : Nat} (hfuel : t.depth ≤ fuel) :
    leftOvers sha3 db root fuel = .ok fun _ => false := by
  have hkeys : strike db.keys (one root + below sha3 t) = fun _ => false := by
    funext x
    rw [strike, MemoryDB.keys, h.accounted.count_eq he, add_comm]
    cases (one root + below sha3 t) x with
    | zero => rfl
    | succ n => exact Bool.and_false _
  unfold leftOvers descendKey
  rw [update_eq_strike, h.lookup_eq]
  by_cases hne : t = .empty
  · subst hne
    have hroot : root = c_shaNull sha3 := h.root_eq
    rw [if_pos (by simp [hroot]), ← hkeys, below, add_zero]
  · have hroot := h.root_ne hc hne
    rw [if_neg (by simp [hroot])]
    have hd := descendList_eq hroot h.canonical hne false (fun h => absurd h Bool.false_ne_true) hfuel h.found
    simp only [hd, strike_strike, hkeys]

end Webthree
