import Webthree.Lib.EState
import Webthree.Lemmas.TrieMerge

/-!
# Removal

`deleteAt` on the first node of a tree gives the first node of the tree without the entry, or says that there was none, unless
the key runs into one of the places where the code takes a value for a node or reads behind the end of the key (`Removable`).
-/

namespace Webthree

open TrieDB

variable {sha3 : Bytes → H256}

/-! ## The only slot in use -/

/-- Once two are in use, it stays so. -/
theorem uniqueInUseStep_none (orig : Item) (e : Nat) (l : List Nat) : l.foldl (uniqueInUseStep orig e) none = none := by
  induction l with
  | nil => rfl
  | cons i l ih => exact ih

/-- With one in use, another one is what there must not be. -/
theorem uniqueInUseStep_used (orig : Item) (e u : Nat) (hu : u ≠ 255) (l : List Nat) :
    l.foldl (uniqueInUseStep orig e) (some u) =
      if (l.filter fun i => i ≠ e && !(orig.get i).isEmpty) = [] then some u else none := by
  induction l with
  | nil => rfl
  | cons i l ih =>
    rw [List.foldl_cons, List.filter_cons, uniqueInUseStep]
    by_cases h : (decide (i ≠ e) && !(orig.get i).isEmpty) = true
    · rw [if_pos h, if_neg hu, if_pos h, uniqueInUseStep_none, if_neg (by simp)]
    · rw [if_neg h, if_neg h, ih]

/-- The loop finds the slots in use. -/
theorem foldl_uniqueInUseStep (orig : Item) (e : Nat) (l : List Nat) (hl : ∀ i ∈ l, i ≠ 255) :
    l.foldl (uniqueInUseStep orig e) (some 255) =
      match l.filter fun i => i ≠ e && !(orig.get i).isEmpty with
      | [] => some 255
      | [i] => some i
      | _ => none := by
  induction l with
  | nil => rfl
  | cons i l ih =>
    have hi : i ≠ 255 := hl i List.mem_cons_self
    rw [List.foldl_cons, List.filter_cons, uniqueInUseStep]
    by_cases h : (decide (i ≠ e) && !(orig.get i).isEmpty) = true
    · rw [if_pos h, if_pos rfl, if_pos h, uniqueInUseStep_used orig e i hi]
      cases l.filter fun i => i ≠ e && !(orig.get i).isEmpty with
      | nil => rfl
      | cons j l => simp
    · rw [if_neg h, if_neg h, ih fun j hj => hl j (List.mem_cons_of_mem i hj)]

theorem range_seventeen : List.range 17 = (List.finRange 16).map Fin.val ++ [16] := by decide

/-- The slots of a branch in use, besides `e`. -/
theorem filter_branch (cs : Fin 16 → Tree) (v : Option Value) (e : Nat) (he : 16 ≤ e) :
    (List.range 17).filter (fun i => i ≠ e && !((itemOf sha3 (.branch cs v)).get i).isEmpty) =
      (Patricia.occupants cs).map Fin.val ++ if e ≠ 16 ∧ v ≠ none then [16] else [] := by
  rw [range_seventeen, List.filter_append, List.filter_map]
  congr 1
  · unfold Patricia.occupants
    congr 1
    refine List.filter_congr ?_
    intro i _
    have hi : decide (i.val ≠ e) = true := by
      have := i.isLt
      simp only [ne_eq, decide_not, Bool.not_eq_true', decide_eq_false_iff_not]
      omega
    rw [Function.comp_apply, get_branch, isEmpty_refOf, hi, Bool.true_and]
  · rw [List.filter_cons, get_branch_sixteen]
    cases v with
    | none => simp [valueBytes, Item.isEmpty]
    | some w =>
      have hw : w.val.isEmpty = false := by
        cases hb : w.val with
        | nil => exact absurd hb w.property
        | cons x xs => rfl
      by_cases h16 : e = 16
      · simp [h16]
      · simp [valueBytes, Item.isEmpty, hw, h16, Ne.symm h16]

/-- `uniqueInUse` at a branch. -/
theorem uniqueInUse_branch (cs : Fin 16 → Tree) (v : Option Value) :
    uniqueInUse (itemOf sha3 (.branch cs v)) 255 =
      match Patricia.occupants cs, v with
      | [], some _ => 16
      | [i], none => i.val
      | _, _ => 255 := by
  unfold uniqueInUse
  rw [foldl_uniqueInUseStep _ _ _ (by decide), filter_branch cs v 255 (by decide)]
  match Patricia.occupants cs, v with
  | [], none => rfl
  | [], some w => simp
  | [i], none => simp
  | [i], some w => simp
  | i :: j :: l, none => simp
  | i :: j :: l, some w => simp

/-- `uniqueInUse` of a branch besides its value. -/
theorem uniqueInUse_branch_children (cs : Fin 16 → Tree) (v : Option Value) :
    uniqueInUse (itemOf sha3 (.branch cs v)) 16 = uniqueInUse (itemOf sha3 (.branch cs none)) 255 := by
  unfold uniqueInUse
  rw [foldl_uniqueInUseStep _ _ _ (by decide), foldl_uniqueInUseStep _ _ _ (by decide),
    filter_branch cs v 16 (by decide), filter_branch cs none 255 (by decide)]
  simp

/-! ## What keeps a key from being removed -/

/-- A value that `isTwoItemNode` may ask for as if it were a node: it has no more than 32 bytes, and they are not the hash of a
node with two items. -/
def Harmless (db : MemoryDB) (w : Value) : Prop :=
  ∃ h, (Item.data w.val).toHash = .ok h ∧ ∀ x n, db.m_main h = some (x, n) → x.itemCount ≠ 2

/-- A key that can be removed, or is found to be missing: its way does not go on behind the key of a leaf, does not end at a
branch without a value, and does not leave a branch with nothing but a value that is taken for a node. -/
def Removable (db : MemoryDB) : Tree → List Nibble → Prop
  | .empty, _ => True
  | .leaf k _, x => k <+: x → k = x
  | .ext k c, x => k <+: x → Removable db c (x.drop k.length)
  | .branch _ v, [] => v ≠ none
  | .branch cs v, i :: x =>
    Removable db (cs i) x ∧
      ∀ w, v = some w → (cs i).get x ≠ none → (∀ j, Function.update cs i ((cs i).erase x) j = .empty) → Harmless db w

/-! ## The parts of a removal -/

/-- The tree starts with a leaf or an extension. -/
def isPair : Tree → Bool
  | .leaf _ _ => true
  | .ext _ _ => true
  | _ => false

/-- Trees of one path are pairs. -/
theorem itemCount_itemOf (t : Tree) : ((itemOf sha3 t).itemCount = 2) ↔ isPair t = true := by
  cases t with
  | empty => simp [itemOf, Item.itemCount, Item.items, isPair]
  | leaf k v => simp [itemOf, Item.itemCount, Item.items, isPair]
  | ext k c => simp [itemOf, Item.itemCount, Item.items, isPair]
  | branch cs v => simp [isPair]

/-- A pair has a body and a key. -/
theorem exists_pairOf {t : Tree} (h : isPair t = true) : ∃ d k, t = pairOf d k := by
  cases t with
  | empty => simp [isPair] at h
  | leaf k v => exact ⟨.inl v, k, rfl⟩
  | ext k c => exact ⟨.inr c, k, rfl⟩
  | branch cs v => simp [isPair] at h

/-- What is no pair is put behind an extension. -/
theorem graft_of_not_pair (k : List Nibble) {t : Tree} (h : isPair t = false) : Patricia.graft k t = .ext k t := by
  cases t with
  | empty => rfl
  | leaf k v => simp [isPair] at h
  | ext k c => simp [isPair] at h
  | branch cs v => rfl

section Parts

variable {db : MemoryDB} {b : H256 → Nat}

/-- The node of a child is found. -/
theorem node_child {t : Tree} (ha : Accounted sha3 db (b + below sha3 t + own sha3 (itemOf sha3 t)))
    (hh : Held sha3 db (itemOf sha3 t)) (hle : 32 ≤ (itemOf sha3 t).encode.length) :
    node (hashOf sha3 (itemOf sha3 t)) db = .ok (some (itemOf sha3 t)) db := by
  refine node_eq (hh hle) ha ?_
  rw [Pi.add_apply, own_of_le hle, one_self]
  omega

/-- A child is a pair exactly if its node is. -/
theorem isTwoItemNode_child {t : Tree} (hne : t ≠ .empty)
    (ha : Accounted sha3 db (b + below sha3 t + own sha3 (itemOf sha3 t))) (hh : Held sha3 db (itemOf sha3 t)) :
    isTwoItemNode (refOf sha3 (itemOf sha3 t)) db = .ok (isPair t) db := by
  have hdec : decide ((itemOf sha3 t).itemCount = 2) = isPair t := by
    rw [Bool.eq_iff_iff, decide_eq_true_iff]
    exact itemCount_itemOf t
  unfold isTwoItemNode
  rcases refOf_cases sha3 t with ⟨rfl, -⟩ | ⟨-, -, hr⟩ | ⟨-, hle, hr⟩
  · exact absurd rfl hne
  · rw [hr, Item.isData, isList_itemOf hne, hdec]
    rfl
  · rw [hr, toHash_bytes, ofExcept_ok, pure_bind, ← hdec]
    have hn := node_child ha hh hle
    simp only [Item.isData, Item.isList, Bool.not_false, reduceIte, Bind.bind, EStateM.bind, hn]
    rfl

/-- `isTwoItemNode` of a value. -/
theorem isTwoItemNode_value {w : Value} (h : Harmless db w) : isTwoItemNode (.data w.val) db = .ok false db := by
  obtain ⟨hh, he, hx⟩ := h
  unfold isTwoItemNode
  rw [he, ofExcept_ok, pure_bind]
  have hn : node hh db = .ok (db.lookup hh) db := rfl
  simp only [Item.isData, Item.isList, Bool.not_false, reduceIte, Bind.bind, EStateM.bind, hn]
  cases hl : db.lookup hh with
  | none => rfl
  | some x =>
    have hne : x.itemCount ≠ 2 := by
      unfold MemoryDB.lookup at hl
      cases hm : db.m_main hh with
      | none => simp [hm] at hl
      | some p =>
        obtain ⟨y, n⟩ := p
        have hy : y = x := by
          simp only [hm] at hl
          split at hl
          · exact Option.some.inj hl
          · cases hl
        exact hx x n (by rw [hm, hy])
    simp [hne]
    rfl

/-- `graft`: a node with a key takes over what is below it, and that gives up its reference. -/
theorem graft_turns (k : List Nibble) {t : Tree} (ht : isPair t = true)
    (ha : Accounted sha3 db (b + below sha3 t + own sha3 (itemOf sha3 t))) (hh : Held sha3 db (itemOf sha3 t)) :
    Turns sha3 (TrieDB.graft (itemOf sha3 (.ext k t))) db (b + below sha3 t) fun r _ =>
      r = itemOf sha3 (Patricia.graft k t) := by
  obtain ⟨d, k', rfl⟩ := exists_pairOf ht
  have hg : Patricia.graft k (pairOf d k') = pairOf d (k ++ k') := by cases d <;> rfl
  have hchild : Turns sha3 (graftChild (itemOf sha3 (.ext k (pairOf d k')))) db (b + below sha3 (pairOf d k')) fun r _ =>
      r = some (itemOf sha3 (pairOf d k')) := by
    have hget : (itemOf sha3 (.ext k (pairOf d k'))).get 1 = refOf sha3 (itemOf sha3 (pairOf d k')) := rfl
    unfold graftChild
    rw [hget]
    rcases refOf_cases sha3 (pairOf d k') with ⟨he, -⟩ | ⟨hne, hlt, hr⟩ | ⟨-, hle, hr⟩
    · rw [he] at ht
      simp [isPair] at ht
    · rw [hr, if_pos (isList_itemOf hne)]
      exact Turns.pure (ha.congr (by rw [own_of_lt hlt, add_zero])) rfl
    · rw [hr, if_neg (by simp [Item.isList]), toHash_bytes, ofExcept_ok, pure_bind]
      refine Turns.read (node_child ha hh hle) ?_
      rw [own_of_le hle] at ha
      refine Turns.bind (forceKillNode_turns ha) ?_ fun _ => Preserves.pure _
      intro _ db₁ ha₁ _ _
      exact Turns.pure ha₁ rfl
  rw [hg]
  unfold TrieDB.graft
  have hassert : ((itemOf sha3 (.ext k (pairOf d k'))).isList && decide ((itemOf sha3 (.ext k (pairOf d k'))).itemCount = 2)) =
      true := rfl
  rw [hassert, assert_true, pure_bind]
  refine Turns.bind hchild ?_ ?_
  · rintro r db₁ ha₁ _ rfl
    have hcount : decide ((itemOf sha3 (pairOf d k')).itemCount = 2) = true := decide_eq_true ((itemCount_itemOf _).mpr ht)
    have hkey : keyOf (itemOf sha3 (.ext k (pairOf d k'))) = k := keyOf_pair k false _
    simp only [hcount, assert_true, pure_bind, hkey]
    refine Turns.pure ha₁ ?_
    rw [itemOf_pairOf, itemOf_pairOf, keyOf_pair, isLeaf_pair, hexPrefixEncode₂_eq]
    rfl
  · intro r
    cases r with
    | none => exact Preserves.throw _
    | some r => exact Preserves.bind (preserves_assert _) fun _ => Preserves.pure _

/-- To graft inserts nothing. -/
theorem preserves_graft (x : Item) : Preserves (CollisionFree sha3) (TrieDB.graft x) := by
  refine Preserves.bind (preserves_assert _) fun _ => Preserves.bind ?_ ?_
  · refine Preserves.ite (Preserves.pure _) (Preserves.bind (preserves_ofExcept _) fun _ => ?_)
    exact Preserves.bind (preserves_node _) fun _ => Preserves.bind (preserves_forceKillNode _) fun _ => Preserves.pure _
  · intro r
    cases r with
    | none => exact Preserves.throw _
    | some r => exact Preserves.bind (preserves_assert _) fun _ => Preserves.pure _

/-- `deleteAt` joins a node with a key to what is below it if that has a key too. -/
theorem graftIf_turns {α : Type} (k : List Nibble) {t : Tree} (hne : t ≠ .empty)
    (ha : Accounted sha3 db (b + below sha3 t + own sha3 (itemOf sha3 t))) (hh : Held sha3 db (itemOf sha3 t))
    (hst : Stored sha3 db t) (f : Item → α) {m : TrieM Item} (hm : m = TrieDB.graft (itemOf sha3 (.ext k t))) :
    Turns sha3 (isTwoItemNode (refOf sha3 (itemOf sha3 t)) >>= fun two =>
        if two = true then m >>= fun r => pure (f r) else pure (f (itemOf sha3 (.ext k t)))) db
      (b + below sha3 (Patricia.graft k t)) fun r db' =>
        r = f (itemOf sha3 (Patricia.graft k t)) ∧ Stored sha3 db' (Patricia.graft k t) := by
  subst hm
  refine Turns.read (isTwoItemNode_child hne ha hh) ?_
  cases hp : isPair t with
  | true =>
    obtain ⟨d, k', rfl⟩ := exists_pairOf hp
    have hb : below sha3 (Patricia.graft k (pairOf d k')) = below sha3 (pairOf d k') := by cases d <;> rfl
    have hs : ∀ db', Stored sha3 db' (pairOf d k') → Stored sha3 db' (Patricia.graft k (pairOf d k')) := by
      intro db' h
      cases d with
      | inl v => trivial
      | inr c => exact h
    rw [if_pos rfl, hb]
    refine Turns.bind (graft_turns k hp ha hh) ?_ fun _ => Preserves.pure _
    rintro r db₁ ha₁ hg₁ rfl
    exact Turns.pure ha₁ ⟨rfl, hs db₁ (hst.grown hg₁)⟩
  | false =>
    rw [graft_of_not_pair k hp, if_neg (by simp)]
    exact Turns.pure (ha.congr (by rw [below]; abel)) ⟨rfl, hh, hst⟩

/-- A slot is read as its nibble. -/
theorem ofBytes_slot : ∀ i : Fin 16, (NibbleSlice.ofBytes [UInt8.ofNat i.val] 0).drop 1 = [i] := by decide

/-- A branch with one child is merged into an extension. -/
theorem merge_child (cs : Fin 16 → Tree) (v : Option Value) {i : Fin 16} (hi : cs i ≠ .empty) :
    merge (itemOf sha3 (.branch cs v)) i = pure (itemOf sha3 (.ext [i] (cs i))) := by
  have hl : (itemOf sha3 (.branch cs v)).isList = true := isList_itemOf (by simp)
  have h16 : i.val ≠ 16 := by
    have := i.isLt
    omega
  have he : (!(cs i).isEmpty) = true := by
    rw [Bool.not_eq_true', ← Bool.not_eq_true, Patricia.isEmpty_iff]
    exact hi
  unfold merge
  rw [hl, itemCount_branch, if_pos h16, get_branch, isEmpty_refOf, he, hexPrefixEncode_eq]
  have hk : ((NibbleSlice.ofBytes [UInt8.ofNat i.val] 0).take 2).drop 1 = [i] := by
    rw [List.take_of_length_le (by simp [NibbleSlice.ofBytes, length_asNibbles])]
    exact ofBytes_slot i
  rw [hk]
  rfl

/-- A branch with a value alone is merged into a leaf. -/
theorem merge_value (cs : Fin 16 → Tree) (w : Value) :
    merge (itemOf sha3 (.branch cs (some w))) 16 = pure (itemOf sha3 (.leaf [] w)) := by
  have hl : (itemOf sha3 (.branch cs (some w))).isList = true := isList_itemOf (by simp)
  unfold merge
  rw [hl, itemCount_branch, get_branch_sixteen]
  rfl

/-- The child that is left is grafted, and no longer referred to by itself. -/
theorem mergeUsed_child_turns (cs : Fin 16 → Tree) (v : Option Value) {i : Fin 16} (hi : cs i ≠ .empty)
    (ha : Accounted sha3 db (b + below sha3 (cs i) + own sha3 (itemOf sha3 (cs i))))
    (hh : Held sha3 db (itemOf sha3 (cs i))) (hst : Stored sha3 db (cs i)) :
    Turns sha3 (mergeUsed (itemOf sha3 (.branch cs v)) i) db (b + below sha3 (Patricia.graft [i] (cs i))) fun r db' =>
      r = itemOf sha3 (Patricia.graft [i] (cs i)) ∧ Stored sha3 db' (Patricia.graft [i] (cs i)) := by
  have h := graftIf_turns [i] hi ha hh hst id rfl
  unfold mergeUsed
  rw [get_branch, merge_child cs v hi]
  simpa only [id_eq, bind_pure, pure_bind] using h

/-- The value that is left makes a leaf. -/
theorem mergeUsed_value (cs : Fin 16 → Tree) {w : Value} (h : Harmless db w) :
    mergeUsed (itemOf sha3 (.branch cs (some w))) 16 db = .ok (itemOf sha3 (.leaf [] w)) db := by
  unfold mergeUsed
  rw [get_branch_sixteen, merge_value]
  simp only [valueBytes, Bind.bind, EStateM.bind, isTwoItemNode_value h]
  rfl

/-- A value that is harmless stays so. -/
theorem Harmless.same {db' : MemoryDB} {w : Value} (h : Harmless db w) (hs : SameNodes db db') : Harmless db' w := by
  obtain ⟨hh, he, hx⟩ := h
  refine ⟨hh, he, ?_⟩
  intro x n hn
  obtain ⟨n', hn'⟩ := hs hh x n hn
  exact hx x n' hn'

/-- What `deleteAt` at a tree leaves if it makes it `t'`. -/
def Leaves (sha3 : Bytes → H256) (m : TrieM (Option Item)) (db : MemoryDB) (b : H256 → Nat) (t' : Tree) : Prop :=
  Turns sha3 m db (b + below sha3 t') fun r db' =>
    r = some (itemOf sha3 t') ∧ Stored sha3 db' t' ∧ (t' = .empty → SameNodes db db')

variable {f : Option Item → NibbleSlice → TrieM (Option Item)}

/-- To delete below a reference is to delete below the node. -/
theorem deleteAtChild_eq {t : Tree} (hne : t ≠ .empty) (x : NibbleSlice)
    (ha : Accounted sha3 db (b + below sha3 t + own sha3 (itemOf sha3 t))) (hh : Held sha3 db (itemOf sha3 t)) :
    deleteAtChild f (refOf sha3 (itemOf sha3 t)) x db = f (some (itemOf sha3 t)) x db := by
  have he : t.isEmpty = false := by rw [← Bool.not_eq_true, Patricia.isEmpty_iff]; exact hne
  unfold deleteAtChild
  rw [isEmpty_refOf, he]
  rcases refOf_cases sha3 t with ⟨rfl, -⟩ | ⟨-, -, hr⟩ | ⟨-, hle, hr⟩
  · exact absurd rfl hne
  · rw [hr, isList_itemOf hne]
    rfl
  · have hn := node_child ha hh hle
    rw [hr, toHash_bytes, ofExcept_ok, pure_bind]
    simp only [Item.isList, Bool.false_eq_true, reduceIte, Bind.bind, EStateM.bind, hn]

/-- If nothing is deleted below, nothing happens. -/
theorem deleteAtAux_absent {t : Tree} (x : NibbleSlice)
    (ha : Accounted sha3 db (b + below sha3 t + own sha3 (itemOf sha3 t))) (hh : Held sha3 db (itemOf sha3 t))
    (hf : t ≠ .empty → f (some (itemOf sha3 t)) x db = .ok none db) :
    deleteAtAux sha3 f (refOf sha3 (itemOf sha3 t)) x db = .ok none db := by
  have hchild : deleteAtChild f (refOf sha3 (itemOf sha3 t)) x db = .ok none db := by
    by_cases he : t = .empty
    · subst he
      unfold deleteAtChild
      rw [isEmpty_refOf]
      rfl
    · rw [deleteAtChild_eq he x ha hh, hf he]
  unfold deleteAtAux
  simp only [Bind.bind, EStateM.bind, hchild]
  rfl

/-- What is deleted below is deleted, and the old child is no longer referred to. -/
theorem deleteAtAux_turns {t t' : Tree} (hne : t ≠ .empty) (x : NibbleSlice)
    (ha : Accounted sha3 db (b + below sha3 t + own sha3 (itemOf sha3 t))) (hh : Held sha3 db (itemOf sha3 t))
    (hf : Leaves sha3 (f (some (itemOf sha3 t)) x) db b t') :
    Turns sha3 (deleteAtAux sha3 f (refOf sha3 (itemOf sha3 t)) x) db
      (b + below sha3 t' + own sha3 (itemOf sha3 t')) fun r db' =>
        r = some (refOf sha3 (itemOf sha3 t')) ∧ Held sha3 db' (itemOf sha3 t') ∧ Stored sha3 db' t' ∧
          (t' = .empty → SameNodes db db') := by
  have hchild : Leaves sha3 (deleteAtChild f (refOf sha3 (itemOf sha3 t)) x) db b t' := by
    unfold Leaves Turns Provided at *
    rwa [deleteAtChild_eq hne x ha hh]
  unfold deleteAtAux
  refine Turns.bind hchild ?_ ?_
  · rintro r db₁ ha₁ _ ⟨rfl, hst₁, hsame⟩
    by_cases he : t' = .empty
    · subst he
      have hs : streamNode sha3 (itemOf sha3 .empty) = pure (refOf sha3 (itemOf sha3 .empty)) := rfl
      simp only [hs, pure_bind]
      refine Turns.pure (ha₁.congr (by rw [own_empty, add_zero])) ⟨rfl, ?_, trivial, fun _ => hsame rfl⟩
      exact fun hle => absurd hle (by simp [itemOf, Item.encodeData, Item.header])
    · refine Turns.bind (streamNode_turns ha₁ _) ?_ fun _ => Preserves.pure _
      rintro r db₂ ha₂ hg₂ ⟨rfl, hh₂⟩
      exact Turns.pure ha₂ ⟨rfl, hh₂, hst₁.grown hg₂, fun h => absurd h he⟩
  · intro r
    cases r with
    | none => exact Preserves.pure _
    | some r => exact Preserves.bind (preserves_streamNode _) fun _ => Preserves.pure _

end Parts

/-! ## What `deleteAt` does at each kind of node -/

/-- From nothing nothing is deleted. -/
theorem deleteAt_null (fuel : Nat) (x : NibbleSlice) : deleteAt sha3 (fuel + 1) (some (.data [])) x = pure none := by
  rw [deleteAt]
  rfl

/-- The end of `deleteAt` at a node with a key, with what became of its child. -/
def deletePairEnd (sha3 : Bytes → H256) (orig : Item) : Option Item → TrieM (Option Item)
  | none => pure none
  | some c => do
    killNode sha3 orig
    let two ← isTwoItemNode c
    if two then do
      let r ← TrieDB.graft (.list [orig.get 0, c])
      pure (some r)
    else pure (some (.list [orig.get 0, c]))

/-- From a pair it depends on what the keys share. -/
theorem deleteAt_pair (fuel : Nat) (k : List Nibble) (l : Bool) (y : Item) (x : NibbleSlice) :
    deleteAt sha3 (fuel + 1) (some (.list [.data (hexPrefix k l), y])) x =
      if k = x ∧ l = true then killNode sha3 (.list [.data (hexPrefix k l), y]) >>= fun _ => pure (some (.data []))
      else if k <+: x then
        deleteAtAux sha3 (deleteAt sha3 fuel) y (x.drop k.length) >>=
          deletePairEnd sha3 (.list [.data (hexPrefix k l), y])
      else pure none := by
  rw [deleteAt]
  have h1 : (Item.list [.data (hexPrefix k l), y]).isEmpty = false := rfl
  have h2 : (Item.list [.data (hexPrefix k l), y]).isList = true := rfl
  have h3 : (Item.list [.data (hexPrefix k l), y]).itemCount = 2 := rfl
  simp only [h1, h2, h3, keyOf_pair, isLeaf_pair, Bool.and_eq_true, NibbleSlice.eq_iff, NibbleSlice.contains_iff,
    decide_true, Bool.true_or, Bool.and_self, assert_true, pure_bind, reduceIte, Bool.false_eq_true]
  rfl

/-- The end of `deleteAt` at a branch, with what became of its child `i`. -/
def deleteBranchEnd (sha3 : Bytes → H256) (orig : Item) (i : Nibble) : Option Item → TrieM (Option Item)
  | none => pure none
  | some c => do
    killNode sha3 orig
    if uniqueInUse (replace orig i c) 255 = 255 then pure (some (replace orig i c))
    else do
      let r ← mergeUsed (replace orig i c) (uniqueInUse (replace orig i c) 255)
      pure (some r)

/-- From a branch the deletion goes on in the child. -/
theorem deleteAt_branch_cons (fuel : Nat) (cs : Fin 16 → Tree) (w : Option Value) (i : Nibble) (x : NibbleSlice) :
    deleteAt sha3 (fuel + 1) (some (itemOf sha3 (.branch cs w))) (i :: x) =
      deleteAtAux sha3 (deleteAt sha3 fuel) (refOf sha3 (itemOf sha3 (cs i))) x >>=
        deleteBranchEnd sha3 (itemOf sha3 (.branch cs w)) i := by
  rw [deleteAt]
  have h1 : (itemOf sha3 (.branch cs w)).isList = true := isList_itemOf (by simp)
  have h2 : (Patricia.branch cs w : Tree).isEmpty = false := rfl
  simp only [isEmpty_itemOf, h1, h2, itemCount_branch, NibbleSlice.size, NibbleSlice.nibbleAt, NibbleSlice.mid, decide_true,
    Bool.or_true, Bool.and_self, assert_true, pure_bind, reduceIte, Bool.false_eq_true, List.length_cons,
    List.getElem?_cons_zero, ofExcept_ok, get_branch, List.drop_succ_cons, List.drop_zero]
  rw [if_neg (by decide), if_neg (by simp)]
  rfl

/-- At a branch without key, the value of the branch is deleted. -/
theorem deleteAt_branch_nil (fuel : Nat) (cs : Fin 16 → Tree) (w : Value) :
    deleteAt sha3 (fuel + 1) (some (itemOf sha3 (.branch cs (some w)))) [] =
      killNode sha3 (itemOf sha3 (.branch cs (some w))) >>= fun _ =>
        if uniqueInUse (itemOf sha3 (.branch cs (some w))) 16 ≠ 255 then
          mergeUsed (itemOf sha3 (.branch cs (some w))) (uniqueInUse (itemOf sha3 (.branch cs (some w))) 16) >>= fun r =>
            pure (some r)
        else pure (some (itemOf sha3 (.branch cs none))) := by
  rw [deleteAt]
  have h1 : (itemOf sha3 (.branch cs (some w))).isList = true := isList_itemOf (by simp)
  have h2 : (Patricia.branch cs (some w) : Tree).isEmpty = false := rfl
  have h3 : (Item.data (valueBytes (some w))).isEmpty = false := by
    rw [valueBytes, Item.isEmpty, ← Bool.not_eq_true, List.isEmpty_iff]
    exact w.property
  simp only [isEmpty_itemOf, h1, h2, h3, itemCount_branch, NibbleSlice.size, get_branch_sixteen, map_get_branch, decide_true,
    Bool.or_true, Bool.and_self, assert_true, pure_bind, reduceIte, Bool.false_eq_true, List.length_nil, Bool.not_false]
  rw [if_neg (by decide)]
  rfl

theorem preserves_isTwoItemNode (x : Item) : Preserves (CollisionFree sha3) (isTwoItemNode x) := by
  refine Preserves.ite (Preserves.bind (preserves_ofExcept _) fun _ => Preserves.bind (preserves_node _) ?_) (Preserves.pure _)
  intro r
  cases r with
  | none => exact Preserves.pure _
  | some r => exact Preserves.pure _

theorem preserves_merge (x : Item) (i : Nat) : Preserves (CollisionFree sha3) (merge x i) := by
  refine Preserves.bind (preserves_assert _) fun _ => Preserves.ite ?_ (Preserves.pure _)
  exact Preserves.bind (preserves_assert _) fun _ => Preserves.pure _

theorem preserves_mergeUsed (x : Item) (i : Nat) : Preserves (CollisionFree sha3) (mergeUsed x i) := by
  refine Preserves.bind (preserves_isTwoItemNode _) fun _ => Preserves.ite ?_ (preserves_merge x i)
  exact Preserves.bind (preserves_merge x i) fun _ => preserves_graft _

theorem preserves_deletePairEnd (x : Item) (r : Option Item) : Preserves (CollisionFree sha3) (deletePairEnd sha3 x r) := by
  cases r with
  | none => exact Preserves.pure _
  | some c =>
    refine Preserves.bind (preserves_killNode x) fun _ => Preserves.bind (preserves_isTwoItemNode c) fun _ => ?_
    exact Preserves.ite (Preserves.bind (preserves_graft _) fun _ => Preserves.pure _) (Preserves.pure _)

theorem preserves_deleteBranchEnd (x : Item) (i : Nibble) (r : Option Item) :
    Preserves (CollisionFree sha3) (deleteBranchEnd sha3 x i r) := by
  cases r with
  | none => exact Preserves.pure _
  | some c =>
    refine Preserves.bind (preserves_killNode x) fun _ => Preserves.ite (Preserves.pure _) ?_
    exact Preserves.bind (preserves_mergeUsed _ _) fun _ => Preserves.pure _

/-! ## Removal -/

section Removal

variable {db : MemoryDB} {b : H256 → Nat}

/-- A branch, joined to what is in it if that is one thing only. -/
theorem collapse_turns {cs : Fin 16 → Tree} {v : Option Value} {s : Option (Fin 16)} (hs : Patricia.Occupied cs v s)
    (hv : ∀ w, v = some w → (∀ j, cs j = .empty) → Harmless db w)
    (ha : Accounted sha3 db (b + below sha3 (.branch cs v))) (hst : Stored sha3 db (.branch cs v)) {α : Type} (f : Item → α)
    (v' : Option Value) (hv' : v = v' ∨ v = none) :
    Turns sha3 (if uniqueInUse (itemOf sha3 (.branch cs v)) 255 = 255 then pure (f (itemOf sha3 (.branch cs v)))
      else mergeUsed (itemOf sha3 (.branch cs v')) (uniqueInUse (itemOf sha3 (.branch cs v)) 255) >>= fun r => pure (f r)) db
      (b + below sha3 (Patricia.collapse cs v)) fun r db' =>
        r = f (itemOf sha3 (Patricia.collapse cs v)) ∧ Stored sha3 db' (Patricia.collapse cs v) := by
  rw [uniqueInUse_branch]
  have hmem := Patricia.mem_occupants cs
  unfold Patricia.collapse
  match hl : Patricia.occupants cs, v with
  | [], none =>
    exfalso
    cases s with
    | none => exact hs rfl
    | some i =>
      have := (hmem i).mpr hs
      simp [hl] at this
  | [], some w =>
    have hempty : ∀ j, cs j = .empty := by
      intro j
      by_contra hj
      have := (hmem j).mpr hj
      simp [hl] at this
    have hb : below sha3 (.branch cs (some w)) = 0 := by simp [below, hempty]
    obtain rfl : v' = some w := by
      rcases hv' with h | h
      · exact h.symm
      · cases h
    rw [if_neg (show ¬(16 : Nat) = 255 by decide)]
    refine Turns.read (mergeUsed_value cs (hv w rfl hempty)) ?_
    exact Turns.pure (ha.congr (by rw [hb]; rfl)) ⟨rfl, trivial⟩
  | [i], none =>
    have hi : cs i ≠ .empty := (hmem i).mp (by simp [hl])
    have hb : below sha3 (.branch cs none) = own sha3 (itemOf sha3 (cs i)) + below sha3 (cs i) := by
      rw [below]
      refine Finset.sum_eq_single i ?_ (by simp)
      intro j _ hj
      have hje : cs j = .empty := by
        by_contra he
        have := (hmem j).mpr he
        simp [hl, hj] at this
      rw [hje, own_empty]
      rfl
    have hi255 : ¬i.val = 255 := by
      have := i.isLt
      omega
    rw [if_neg hi255]
    refine Turns.bind (mergeUsed_child_turns cs v' hi (ha.congr (by rw [hb]; abel)) (hst i).1 (hst i).2) ?_
      fun _ => Preserves.pure _
    rintro r db₁ ha₁ _ ⟨rfl, hst₁⟩
    exact Turns.pure ha₁ ⟨rfl, hst₁⟩
  | [i], some w => exact Turns.pure ha ⟨rfl, hst⟩
  | i :: j :: l, v => exact Turns.pure ha ⟨rfl, hst⟩

/-- `deleteAt` finds that there is no entry. -/
theorem deleteAt_absent {t : Tree} (ht : t.Canonical) {x : List Nibble} (hr : Removable db t x) (hx : t.get x = none)
    {fuel : Nat} (hfuel : x.length + 1 ≤ fuel) {b : H256 → Nat}
    (ha : Accounted sha3 db (b + below sha3 t)) (hst : Stored sha3 db t) :
    deleteAt sha3 fuel (some (itemOf sha3 t)) x db = .ok none db := by
  induction t generalizing x fuel b with
  | empty =>
    obtain ⟨fuel, rfl⟩ : ∃ n, fuel = n + 1 := ⟨fuel - 1, by omega⟩
    rw [itemOf, deleteAt_null]
    rfl
  | leaf k w =>
    obtain ⟨fuel, rfl⟩ : ∃ n, fuel = n + 1 := ⟨fuel - 1, by omega⟩
    have hne : k ≠ x := by
      rintro rfl
      simp [Patricia.get_leaf_apply] at hx
    have hitem : itemOf sha3 (.leaf k w) = .list [.data (hexPrefix k true), .data w.val] := rfl
    rw [hitem, deleteAt_pair, if_neg (fun h => hne h.1), if_neg (fun h => hne (hr h))]
    rfl
  | ext k c ih =>
    obtain ⟨fuel, rfl⟩ : ∃ n, fuel = n + 1 := ⟨fuel - 1, by omega⟩
    obtain ⟨hk, hb, hc⟩ := ht
    have hitem : itemOf sha3 (.ext k c) = .list [.data (hexPrefix k false), refOf sha3 (itemOf sha3 c)] := rfl
    rw [hitem, deleteAt_pair, if_neg (by simp)]
    by_cases hp : k <+: x
    · obtain ⟨y, rfl⟩ := hp
      have hy : y.length + 1 ≤ (k ++ y).length := by
        cases k with
        | nil => exact absurd rfl hk
        | cons j k => simp
      rw [if_pos (List.prefix_append k y), List.drop_left]
      have hr' : Removable db c y := by simpa using hr (List.prefix_append k y)
      have hx' : c.get y = none := by rwa [Patricia.get_ext, under_append] at hx
      have ha' : Accounted sha3 db (b + below sha3 c + own sha3 (itemOf sha3 c)) := ha.congr (by rw [below]; abel)
      have haux := deleteAtAux_absent (f := deleteAt sha3 fuel) y ha' hst.1 fun _ =>
        ih hc hr' hx' (by omega) (b := b + own sha3 (itemOf sha3 c)) (ha'.congr (by abel)) hst.2
      simp only [Bind.bind, EStateM.bind, haux]
      rfl
    · rw [if_neg hp]
      rfl
  | branch cs w ih =>
    obtain ⟨fuel, rfl⟩ : ∃ n, fuel = n + 1 := ⟨fuel - 1, by omega⟩
    cases x with
    | nil => exact absurd hx hr
    | cons i x =>
      simp only [List.length_cons] at hfuel
      obtain ⟨rest, hb, -⟩ := below_branch sha3 cs w i
      have ha' : Accounted sha3 db (b + rest + below sha3 (cs i) + own sha3 (itemOf sha3 (cs i))) :=
        ha.congr (by rw [hb]; abel)
      have haux := deleteAtAux_absent (f := deleteAt sha3 fuel) x ha' (hst i).1 fun _ =>
        ih i (ht.1 i) hr.1 hx (by omega) (b := b + rest + own sha3 (itemOf sha3 (cs i))) (ha'.congr (by abel)) (hst i).2
      rw [deleteAt_branch_cons]
      simp only [Bind.bind, EStateM.bind, haux]
      rfl

/-- Nothing is left of a tree only if it was a leaf. -/
theorem erase_ne_empty {t : Tree} (ht : t.Canonical) {x y : List Nibble} (hy : t.get y ≠ none) (hxy : y ≠ x) :
    t.erase x ≠ .empty := by
  intro he
  have h := congrFun (Patricia.erase_spec ht x).1 y
  rw [he, Function.update_of_ne hxy, Patricia.get_empty] at h
  exact hy h.symm

/-- `deleteAt` takes the entry out. -/
theorem deleteAt_turns {t : Tree} (ht : t.Canonical) {x : List Nibble} (hr : Removable db t x) (hx : t.get x ≠ none)
    {fuel : Nat} (hfuel : x.length + 1 ≤ fuel) {b : H256 → Nat}
    (ha : Accounted sha3 db (b + below sha3 t + own sha3 (itemOf sha3 t))) (hst : Stored sha3 db t) :
    Leaves sha3 (deleteAt sha3 fuel (some (itemOf sha3 t)) x) db b (t.erase x) := by
  induction t generalizing x fuel b with
  | empty => exact absurd rfl hx
  | leaf k w =>
    obtain ⟨fuel, rfl⟩ : ∃ n, fuel = n + 1 := ⟨fuel - 1, by omega⟩
    have hkx : k = x := by
      by_contra hne
      exact hx (by rw [Patricia.get_leaf_apply, if_neg (Ne.symm hne)])
    subst hkx
    have hitem : itemOf sha3 (.leaf k w) = .list [.data (hexPrefix k true), .data w.val] := rfl
    have herase : (Patricia.leaf k w : Tree).erase k = .empty := if_pos rfl
    rw [herase, hitem, deleteAt_pair, if_pos ⟨rfl, rfl⟩, ← hitem]
    refine Turns.bind (killNode_turns ha) ?_ fun _ => Preserves.pure _
    intro _ db₁ ha₁ _ hsame
    exact Turns.pure ha₁ ⟨rfl, trivial, fun _ => hsame⟩
  | ext k c ih =>
    have ht' := ht
    obtain ⟨fuel, rfl⟩ : ∃ n, fuel = n + 1 := ⟨fuel - 1, by omega⟩
    obtain ⟨hk, hb, hc⟩ := ht
    have hp : k <+: x := by
      by_contra hp
      exact hx (under_of_not_initial _ hp)
    obtain ⟨y, rfl⟩ := hp
    have hy : y.length + 1 ≤ (k ++ y).length := by
      cases k with
      | nil => exact absurd rfl hk
      | cons j k => simp
    have hx' : c.get y ≠ none := by rwa [Patricia.get_ext, under_append] at hx
    have hr' : Removable db c y := by simpa using hr (List.prefix_append k y)
    have hne : c.erase y ≠ .empty := by
      obtain ⟨cs, v, rfl⟩ := hb.exists_eq
      obtain ⟨z, hz, hz'⟩ := hc.exists_get_ne y
      exact erase_ne_empty hc hz' hz
    have herase : (Patricia.ext k c : Tree).erase (k ++ y) = Patricia.graft k (c.erase y) := by
      rw [Patricia.erase, if_pos (List.prefix_append k y), List.drop_left]
    have hitem : itemOf sha3 (.ext k c) = .list [.data (hexPrefix k false), refOf sha3 (itemOf sha3 c)] := rfl
    rw [herase, hitem, deleteAt_pair, if_neg (by simp), if_pos (List.prefix_append k y), List.drop_left, ← hitem]
    have ha' : Accounted sha3 db (b + own sha3 (itemOf sha3 (.ext k c)) + below sha3 c + own sha3 (itemOf sha3 c)) :=
      ha.congr (by rw [below]; abel)
    refine Turns.bind (deleteAtAux_turns hb.ne_empty y ha' hst.1 (ih hc hr' hx' (by omega) ha' hst.2)) ?_
      (preserves_deletePairEnd _)
    rintro r db₁ ha₁ _ ⟨rfl, hh₁, hst₁, -⟩
    have ha₁' : Accounted sha3 db₁ (b + below sha3 (c.erase y) + own sha3 (itemOf sha3 (c.erase y)) +
        own sha3 (itemOf sha3 (.ext k c))) := ha₁.congr (by abel)
    refine Turns.bind (killNode_turns ha₁') ?_ fun _ => Preserves.bind (preserves_isTwoItemNode _) fun _ =>
      Preserves.ite (Preserves.bind (preserves_graft _) fun _ => Preserves.pure _) (Preserves.pure _)
    intro _ db₂ ha₂ hg₂ _
    refine (graftIf_turns k hne ha₂ (hh₁.grown hg₂) (hst₁.grown hg₂) some rfl).mono ?_
    rintro r db₃ _ ⟨hr₃, hst₃⟩
    refine ⟨hr₃, hst₃, ?_⟩
    intro he
    obtain ⟨z, hz, hz'⟩ := ht'.exists_get_ne_ext (k ++ y)
    exact absurd (by rw [herase, he]) (erase_ne_empty ht' hz' hz)
  | branch cs w ih =>
    have ht' := ht
    obtain ⟨fuel, rfl⟩ : ∃ n, fuel = n + 1 := ⟨fuel - 1, by omega⟩
    cases x with
    | nil =>
      obtain ⟨w, rfl⟩ : ∃ w', w = some w' := Option.ne_none_iff_exists'.mp hx
      obtain ⟨s, hs, ho⟩ := ht.other none
      have ho' : Patricia.Occupied cs none s := by
        cases s with
        | none => exact absurd rfl hs
        | some i => exact ho
      rw [deleteAt_branch_nil]
      refine Turns.bind (killNode_turns ha) ?_ fun _ =>
        Preserves.ite (Preserves.bind (preserves_mergeUsed _ _) fun _ => Preserves.pure _) (Preserves.pure _)
      intro _ db₁ ha₁ hg₁ _
      rw [uniqueInUse_branch_children, ite_not]
      refine (collapse_turns ho' (by simp) ha₁ (hst.grown hg₁) some (some w) (Or.inr rfl)).mono ?_
      rintro r db₂ _ ⟨hr₂, hst₂⟩
      refine ⟨hr₂, hst₂, ?_⟩
      intro he
      obtain ⟨z, hz, hz'⟩ := ht'.exists_get_ne []
      exact absurd he (erase_ne_empty ht' hz' hz)
    | cons i x =>
      simp only [List.length_cons] at hfuel
      obtain ⟨rest, hb, hb'⟩ := below_branch sha3 cs w i
      have hci : cs i ≠ .empty := by
        intro he
        exact hx (by rw [Patricia.get_branch_cons, he]; rfl)
      have ha' : Accounted sha3 db (b + rest + own sha3 (itemOf sha3 (.branch cs w)) + below sha3 (cs i) +
          own sha3 (itemOf sha3 (cs i))) := ha.congr (by rw [hb]; abel)
      have hb₂ := hb' ((cs i).erase x)
      rw [deleteAt_branch_cons]
      refine Turns.bind (deleteAtAux_turns hci x ha' (hst i).1 (ih i (ht.1 i) hr.1 hx (by omega) ha' (hst i).2)) ?_
        (preserves_deleteBranchEnd _ i)
      rintro r db₁ ha₁ hg₁ ⟨rfl, hh₁, hst₁, hsame⟩
      have hst₁' : Stored sha3 db₁ (.branch (Function.update cs i ((cs i).erase x)) w) := (hst.grown hg₁).update w i hh₁ hst₁
      have ha₁' : Accounted sha3 db₁ (b + below sha3 (.branch (Function.update cs i ((cs i).erase x)) w) +
          own sha3 (itemOf sha3 (.branch cs w))) := ha₁.congr (by rw [hb₂]; abel)
      obtain ⟨s, hs, ho⟩ := ht.other (some i)
      have ho' : Patricia.Occupied (Function.update cs i ((cs i).erase x)) w s := by
        cases s with
        | none => exact ho
        | some j =>
          rw [Patricia.Occupied, Function.update_of_ne (fun h => hs (by rw [h]))]
          exact ho
      simp only [deleteBranchEnd, replace_branch]
      refine Turns.bind (killNode_turns ha₁') ?_ fun _ => Preserves.ite (Preserves.pure _)
        (Preserves.bind (preserves_mergeUsed _ _) fun _ => Preserves.pure _)
      intro _ db₂ ha₂ hg₂ hs₂
      refine (collapse_turns ho' ?_ ha₂ (hst₁'.grown hg₂) some w (Or.inl rfl)).mono ?_
      · -- the child is gone only if no node was made on the way
        intro v hv hempty
        have hgone : (cs i).erase x = .empty := by simpa using hempty i
        exact (hr.2 v hv hx hempty).same ((hsame hgone).trans hs₂)
      · rintro r db₃ _ ⟨hr₃, hst₃⟩
        refine ⟨hr₃, hst₃, ?_⟩
        intro he
        obtain ⟨z, hz, hz'⟩ := ht'.exists_get_ne (i :: x)
        exact absurd he (erase_ne_empty ht' hz' hz)

end Removal

/-! ## The root -/

/-- A missing key leaves everything as it was. -/
theorem remove_absent {db : MemoryDB} {root : H256} {t : Tree} (h : Rooted sha3 db root t) (key : Bytes)
    (hr : Removable db t (asNibbles key)) (hx : t.get (asNibbles key) = none) :
    TrieDB.remove sha3 root key db = .ok root db := by
  have hfuel : (asNibbles key).length + 1 ≤ deleteFuel (asNibbles key) := Nat.le_succ _
  have hdel := deleteAt_absent h.canonical hr hx hfuel (h.accounted.congr (add_comm _ _)) h.stored
  unfold TrieDB.remove
  rw [ofBytes_zero]
  simp only [Bind.bind, EStateM.bind, h.node_eq, hdel]
  rfl

/-- `remove` takes the entry out. -/
theorem remove_turns {db : MemoryDB} {root : H256} {t : Tree} (h : Rooted sha3 db root t) (key : Bytes)
    (hr : Removable db t (asNibbles key)) (hx : t.get (asNibbles key) ≠ none) :
    Provided (CollisionFree sha3) (TrieDB.remove sha3 root key) db fun root' db' =>
      Rooted sha3 db' root' (t.erase (asNibbles key)) ∧ db'.m_enforceRefs = db.m_enforceRefs := by
  have hroot := h.root_eq
  have herase := Patricia.erase_spec h.canonical (asNibbles key)
  have hfuel : (asNibbles key).length + 1 ≤ deleteFuel (asNibbles key) := Nat.le_succ _
  have hturn : Turns sha3 (TrieDB.remove sha3 root key) db
      (below sha3 (t.erase (asNibbles key)) + one (hashOf sha3 (itemOf sha3 (t.erase (asNibbles key))))) fun r db' =>
        r = hashOf sha3 (itemOf sha3 (t.erase (asNibbles key))) ∧
          Has sha3 db' (itemOf sha3 (t.erase (asNibbles key))) ∧ Stored sha3 db' (t.erase (asNibbles key)) := by
    unfold TrieDB.remove
    refine Turns.read h.node_eq ?_
    rw [ofBytes_zero, hroot]
    refine Turns.bind (deleteAt_turns h.canonical hr hx hfuel h.accounted_own h.stored) ?_ ?_
    · rintro r db₁ ha₁ _ ⟨rfl, hst₁, -⟩
      refine Turns.bind (rootKill_turns (ha₁.congr (add_comm _ _))) ?_ fun _ => preserves_forceInsertNode _
      intro _ db₂ ha₂ hg₂ _
      refine (forceInsertNode_turns ha₂ _).mono ?_
      rintro r db₃ hg₃ ⟨hr, hh⟩
      exact ⟨hr, hh, (hst₁.grown hg₂).grown hg₃⟩
    · intro r
      cases r with
      | none => exact Preserves.pure _
      | some r => exact Preserves.bind (preserves_doIf _ (preserves_forceKillNode _)) fun _ => preserves_forceInsertNode _
  refine Provided.mono hturn ?_
  rintro root' db' ⟨ha', hg, hr', hh, hst⟩
  exact ⟨⟨herase.2, hr', hh, hst, by rw [hr']; exact ha', hg.has _ h.null⟩, hg.enforce_eq⟩

/-- In a new database nothing is accounted for. -/
theorem accounted_fresh (e : Bool) : Accounted sha3 (MemoryDB.fresh e) 0 :=
  ⟨fun _ _ _ h => absurd h (by simp [MemoryDB.fresh]), fun _ _ => rfl⟩

/-- `init` over a fresh database. -/
theorem init_turns (sha3 : Bytes → H256) (e : Bool) :
    ∃ root db, TrieDB.init sha3 (MemoryDB.fresh e) = .ok root db ∧ Rooted sha3 db root .empty ∧ db.m_enforceRefs = e := by
  refine ⟨c_shaNull sha3, (MemoryDB.fresh e).insert (c_shaNull sha3) (.data []), ?_, ?_, rfl⟩
  · have hmain : ((MemoryDB.fresh e).insert (c_shaNull sha3) (.data [])).m_main (c_shaNull sha3) = some (.data [], 1) := by
      rw [insert_main, Function.update_self]
      rfl
    have hex : ((MemoryDB.fresh e).insert (c_shaNull sha3) (.data [])).exists' (c_shaNull sha3) = true := by
      rw [MemoryDB.exists', hmain]
      simp
    have hlook : ((MemoryDB.fresh e).insert (c_shaNull sha3) (.data [])).lookup (c_shaNull sha3) = some (.data []) := by
      rw [MemoryDB.lookup, hmain]
      simp
    have hset : TrieDB.setRoot sha3 (c_shaNull sha3) ((MemoryDB.fresh e).insert (c_shaNull sha3) (.data [])) =
        .ok (c_shaNull sha3) ((MemoryDB.fresh e).insert (c_shaNull sha3) (.data [])) := by
      have hget : ∀ db : MemoryDB, (get : EStateM TrieError MemoryDB MemoryDB) db = .ok db db := fun _ => rfl
      unfold setRoot initIf node
      simp only [Bind.bind, EStateM.bind, hget, hex]
      simp [pure, EStateM.pure, hlook]
    exact hset
  · have hnull : Has sha3 ((MemoryDB.fresh e).insert (c_shaNull sha3) (.data [])) (.data []) :=
      ⟨_, Function.update_self _ _ _⟩
    exact ⟨trivial, rfl, hnull, trivial, (accounted_fresh e).insert (.data []), hnull⟩

end Webthree
