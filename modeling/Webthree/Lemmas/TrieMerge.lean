import Mathlib.Tactic.Abel
import Webthree.Lemmas.TrieNode

/-!
# Insertion

`mergeAt` on the first node of a tree gives the first node of the tree with the entry set, puts the new nodes into the
database and gives up the references of the old ones.
-/

namespace Webthree

open TrieDB

variable {sha3 : Bytes → H256}

/-! ## What the functions do at each kind of node -/

@[simp] theorem assert_true : assert true = pure () := rfl

@[simp] theorem ofExcept_ok {α : Type} (a : α) : TrieDB.ofExcept (.ok a) = pure a := rfl

@[simp] theorem doIf_false (m : TrieM Unit) : doIf false m = pure () := rfl

@[simp] theorem doIf_true (m : TrieM Unit) : doIf true m = m := rfl

/-- In an empty node, the value is placed. -/
theorem mergeAt_null (fuel : Nat) (h : H256) (k : NibbleSlice) (v : Bytes) (inLine : Bool) :
    mergeAt sha3 (fuel + 1) (.data []) h k v inLine = place sha3 (.data []) k v := by
  rw [mergeAt]
  rfl

/-- The way down from a node with a key. -/
def mergeDown (sha3 : Bytes → H256) (fuel : Nat) (orig : Item) (h : H256) (k : NibbleSlice) (v : Bytes) (inLine : Bool) :
    TrieM Item := do
  doIf (!inLine) (killNodeHash orig h)
  let c ← mergeAtAux sha3 (mergeAt sha3 fuel) (orig.get 1) k v
  return .list [orig.get 0, c]

/-- In a leaf or an extension, it depends on what the keys share. -/
theorem mergeAt_pair (fuel : Nat) (k : List Nibble) (l : Bool) (y : Item) (h : H256) (x : NibbleSlice) (v : Bytes)
    (inLine : Bool) :
    mergeAt sha3 (fuel + 1) (.list [.data (hexPrefix k l), y]) h x v inLine =
      if k = x ∧ l = true then place sha3 (.list [.data (hexPrefix k l), y]) x v
      else if k <+: x ∧ l = false then
        mergeDown sha3 fuel (.list [.data (hexPrefix k l), y]) h (x.drop k.length) v inLine
      else if sharedLength x k ≠ 0 then
        cleve sha3 (.list [.data (hexPrefix k l), y]) (sharedLength x k) >>= fun c =>
          mergeAt sha3 fuel c (hashOf sha3 c) x v true
      else branch sha3 (.list [.data (hexPrefix k l), y]) >>= fun c => mergeAt sha3 fuel c (hashOf sha3 c) x v true := by
  rw [mergeAt]
  have h1 : (Item.list [.data (hexPrefix k l), y]).isEmpty = false := rfl
  have h2 : (Item.list [.data (hexPrefix k l), y]).isList = true := rfl
  have h3 : (Item.list [.data (hexPrefix k l), y]).itemCount = 2 := rfl
  simp only [h1, h2, h3, keyOf_pair, isLeaf_pair, Bool.and_eq_true, NibbleSlice.eq_iff, NibbleSlice.contains_iff,
    decide_true, Bool.true_or, Bool.and_self, assert_true, pure_bind, reduceIte, Bool.not_eq_true', Bool.false_eq_true]
  rfl

/-- At a branch without key, the value of the branch is set. -/
theorem mergeAt_branch_nil (fuel : Nat) (cs : Fin 16 → Tree) (w : Option Value) (h : H256) (v : Bytes) (inLine : Bool) :
    mergeAt sha3 (fuel + 1) (itemOf sha3 (.branch cs w)) h [] v inLine = place sha3 (itemOf sha3 (.branch cs w)) [] v := by
  rw [mergeAt]
  have h2 : (itemOf sha3 (.branch cs w)).isList = true := isList_itemOf (by simp)
  simp [h2, Patricia.isEmpty, NibbleSlice.size]

/-- At a branch, the merge goes on in the child. -/
theorem mergeAt_branch_cons (fuel : Nat) (cs : Fin 16 → Tree) (w : Option Value) (h : H256) (i : Nibble) (x : NibbleSlice)
    (v : Bytes) (inLine : Bool) :
    mergeAt sha3 (fuel + 1) (itemOf sha3 (.branch cs w)) h (i :: x) v inLine =
      (do
        doIf (!inLine) (killNodeHash (itemOf sha3 (.branch cs w)) h)
        let c ← mergeAtAux sha3 (mergeAt sha3 fuel) (refOf sha3 (itemOf sha3 (cs i))) x v
        return replace (itemOf sha3 (.branch cs w)) i c) := by
  rw [mergeAt]
  have h2 : (itemOf sha3 (.branch cs w)).isList = true := isList_itemOf (by simp)
  simp [h2, Patricia.isEmpty, NibbleSlice.size, NibbleSlice.nibbleAt, NibbleSlice.mid]

/-! ## Nothing makes a collision go away -/

theorem preserves_killNode (x : Item) : Preserves (CollisionFree sha3) (killNode sha3 x) := preserves_killNodeHash x _

theorem preserves_doIf (c : Bool) {m : TrieM Unit} (h : Preserves (CollisionFree sha3) m) :
    Preserves (CollisionFree sha3) (doIf c m) := Preserves.ite h (Preserves.pure _)

theorem preserves_place (x : Item) (k : NibbleSlice) (v : Bytes) : Preserves (CollisionFree sha3) (place sha3 x k v) := by
  refine Preserves.bind (preserves_killNode x) fun _ => Preserves.ite (Preserves.pure _) ?_
  exact Preserves.bind (preserves_assert _) fun _ => Preserves.ite (Preserves.pure _) (Preserves.pure _)

theorem preserves_cleve (x : Item) (s : Nat) : Preserves (CollisionFree sha3) (cleve sha3 x s) := by
  refine Preserves.bind (preserves_killNode x) fun _ => Preserves.bind (preserves_assert _) fun _ => ?_
  refine Preserves.bind (preserves_assert _) fun _ => Preserves.bind (preserves_streamNode _) fun _ => Preserves.pure _

theorem preserves_branchChild (x : Item) (k : NibbleSlice) : Preserves (CollisionFree sha3) (branchChild sha3 x k) :=
  Preserves.ite (preserves_streamNode _) (Preserves.pure _)

theorem preserves_branch (x : Item) : Preserves (CollisionFree sha3) (branch sha3 x) := by
  refine Preserves.bind (preserves_assert _) fun _ => Preserves.bind (preserves_killNode x) fun _ => ?_
  split
  · exact Preserves.bind (preserves_assert _) fun _ => Preserves.pure _
  · exact Preserves.bind (preserves_branchChild x _) fun _ => Preserves.pure _

theorem preserves_mergeAtAux {f : Item → H256 → NibbleSlice → Bytes → Bool → TrieM Item}
    (hf : ∀ x h k v i, Preserves (CollisionFree sha3) (f x h k v i)) (x : Item) (k : NibbleSlice) (v : Bytes) :
    Preserves (CollisionFree sha3) (mergeAtAux sha3 f x k v) := by
  refine Preserves.ite ?_ (Preserves.bind (hf _ _ _ _ _) fun _ => preserves_streamNode _)
  refine Preserves.bind (preserves_ofExcept _) fun _ => Preserves.bind (preserves_node _) ?_
  intro r
  cases r with
  | none => exact Preserves.throw _
  | some r => exact Preserves.bind (hf _ _ _ _ _) fun _ => preserves_streamNode _

theorem preserves_mergeAt (fuel : Nat) (x : Item) (h : H256) (k : NibbleSlice) (v : Bytes) (inLine : Bool) :
    Preserves (CollisionFree sha3) (mergeAt sha3 fuel x h k v inLine) := by
  induction fuel generalizing x h k v inLine with
  | zero => exact Preserves.throw _
  | succ fuel ih =>
    have haux := preserves_mergeAtAux ih
    have hkill : Preserves (CollisionFree sha3) (doIf (!inLine) (killNodeHash x h)) :=
      preserves_doIf _ (preserves_killNodeHash x h)
    rw [mergeAt]
    refine Preserves.ite (preserves_place x k v) (Preserves.bind (preserves_assert _) fun _ => ?_)
    refine Preserves.ite ?_ (Preserves.ite (preserves_place x k v) ?_)
    · refine Preserves.ite (preserves_place x k v) (Preserves.ite ?_ (Preserves.ite ?_ ?_))
      · exact Preserves.bind hkill fun _ => Preserves.bind (haux _ _ _) fun _ => Preserves.pure _
      · exact Preserves.bind (preserves_cleve x _) fun c => ih c _ k v true
      · exact Preserves.bind (preserves_branch x) fun c => ih c _ k v true
    · refine Preserves.bind hkill fun _ => Preserves.bind (preserves_ofExcept _) fun n => ?_
      exact Preserves.bind (haux _ _ _) fun _ => Preserves.pure _

/-! ## The parts of an insertion -/

section Parts

variable {db db₀ : MemoryDB} {b : H256 → Nat}

theorem Accounted.congr {b' : H256 → Nat} (ha : Accounted sha3 db b) (h : b = b') : Accounted sha3 db b' := h ▸ ha

theorem Turns.congr {α : Type} {m : TrieM α} {R : α → MemoryDB → Prop} {b' : H256 → Nat} (hm : Turns sha3 m db b R)
    (h : b = b') : Turns sha3 m db b' R := h ▸ hm

/-- Going on with what was read. -/
theorem Turns.read {α β : Type} {m : TrieM β} {r : β} {f : β → TrieM α} {R : α → MemoryDB → Prop} (hm : m db = .ok r db)
    (hf : Turns sha3 (f r) db b R) : Turns sha3 (m >>= f) db b R := by
  have he : (m >>= f) db = f r db := by simp only [Bind.bind, EStateM.bind, hm]
  unfold Turns Provided at *
  rwa [he]

/-- What hangs below a node with a key. -/
def bodyBelow (sha3 : Bytes → H256) : Body → H256 → Nat
  | .inl _ => 0
  | .inr c => own sha3 (itemOf sha3 c) + below sha3 c

/-- What lies below a pair lies below its body. -/
theorem below_pairOf (d : Body) (k : List Nibble) : below sha3 (pairOf d k) = bodyBelow sha3 d := by
  cases d <;> rfl

/-- Whether the nodes below one with a key are there does not depend on the key. -/
theorem stored_pairOf {d : Body} {k k' : List Nibble} (h : Stored sha3 db (pairOf d k)) : Stored sha3 db (pairOf d k') := by
  cases d with
  | inl v => trivial
  | inr c => exact h

/-- What hangs below a branch is what hangs at one of its children and the rest. -/
theorem below_branch (sha3 : Bytes → H256) (cs : Fin 16 → Tree) (w : Option Value) (i : Fin 16) :
    ∃ rest, below sha3 (.branch cs w) = own sha3 (itemOf sha3 (cs i)) + below sha3 (cs i) + rest ∧
      ∀ c, below sha3 (.branch (Function.update cs i c) w) = own sha3 (itemOf sha3 c) + below sha3 c + rest := by
  refine ⟨∑ j ∈ Finset.univ.erase i, (own sha3 (itemOf sha3 (cs j)) + below sha3 (cs j)), ?_, ?_⟩
  · rw [below]
    exact (Finset.add_sum_erase _ (fun j => own sha3 (itemOf sha3 (cs j)) + below sha3 (cs j)) (Finset.mem_univ i)).symm
  · intro c
    rw [below]
    rw [← Finset.add_sum_erase _ _ (Finset.mem_univ i), Function.update_self]
    congr 1
    refine Finset.sum_congr rfl ?_
    intro j hj
    rw [Function.update_of_ne (Finset.ne_of_mem_erase hj)]

/-- A branch with a new child is stored if the child is. -/
theorem Stored.update {cs : Fin 16 → Tree} {w : Option Value} (h : Stored sha3 db (.branch cs w)) (w' : Option Value)
    (i : Fin 16) {c : Tree} (hc : Held sha3 db (itemOf sha3 c)) (hc' : Stored sha3 db c) :
    Stored sha3 db (.branch (Function.update cs i c) w') := by
  intro j
  by_cases hj : j = i
  · subst hj
    rw [Function.update_self]
    exact ⟨hc, hc'⟩
  · rw [Function.update_of_ne hj]
    exact h j

/-- In an empty place a leaf is made. -/
theorem place_null_turns (ha : Accounted sha3 db b) (x : List Nibble) (v : Value) :
    Turns sha3 (place sha3 (.data []) x v.val) db b fun r _ => r = itemOf sha3 (.leaf x v) := by
  have ha' : Accounted sha3 db (b + own sha3 (.data [])) :=
    ha.congr (by rw [own_of_lt (by simp [Item.encodeData, Item.header]), add_zero])
  refine Turns.bind (killNode_turns ha') ?_ ?_
  · intro _ db' ha'' _ _
    refine Turns.pure ha'' ?_
    rw [NibbleSlice.size, hexPrefixEncode_all]
    rfl
  · intro _
    exact Preserves.pure _

/-- In the place of a leaf, the new leaf stands, and the old one is no longer referred to. -/
theorem place_leaf_turns {k : List Nibble} {w : Value} (ha : Accounted sha3 db (b + own sha3 (itemOf sha3 (.leaf k w))))
    (x : List Nibble) (v : Value) :
    Turns sha3 (place sha3 (itemOf sha3 (.leaf k w)) x v.val) db b fun r _ => r = itemOf sha3 (.leaf k v) := by
  refine Turns.bind (killNode_turns ha) ?_ ?_
  · intro _ db' ha' _ _
    exact Turns.pure ha' rfl
  · intro _
    exact Preserves.pure _

/-- `place` at a branch that gives up its reference, or where nobody counts. -/
theorem place_branch_turns {cs : Fin 16 → Tree} {w : Option Value} {b₀ : H256 → Nat} (ha : Accounted sha3 db b₀)
    (hb : db.m_enforceRefs = true → b₀ = b + own sha3 (itemOf sha3 (.branch cs w))) (v : Value) :
    Turns sha3 (place sha3 (itemOf sha3 (.branch cs w)) [] v.val) db b fun r _ => r = itemOf sha3 (.branch cs (some v)) := by
  have ha' : Accounted sha3 db (b + own sha3 (itemOf sha3 (.branch cs w))) := by
    cases he : db.m_enforceRefs with
    | false => exact ha.of_not_enforced he _
    | true => exact ha.congr (hb he)
  have heq : place sha3 (itemOf sha3 (.branch cs w)) [] v.val =
      killNode sha3 (itemOf sha3 (.branch cs w)) >>= fun _ => pure (itemOf sha3 (.branch cs (some v))) := by
    have h2 : (itemOf sha3 (.branch cs w)).isList = true := isList_itemOf (by simp)
    simp only [place, isEmpty_itemOf, h2, itemCount_branch, map_get_branch]
    rfl
  rw [heq]
  refine Turns.bind (killNode_turns ha') ?_ fun _ => Preserves.pure _
  intro _ db' ha'' _ _
  exact Turns.pure ha'' rfl

/-- `cleve`: a node with a key becomes two. -/
theorem cleve_turns {d : Body} {k : List Nibble} {s : Nat} (hs : s ≠ 0) (hk : s ≤ k.length)
    (ha : Accounted sha3 db (b + own sha3 (itemOf sha3 (pairOf d k)))) :
    Turns sha3 (cleve sha3 (itemOf sha3 (pairOf d k)) s) db (b + own sha3 (itemOf sha3 (pairOf d (k.drop s)))) fun r db' =>
      r = itemOf sha3 (.ext (k.take s) (pairOf d (k.drop s))) ∧ Held sha3 db' (itemOf sha3 (pairOf d (k.drop s))) := by
  have heq : cleve sha3 (itemOf sha3 (pairOf d k)) s =
      killNode sha3 (itemOf sha3 (pairOf d k)) >>= fun _ =>
        streamNode sha3 (itemOf sha3 (pairOf d (k.drop s))) >>= fun c =>
          pure (.list [.data (hexPrefix (k.take s) false), c]) := by
    have h0 : (itemOf sha3 (pairOf d k)).get 1 = bodyItem sha3 d := by rw [itemOf_pairOf]; rfl
    simp only [itemOf_pairOf] at h0 ⊢
    simp [cleve, hs, NibbleSlice.size, hk, h0, hexPrefixEncode_eq, Item.isList, Item.itemCount, Item.items]
  rw [heq]
  refine Turns.bind (killNode_turns ha) ?_ fun _ => Preserves.bind (preserves_streamNode _) fun _ => Preserves.pure _
  intro _ db₁ ha₁ _ _
  refine Turns.bind (streamNode_turns ha₁ _) ?_ fun _ => Preserves.pure _
  rintro c db₂ ha₂ _ ⟨rfl, hh⟩
  exact Turns.pure ha₂ ⟨rfl, hh⟩

/-- The child of the branch that a node with a key becomes. -/
def childOf : Body → List Nibble → Tree
  | .inl v, k => .leaf k v
  | .inr c, [] => c
  | .inr c, i :: k => .ext (i :: k) c

/-- A pair that is spread is a branch with one child. -/
theorem spread_pairOf (d : Body) (i : Nibble) (k : List Nibble) :
    Patricia.spread (pairOf d (i :: k)) = Patricia.only i (childOf d k) := by
  cases d with
  | inl v => rfl
  | inr c => cases k <;> rfl

/-- Below a branch with one child are the child and what lies below it. -/
theorem below_only (i : Fin 16) (c : Tree) :
    below sha3 (Patricia.only i c) = own sha3 (itemOf sha3 c) + below sha3 c := by
  obtain ⟨rest, h1, h2⟩ := below_branch sha3 (fun _ => .empty) none i
  have h0 : below sha3 (.branch (fun _ => .empty) none : Tree) = 0 := by simp [below]
  have hr : rest = 0 := by
    rw [h0, own_empty, below, zero_add, zero_add] at h1
    exact h1.symm
  rw [Patricia.only, h2 c, hr, add_zero]

/-- The child for a branch is the rest of the pair. -/
theorem branchChild_turns {d : Body} (k : List Nibble) {rest : List Nibble}
    (ha : Accounted sha3 db (b + bodyBelow sha3 d)) (hst : Stored sha3 db (pairOf d k)) :
    Turns sha3 (branchChild sha3 (itemOf sha3 (pairOf d k)) rest) db
      (b + (own sha3 (itemOf sha3 (childOf d rest)) + below sha3 (childOf d rest))) fun r db' =>
        r = refOf sha3 (itemOf sha3 (childOf d rest)) ∧ Held sha3 db' (itemOf sha3 (childOf d rest)) ∧
          Stored sha3 db' (childOf d rest) := by
  have hstream : ∀ t : Tree, below sha3 t = bodyBelow sha3 d → Stored sha3 db t →
      Turns sha3 (streamNode sha3 (itemOf sha3 t)) db (b + (own sha3 (itemOf sha3 t) + below sha3 t)) fun r db' =>
        r = refOf sha3 (itemOf sha3 t) ∧ Held sha3 db' (itemOf sha3 t) ∧ Stored sha3 db' t := by
    intro t ht hs
    refine ((streamNode_turns ha (itemOf sha3 t)).mono ?_).congr (by rw [ht]; abel)
    rintro r db' hg ⟨hr, hh⟩
    exact ⟨hr, hh, hs.grown hg⟩
  unfold branchChild
  cases d with
  | inl v =>
    have h := hstream (.leaf rest v) rfl trivial
    rw [itemOf_pairOf, isLeaf_pair, hexPrefixEncode_all]
    exact h
  | inr c =>
    rw [itemOf_pairOf, isLeaf_pair, hexPrefixEncode_all]
    cases rest with
    | nil => exact Turns.pure ha ⟨rfl, hst⟩
    | cons i rest =>
      have h := hstream (.ext (i :: rest) c) rfl hst
      rw [if_pos (by simp)]
      exact h

/-- `branch`: a node with a key becomes a branch. -/
theorem branch_turns {d : Body} {k : List Nibble} (hk : k ≠ [] ∨ d.isLeft = true)
    (ha : Accounted sha3 db (b + below sha3 (pairOf d k) + own sha3 (itemOf sha3 (pairOf d k))))
    (hst : Stored sha3 db (pairOf d k)) :
    Turns sha3 (branch sha3 (itemOf sha3 (pairOf d k))) db (b + below sha3 (Patricia.spread (pairOf d k))) fun r db' =>
      r = itemOf sha3 (Patricia.spread (pairOf d k)) ∧ Stored sha3 db' (Patricia.spread (pairOf d k)) := by
  have hl : (itemOf sha3 (pairOf d k)).isList = true := by rw [itemOf_pairOf]; rfl
  have hc : (itemOf sha3 (pairOf d k)).itemCount = 2 := by rw [itemOf_pairOf]; rfl
  have hkey : keyOf (itemOf sha3 (pairOf d k)) = k := by rw [itemOf_pairOf, keyOf_pair]
  unfold branch
  simp only [hl, hc, decide_true, Bool.and_self, assert_true, pure_bind]
  refine Turns.bind (killNode_turns ha) ?_ ?_
  · intro _ db₁ ha₁ hg₁ _
    rw [hkey]
    cases k with
    | nil =>
      cases d with
      | inr c => simp at hk
      | inl v =>
        have hs : Patricia.spread (pairOf (.inl v) []) = .branch (fun _ => .empty) (some v) := rfl
        have hb : below sha3 (.branch (fun _ => .empty) (some v) : Tree) = below sha3 (pairOf (.inl v) []) := by
          simp [below, pairOf]
        rw [hs, hb, itemOf_pairOf, isLeaf_pair]
        refine Turns.pure ha₁ ⟨?_, fun _ => ⟨fun h => absurd h ?_, trivial⟩⟩
        · simp [itemOf, refOf, Item.encodeData, Item.header, c_rlpDataImmLenStart, valueBytes, bodyItem, Item.get,
            Item.items, List.replicate]
        · simp [itemOf, Item.encodeData, Item.header]
    | cons i rest =>
      rw [spread_pairOf, below_only]
      rw [below_pairOf] at ha₁
      refine Turns.bind (branchChild_turns (i :: rest) ha₁ (hst.grown hg₁)) ?_ fun _ => Preserves.pure _
      rintro r db₂ ha₂ _ ⟨rfl, hh, hst₂⟩
      have hempty : Stored sha3 db₂ (.branch (fun _ => .empty) none) := by
        intro j
        exact ⟨fun h => absurd h (by simp [itemOf, Item.encodeData, Item.header]), trivial⟩
      exact Turns.pure ha₂ ⟨(itemOf_only i _).symm, hempty.update none i hh hst₂⟩
  · intro _
    split
    · exact Preserves.bind (preserves_assert _) fun _ => Preserves.pure _
    · exact Preserves.bind (preserves_branchChild _ _) fun _ => Preserves.pure _

/-- `mergeAtAux` at a child `t`, if `mergeAt` at its node makes it `t'`. -/
theorem mergeAtAux_turns {f : Item → H256 → NibbleSlice → Bytes → Bool → TrieM Item} {t t' : Tree} {x : NibbleSlice} {v : Bytes}
    (hf : ∀ inLine : Bool, (inLine = true → (itemOf sha3 t).encode.length < 32) →
      Turns sha3 (f (itemOf sha3 t) (hashOf sha3 (itemOf sha3 t)) x v inLine) db (b + below sha3 t') fun r db' =>
        r = itemOf sha3 t' ∧ Stored sha3 db' t')
    (ha : Accounted sha3 db (b + below sha3 t + own sha3 (itemOf sha3 t))) (hh : Held sha3 db (itemOf sha3 t)) :
    Turns sha3 (mergeAtAux sha3 f (refOf sha3 (itemOf sha3 t)) x v) db
      (b + (own sha3 (itemOf sha3 t') + below sha3 t')) fun r db' =>
        r = refOf sha3 (itemOf sha3 t') ∧ Held sha3 db' (itemOf sha3 t') ∧ Stored sha3 db' t' := by
  have hstream : ∀ inLine : Bool, (inLine = true → (itemOf sha3 t).encode.length < 32) →
      Turns sha3 (f (itemOf sha3 t) (hashOf sha3 (itemOf sha3 t)) x v inLine >>= streamNode sha3) db
        (b + (own sha3 (itemOf sha3 t') + below sha3 t')) fun r db' =>
          r = refOf sha3 (itemOf sha3 t') ∧ Held sha3 db' (itemOf sha3 t') ∧ Stored sha3 db' t' := by
    intro inLine hi
    refine Turns.bind (hf inLine hi) ?_ preserves_streamNode
    rintro r db₁ ha₁ _ ⟨rfl, hst⟩
    refine ((streamNode_turns ha₁ (itemOf sha3 t')).mono ?_).congr (by abel)
    rintro r db₂ hg₂ ⟨hr, hh₂⟩
    exact ⟨hr, hh₂, hst.grown hg₂⟩
  unfold mergeAtAux
  rcases refOf_cases sha3 t with ⟨rfl, hr⟩ | ⟨hne, hlt, hr⟩ | ⟨-, hle, hr⟩
  · rw [hr]
    exact hstream true fun _ => by simp [itemOf, Item.encodeData, Item.header]
  · rw [hr, isList_itemOf hne]
    exact hstream true fun _ => hlt
  · rw [hr, isEmpty_hash, toHash_bytes]
    have hn := node_eq (hh hle) ha (by simp only [Pi.add_apply, own_of_le hle, one_self]; omega)
    rw [if_pos (by rfl), ofExcept_ok, pure_bind]
    refine Turns.read hn ?_
    exact hstream false (by simp)

theorem put_branch_nil (cs : Fin 16 → Tree) (w : Option Value) (v : Value) :
    Patricia.put [] v (.branch cs w) = .branch cs (some v) := rfl

theorem put_branch_cons (cs : Fin 16 → Tree) (w : Option Value) (i : Nibble) (x : List Nibble) (v : Value) :
    Patricia.put (i :: x) v (.branch cs w) = .branch (Function.update cs i (.leaf x v)) w := rfl

/-- `mergeAt` at a branch that was just made, with nothing where the entry goes. -/
theorem mergeAt_spread_turns (fuel : Nat) {cs : Fin 16 → Tree} {w : Option Value} {x : List Nibble} (v : Value) (h : H256)
    (hx : ∀ i, x.head? = some i → cs i = .empty) (hend : db.m_enforceRefs = true → x ≠ [])
    (ha : Accounted sha3 db (b + below sha3 (.branch cs w))) (hst : Stored sha3 db (.branch cs w)) :
    Turns sha3 (mergeAt sha3 (fuel + 2) (itemOf sha3 (.branch cs w)) h x v.val true) db
      (b + below sha3 (Patricia.put x v (.branch cs w))) fun r db' =>
        r = itemOf sha3 (Patricia.put x v (.branch cs w)) ∧ Stored sha3 db' (Patricia.put x v (.branch cs w)) := by
  cases x with
  | nil =>
    rw [mergeAt_branch_nil, put_branch_nil]
    refine (place_branch_turns (b := b + below sha3 (.branch cs w)) ha (fun he => absurd rfl (hend he)) v).mono ?_
    intro r db' hg hr
    exact ⟨hr, hst.grown hg⟩
  | cons i x =>
    rw [mergeAt_branch_cons, put_branch_cons]
    obtain ⟨rest, hb, hb'⟩ := below_branch sha3 cs w i
    have hi := hx i rfl
    rw [hi, own_empty, below, zero_add, zero_add] at hb
    have hleaf : Turns sha3 (mergeAtAux sha3 (mergeAt sha3 (fuel + 1)) (refOf sha3 (itemOf sha3 .empty)) x v.val) db
        (b + below sha3 (.branch (Function.update cs i (.leaf x v)) w)) fun r db' =>
          r = refOf sha3 (itemOf sha3 (.leaf x v)) ∧ Held sha3 db' (itemOf sha3 (.leaf x v)) ∧
            Stored sha3 db' (.leaf x v) := by
      refine Turns.congr (b := b + rest + (own sha3 (itemOf sha3 (.leaf x v)) + below sha3 (.leaf x v))) ?_
        (by rw [hb']; abel)
      refine mergeAtAux_turns ?_ ?_ ?_
      · intro inLine _
        rw [itemOf, mergeAt_null]
        refine ((place_null_turns (ha.congr (by rw [hb])) x v).mono ?_).congr (by rw [below, add_zero])
        intro r db' _ hr
        exact ⟨hr, trivial⟩
      · exact ha.congr (by rw [hb, own_empty, below, add_zero, add_zero])
      · exact fun hle => absurd hle (by simp [itemOf, Item.encodeData, Item.header])
    rw [hi, Bool.not_true, doIf_false, pure_bind]
    refine Turns.bind hleaf ?_ fun _ => Preserves.pure _
    rintro c db' ha' hg ⟨rfl, hh, hst'⟩
    exact Turns.pure ha' ⟨replace_branch cs w i _, (hst.grown hg).update w i hh hst'⟩

/-- `mergeAt` at a node with a key that has nothing in common with the word. -/
theorem mergeAt_apart_turns (fuel : Nat) {d : Body} {k x : List Nibble} (v : Value) (h : H256)
    (hd : ∀ c, d = .inr c → k ≠ [] ∧ c.IsBranch ∧ c.Canonical) (hkx : k.head? ≠ x.head?)
    (hend : db.m_enforceRefs = true → x ≠ []) (inLine : Bool)
    (ha : Accounted sha3 db (b + below sha3 (pairOf d k) + own sha3 (itemOf sha3 (pairOf d k))))
    (hst : Stored sha3 db (pairOf d k)) :
    Turns sha3 (mergeAt sha3 (fuel + 3) (itemOf sha3 (pairOf d k)) h x v.val inLine) db
      (b + below sha3 (Patricia.put x v (Patricia.spread (pairOf d k)))) fun r db' =>
        r = itemOf sha3 (Patricia.put x v (Patricia.spread (pairOf d k))) ∧
          Stored sha3 db' (Patricia.put x v (Patricia.spread (pairOf d k))) := by
  have hs : Patricia.Spread (pairOf d k) k := by
    cases d with
    | inl w => exact Patricia.spread_leaf k w
    | inr c =>
      obtain ⟨h1, h2, h3⟩ := hd c rfl
      exact Patricia.spread_ext h1 h2 h3
  have hk : k ≠ [] ∨ d.isLeft = true := by
    cases d with
    | inl w => exact Or.inr rfl
    | inr c => exact Or.inl (hd c rfl).1
  have hsh : sharedLength x k = 0 := by
    cases k with
    | nil => cases x <;> rfl
    | cons j k =>
      cases x with
      | nil => rfl
      | cons i x =>
        refine if_neg ?_
        rintro rfl
        exact hkx rfl
  have hne : ¬(k = x ∧ d.isLeft = true) := by
    rintro ⟨rfl, -⟩
    exact hkx rfl
  have hnp : ¬(k <+: x ∧ d.isLeft = false) := by
    rintro ⟨⟨y, rfl⟩, hl⟩
    cases k with
    | nil => simp [hl] at hk
    | cons j k => exact hkx rfl
  rw [itemOf_pairOf, mergeAt_pair, if_neg hne, if_neg hnp, if_neg (by simp [hsh]), ← itemOf_pairOf]
  refine Turns.bind (branch_turns hk ha hst) ?_ fun _ => preserves_mergeAt _ _ _ _ _ _
  rintro r db₁ ha₁ hg ⟨rfl, hst₁⟩
  obtain ⟨cs, w, he, -, -, hempty⟩ := hs.exists_branch
  rw [he] at ha₁ hst₁ ⊢
  exact mergeAt_spread_turns fuel v _ (fun i hi => hempty i (by rw [← hi]; exact hkx)) (by rw [hg.enforce_eq]; exact hend)
    ha₁ hst₁

/-- The way down from a node with a key, to a child that becomes `t'`. -/
theorem mergeDown_turns (fuel : Nat) {k : List Nibble} {t t' : Tree} {x : List Nibble} {v : Bytes} (inLine : Bool)
    (hf : ∀ db b inLine, (inLine = true → (itemOf sha3 t).encode.length < 32) → db.m_enforceRefs = db₀.m_enforceRefs →
      Accounted sha3 db (b + below sha3 t + own sha3 (itemOf sha3 t)) → Stored sha3 db t →
      Turns sha3 (mergeAt sha3 fuel (itemOf sha3 t) (hashOf sha3 (itemOf sha3 t)) x v inLine) db (b + below sha3 t')
        fun r db' => r = itemOf sha3 t' ∧ Stored sha3 db' t')
    (ha : Accounted sha3 db₀ (b + below sha3 (.ext k t) + if inLine then 0 else own sha3 (itemOf sha3 (.ext k t))))
    (hst : Stored sha3 db₀ (.ext k t)) :
    Turns sha3 (mergeDown sha3 fuel (itemOf sha3 (.ext k t)) (hashOf sha3 (itemOf sha3 (.ext k t))) x v inLine) db₀
      (b + below sha3 (.ext k t')) fun r db' => r = itemOf sha3 (.ext k t') ∧ Stored sha3 db' (.ext k t') := by
  have hkill : Turns sha3 (doIf (!inLine) (killNodeHash (itemOf sha3 (.ext k t)) (hashOf sha3 (itemOf sha3 (.ext k t))))) db₀
      (b + below sha3 (.ext k t)) fun _ db' => SameNodes db₀ db' := by
    cases inLine with
    | true => exact Turns.pure (ha.congr (by simp)) (SameNodes.refl db₀)
    | false => exact killNode_turns ha
  refine Turns.bind hkill ?_ fun _ => Preserves.bind (preserves_mergeAtAux (preserves_mergeAt fuel) _ _ _) fun _ => Preserves.pure _
  intro _ db₁ ha₁ hg₁ _
  have ha₁' : Accounted sha3 db₁ (b + below sha3 t + own sha3 (itemOf sha3 t)) := ha₁.congr (by rw [below]; abel)
  refine Turns.bind (mergeAtAux_turns (fun inLine hi => hf db₁ b inLine hi hg₁.enforce_eq ha₁' (hst.grown hg₁).2) ha₁'
    (hst.grown hg₁).1) ?_ fun _ => Preserves.pure _
  rintro r db₂ ha₂ _ ⟨rfl, hh, hst₂⟩
  exact Turns.pure ha₂ ⟨rfl, hh, hst₂⟩

/-- `mergeAt` at a node with a key that the word leaves. -/
theorem mergeAt_split_turns (fuel : Nat) {d : Body} {k x : List Nibble} (v : Value) (h : H256)
    (hd : ∀ c, d = .inr c → k ≠ [] ∧ c.IsBranch ∧ c.Canonical) (hne : k ≠ x) (hnp : d.isLeft = false → ¬k <+: x)
    (hend : db.m_enforceRefs = true → ¬x <+: k) (inLine : Bool)
    (ha : Accounted sha3 db (b + below sha3 (pairOf d k) + own sha3 (itemOf sha3 (pairOf d k))))
    (hst : Stored sha3 db (pairOf d k)) :
    let t' := Patricia.behind (k.take (sharedLength x k))
      (Patricia.put (x.drop (sharedLength x k)) v (Patricia.spread (pairOf d (k.drop (sharedLength x k)))))
    Turns sha3 (mergeAt sha3 (fuel + 5) (itemOf sha3 (pairOf d k)) h x v.val inLine) db (b + below sha3 t') fun r db' =>
      r = itemOf sha3 t' ∧ Stored sha3 db' t' := by
  intro t'
  have hspec := sharedLength_spec x k
  have hhead := Patricia.head?_drop_sharedLength_ne hne
  have hd' : ∀ c, d = .inr c → k.drop (sharedLength x k) ≠ [] ∧ c.IsBranch ∧ c.Canonical := by
    intro c hc
    obtain ⟨-, h2, h3⟩ := hd c hc
    refine ⟨?_, h2, h3⟩
    intro hk
    refine hnp (by rw [hc]; rfl) ((sharedLength_eq_length_iff x k).mp (Nat.le_antisymm ?_ (List.drop_eq_nil_iff.mp hk)))
    rw [sharedLength_comm]
    exact sharedLength_le k x
  have hend' : db.m_enforceRefs = true → x.drop (sharedLength x k) ≠ [] := by
    intro he hx
    refine hend he ?_
    have h1 : x = k.take (sharedLength x k) := by
      rw [← hspec.1]
      simpa [hx] using (List.take_append_drop (sharedLength x k) x).symm
    rw [h1]
    exact List.take_prefix _ k
  by_cases hs : sharedLength x k = 0
  · have ht : t' = Patricia.put x v (Patricia.spread (pairOf d k)) := by
      simp [t', hs, Patricia.behind]
    rw [hs, List.drop_zero] at hhead hd' hend'
    rw [List.drop_zero] at hhead
    rw [ht]
    exact mergeAt_apart_turns (fuel + 2) v h hd' hhead hend' inLine ha hst
  · have hl : sharedLength x k ≤ k.length := by
      rw [sharedLength_comm]
      exact sharedLength_le k x
    have hp : k.take (sharedLength x k) <+: x := by
      rw [← hspec.1]
      exact List.take_prefix _ x
    have hk0 : k.take (sharedLength x k) ≠ [] := by
      intro hk0
      have := congrArg List.length hk0
      simp only [List.length_take, List.length_nil] at this
      omega
    have ht : t' = .ext (k.take (sharedLength x k))
        (Patricia.put (x.drop (sharedLength x k)) v (Patricia.spread (pairOf d (k.drop (sharedLength x k))))) := if_neg hk0
    have hlen : (k.take (sharedLength x k)).length = sharedLength x k := by
      rw [List.length_take]
      omega
    rw [itemOf_pairOf, mergeAt_pair, if_neg (fun h => hne h.1), if_neg (fun h => hnp h.2 h.1), if_pos hs, ← itemOf_pairOf, ht]
    refine Turns.bind (cleve_turns hs hl ha) ?_ fun _ => preserves_mergeAt _ _ _ _ _ _
    rintro r db₁ ha₁ hg₁ ⟨rfl, hh₁⟩
    have hitem : itemOf sha3 (.ext (k.take (sharedLength x k)) (pairOf d (k.drop (sharedLength x k)))) =
        .list [.data (hexPrefix (k.take (sharedLength x k)) false),
          refOf sha3 (itemOf sha3 (pairOf d (k.drop (sharedLength x k))))] := rfl
    rw [hitem, mergeAt_pair, if_neg (by simp), if_pos ⟨hp, rfl⟩, ← hitem, hlen]
    refine mergeDown_turns (fuel + 3) true ?_ ?_ ⟨hh₁, stored_pairOf (hst.grown hg₁)⟩
    · intro db₂ b₂ inLine' _ he ha₂ hst₂
      exact mergeAt_apart_turns fuel v _ hd' hhead (by rw [he, hg₁.enforce_eq]; exact hend') inLine' ha₂ hst₂
    · refine ha₁.congr ?_
      rw [below, below_pairOf, below_pairOf]
      simp only [reduceIte]
      abel

/-- The word is not a part of another word of the tree. -/
def Clear (t : Tree) (x : List Nibble) : Prop := ∀ y, t.get y ≠ none → x <+: y → x = y

/-- What is clear through an extension is clear below it. -/
theorem Clear.ext {k x : List Nibble} {c : Tree} (h : Clear (.ext k c) (k ++ x)) : Clear c x := by
  intro y hy hxy
  have h' := h (k ++ y) (by rwa [Patricia.get_ext, under_append]) ((List.prefix_append_right_inj k).mpr hxy)
  exact List.append_cancel_left h'

/-- What is clear through a branch is clear in the child. -/
theorem Clear.branch {cs : Fin 16 → Tree} {w : Option Value} {i : Nibble} {x : List Nibble}
    (h : Clear (.branch cs w) (i :: x)) : Clear (cs i) x := by
  intro y hy hxy
  exact (List.cons.inj (h (i :: y) hy (List.cons_prefix_cons.mpr ⟨rfl, hxy⟩))).2

/-- A word that leaves the key of a node does not end inside it. -/
theorem Clear.not_initial {d : Body} {k x : List Nibble} (h : Clear (pairOf d k) x) (hc : (pairOf d k).Canonical)
    (hne : k ≠ x) (hnp : d.isLeft = false → ¬k <+: x) : ¬x <+: k := by
  intro hx
  cases d with
  | inl w =>
    have := h k (by simp [pairOf, Patricia.get_leaf_apply]) hx
    exact hne this.symm
  | inr c =>
    obtain ⟨y, hy⟩ := hc.exists_get (by simp [pairOf])
    rw [pairOf, Patricia.get_ext] at hy
    rcases under_cases k c.get y with ⟨z, rfl, -⟩ | ⟨-, hn⟩
    · have h' := h (k ++ z) hy (hx.trans (List.prefix_append k z))
      exact hnp rfl ⟨z, h'.symm⟩
    · exact hy hn

/-- `mergeAt` sets the entry. -/
theorem mergeAt_turns {t : Tree} (ht : t.Canonical) {x : List Nibble} (v : Value) {fuel : Nat} (hfuel : x.length + 5 ≤ fuel)
    {db : MemoryDB} {b : H256 → Nat} {inLine : Bool} (hi : inLine = true → (itemOf sha3 t).encode.length < 32)
    (hclear : db.m_enforceRefs = true → Clear t x)
    (ha : Accounted sha3 db (b + below sha3 t + own sha3 (itemOf sha3 t))) (hst : Stored sha3 db t) :
    Turns sha3 (mergeAt sha3 fuel (itemOf sha3 t) (hashOf sha3 (itemOf sha3 t)) x v.val inLine) db
      (b + below sha3 (t.insert x v)) fun r db' => r = itemOf sha3 (t.insert x v) ∧ Stored sha3 db' (t.insert x v) := by
  induction t generalizing x fuel db b inLine with
  | empty =>
    obtain ⟨fuel, rfl⟩ : ∃ n, fuel = n + 1 := ⟨fuel - 1, by omega⟩
    rw [itemOf, mergeAt_null]
    refine (place_null_turns (ha.congr ?_) x v).mono ?_
    · rw [own_empty, add_zero]
      rfl
    · intro r db' _ hr
      exact ⟨hr, trivial⟩
  | leaf k w =>
    obtain ⟨fuel, rfl⟩ : ∃ n, fuel = n + 5 := ⟨fuel - 5, by omega⟩
    by_cases hk : k = x
    · subst hk
      have hins : (Patricia.leaf k w : Tree).insert k v = .leaf k v := if_pos rfl
      have hitem : itemOf sha3 (.leaf k w) = .list [.data (hexPrefix k true), .data w.val] := rfl
      rw [hins, hitem, mergeAt_pair, if_pos ⟨rfl, rfl⟩, ← hitem]
      refine (place_leaf_turns ha k v).mono ?_
      intro r db' _ hr
      exact ⟨hr, trivial⟩
    · have hins : (Patricia.leaf k w : Tree).insert x v = _ := if_neg hk
      rw [hins]
      refine mergeAt_split_turns (d := .inl w) fuel v _ (by simp) hk (by simp) ?_ inLine ha hst
      intro he
      exact (hclear he).not_initial (d := .inl w) ht hk (by simp)
  | ext k c ih =>
    have ht' := ht
    obtain ⟨hk, hb, hc⟩ := ht
    by_cases hp : k <+: x
    · obtain ⟨y, rfl⟩ := hp
      have hy : y.length + 1 ≤ (k ++ y).length := by
        cases k with
        | nil => exact absurd rfl hk
        | cons j k => simp
      obtain ⟨fuel, rfl⟩ : ∃ n, fuel = n + 1 := ⟨fuel - 1, by omega⟩
      have hins : (Patricia.ext k c : Tree).insert (k ++ y) v = .ext k (c.insert y v) := by
        rw [Patricia.insert, if_pos (List.prefix_append k y), List.drop_left]
      have hitem : itemOf sha3 (.ext k c) = .list [.data (hexPrefix k false), refOf sha3 (itemOf sha3 c)] := rfl
      rw [hins, hitem, mergeAt_pair, if_neg (by simp), if_pos ⟨List.prefix_append k y, rfl⟩, ← hitem, List.drop_left]
      refine mergeDown_turns fuel inLine ?_ ?_ hst
      · intro db₁ b₁ inLine₁ hi₁ he₁ ha₁ hst₁
        exact ih hc (by omega) hi₁ (fun he => (hclear (he₁ ▸ he)).ext) ha₁ hst₁
      · refine ha.congr ?_
        cases inLine with
        | true => rw [own_of_lt (hi rfl), if_pos rfl]
        | false => rfl
    · obtain ⟨fuel, rfl⟩ : ∃ n, fuel = n + 5 := ⟨fuel - 5, by omega⟩
      have hkx : k ≠ x := by
        rintro rfl
        exact hp (List.prefix_refl k)
      have hins : (Patricia.ext k c : Tree).insert x v = _ := if_neg hp
      rw [hins]
      refine mergeAt_split_turns (d := .inr c) fuel v _ ?_ hkx (fun _ => hp) ?_ inLine ha hst
      · rintro c' hc'
        cases hc'
        exact ⟨hk, hb, hc⟩
      · intro he
        exact (hclear he).not_initial (d := .inr c) ht' hkx fun _ => hp
  | branch cs w ih =>
    obtain ⟨fuel, rfl⟩ : ∃ n, fuel = n + 1 := ⟨fuel - 1, by omega⟩
    cases x with
    | nil =>
      rw [mergeAt_branch_nil]
      refine (place_branch_turns (b := b + below sha3 (.branch cs w)) ha (fun _ => rfl) v).mono ?_
      intro r db' hg hr
      exact ⟨hr, hst.grown hg⟩
    | cons i x =>
      simp only [List.length_cons] at hfuel
      rw [mergeAt_branch_cons]
      obtain ⟨rest, hb, hb'⟩ := below_branch sha3 cs w i
      have hkill : Turns sha3 (doIf (!inLine) (killNodeHash (itemOf sha3 (.branch cs w)) (hashOf sha3 (itemOf sha3 (.branch cs w)))))
          db (b + below sha3 (.branch cs w)) fun _ db' => SameNodes db db' := by
        cases inLine with
        | true => exact Turns.pure (ha.congr (by rw [own_of_lt (hi rfl), add_zero])) (SameNodes.refl db)
        | false => exact killNode_turns ha
      refine Turns.bind hkill ?_ fun _ =>
        Preserves.bind (preserves_mergeAtAux (preserves_mergeAt fuel) _ _ _) fun _ => Preserves.pure _
      intro _ db₁ ha₁ hg₁ _
      have hst₁ := hst.grown hg₁
      have ha₁' : Accounted sha3 db₁ (b + rest + below sha3 (cs i) + own sha3 (itemOf sha3 (cs i))) :=
        ha₁.congr (by rw [hb]; abel)
      have hfuel' : x.length + 5 ≤ fuel := by omega
      have hb₂ := hb' ((cs i).insert x v)
      refine Turns.bind (mergeAtAux_turns (f := mergeAt sha3 fuel) (fun inLine hi => ih i (ht.1 i) hfuel' hi
        (fun he => (hclear (hg₁.enforce_eq ▸ he)).branch) ha₁' (hst₁ i).2) ha₁' (hst₁ i).1) ?_ fun _ => Preserves.pure _
      rintro r db₂ ha₂ hg₂ ⟨rfl, hh, hst₂⟩
      refine Turns.pure (ha₂.congr ?_) ⟨replace_branch cs w i _, (hst₁.grown hg₂).update w i hh hst₂⟩
      rw [Patricia.insert, hb₂]
      abel

end Parts

/-! ## The root -/

/-- The database holds the tree under the root: the root's node and all nodes below it are there, and the references are those
of the tree and the one to the root. -/
structure Rooted (sha3 : Bytes → H256) (db : MemoryDB) (root : H256) (t : Tree) : Prop where
  canonical : t.Canonical
  root_eq : root = hashOf sha3 (itemOf sha3 t)
  has : Has sha3 db (itemOf sha3 t)
  stored : Stored sha3 db t
  accounted : Accounted sha3 db (below sha3 t + one root)
  null : Has sha3 db (.data [])

/-- The root is found. -/
theorem Rooted.node_eq {db : MemoryDB} {root : H256} {t : Tree} (h : Rooted sha3 db root t) :
    node root db = .ok (some (itemOf sha3 t)) db := by
  rw [h.root_eq]
  refine Webthree.node_eq h.has h.accounted ?_
  rw [Pi.add_apply, h.root_eq, one_self]
  omega

/-- The root is found in the database. -/
theorem Rooted.lookup_eq {db : MemoryDB} {root : H256} {t : Tree} (h : Rooted sha3 db root t) :
    db.lookup root = some (itemOf sha3 t) := by
  rw [h.root_eq]
  refine h.has.lookup h.accounted ?_
  rw [Pi.add_apply, h.root_eq, one_self]
  omega

theorem ofBytes_zero (key : Bytes) : NibbleSlice.ofBytes key 0 = asNibbles key := rfl

/-- The reference to a root that is too short to have one as a node. -/
def rootOwn (sha3 : Bytes → H256) (x : Item) : H256 → Nat := if x.encode.length < 32 then one (hashOf sha3 x) else 0

/-- The reference to a root is the one it has as a node or the one it has not. -/
theorem one_eq_rootOwn_add_own (x : Item) : one (hashOf sha3 x) = rootOwn sha3 x + own sha3 x := by
  unfold rootOwn
  by_cases hx : x.encode.length < 32
  · rw [if_pos hx, own_of_lt hx, add_zero]
  · rw [if_neg hx, own_of_le (by omega), zero_add]

/-- Giving up the reference to a short root. -/
theorem rootKill_turns {db : MemoryDB} {b : H256 → Nat} {x : Item} (ha : Accounted sha3 db (b + rootOwn sha3 x)) :
    Turns sha3 (doIf (x.encode.length < 32) (forceKillNode (hashOf sha3 x))) db b fun _ db' => SameNodes db db' := by
  unfold rootOwn at ha
  by_cases hx : x.encode.length < 32
  · rw [if_pos hx] at ha
    rw [decide_eq_true hx]
    exact forceKillNode_turns ha
  · rw [if_neg hx, add_zero] at ha
    rw [decide_eq_false hx]
    exact Turns.pure ha (SameNodes.refl db)

/-- The root is accounted for by its own entry. -/
theorem Rooted.accounted_own {db : MemoryDB} {root : H256} {t : Tree} (h : Rooted sha3 db root t) :
    Accounted sha3 db (rootOwn sha3 (itemOf sha3 t) + below sha3 t + own sha3 (itemOf sha3 t)) := by
  refine h.accounted.congr ?_
  rw [h.root_eq, one_eq_rootOwn_add_own (itemOf sha3 t)]
  abel

/-- `insert` sets the entry. -/
theorem insert_turns {db : MemoryDB} {root : H256} {t : Tree} (h : Rooted sha3 db root t) (key : Bytes) (v : Value)
    (hclear : db.m_enforceRefs = true → Clear t (asNibbles key)) :
    Provided (CollisionFree sha3) (TrieDB.insert sha3 root key v.val) db fun root' db' =>
      Rooted sha3 db' root' (t.insert (asNibbles key) v) ∧ db'.m_enforceRefs = db.m_enforceRefs := by
  have hroot := h.root_eq
  have hins := Patricia.insert_spec h.canonical (asNibbles key) v
  have hturn : Turns sha3 (TrieDB.insert sha3 root key v.val) db
      (below sha3 (t.insert (asNibbles key) v) + one (hashOf sha3 (itemOf sha3 (t.insert (asNibbles key) v)))) fun r db' =>
        r = hashOf sha3 (itemOf sha3 (t.insert (asNibbles key) v)) ∧
          Has sha3 db' (itemOf sha3 (t.insert (asNibbles key) v)) ∧ Stored sha3 db' (t.insert (asNibbles key) v) := by
    unfold TrieDB.insert
    refine Turns.read h.node_eq ?_
    rw [ofBytes_zero, hroot]
    refine Turns.bind (mergeAt_turns h.canonical v (Nat.le_refl _) (by simp) hclear h.accounted_own h.stored) ?_ fun _ =>
      Preserves.bind (preserves_doIf _ (preserves_forceKillNode _)) fun _ => preserves_forceInsertNode _
    rintro r db₁ ha₁ _ ⟨rfl, hst₁⟩
    refine Turns.bind (rootKill_turns (ha₁.congr (add_comm _ _))) ?_ fun _ => preserves_forceInsertNode _
    intro _ db₂ ha₂ hg₂ _
    refine (forceInsertNode_turns ha₂ _).mono ?_
    rintro r db₃ hg₃ ⟨hr, hh⟩
    exact ⟨hr, hh, (hst₁.grown hg₂).grown hg₃⟩
  refine Provided.mono hturn ?_
  rintro root' db' ⟨ha', hg, hr, hh, hst⟩
  exact ⟨⟨hins.2, hr, hh, hst, by rw [hr]; exact ha', hg.has _ h.null⟩, hg.enforce_eq⟩

end Webthree
