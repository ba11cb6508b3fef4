import Mathlib.Logic.Relation
import Webthree.Lib.PatriciaOrder
import Webthree.Lemmas.TrieRun
import Webthree.Trie.Iterator

/-!
# What an iterator reads

A trail stands for the entries that are still to come. A turn of `next` moves along without losing one, and stops at the first.
-/

namespace Webthree

open TrieDB

variable {sha3 : Bytes → H256} {db : MemoryDB}

/-! ## `next()` is `next(_key)` without a key -/

/-- Nothing is left to descend by. -/
theorem descendWith_nil (k : NibbleSlice) : descendWith [] k = some [] := by
  unfold descendWith
  cases k with
  | nil => rfl
  | cons i k => rfl

/-- A turn of `next` is a turn towards no key. -/
theorem nextTurn_eq (trail : Trail) : nextTurn db trail = nextKeyTurn db trail [] := by
  cases trail with
  | nil => rfl
  | cons back rest =>
    obtain ⟨rlp, key, child⟩ := back
    cases rlp with
    | none => rfl
    | some rlp =>
      have hshape : (!rlp.isList || (rlp.itemCount ≠ 2 && rlp.itemCount ≠ 17)) =
          !(rlp.isList && (rlp.itemCount = 2 || rlp.itemCount = 17)) := by
        simp [Bool.not_and, Bool.not_or]
      simp only [nextTurn, nextKeyTurn, enterPair, descendWith_nil, hshape]
      rfl

/-- The loop over the children goes on with no key when it had none. -/
theorem childLoop_key {rlp : Item} {turns : Nat} {back : IterNode} {rest trail : Trail} {k : NibbleSlice}
    (h : childLoop db rlp turns back rest [] = .ok (.again trail k)) : k = [] := by
  induction turns generalizing back with
  | zero => cases h
  | succ turns ih =>
    rw [childLoop] at h
    split at h
    · cases h
      rfl
    · split at h
      · split at h
        · cases h
        · obtain ⟨b, -, hb⟩ := bind_eq_ok.mp h
          cases hb
          rfl
      · exact ih h

/-- Without a key, none comes up. -/
theorem nextTurn_key {trail trail' : Trail} {k : NibbleSlice} (h : nextTurn db trail = .ok (.again trail' k)) : k = [] := by
  cases trail with
  | nil => cases h
  | cons back rest =>
    rw [nextTurn] at h
    split at h
    · split at h
      · cases h
      · cases h
        rfl
    · split at h
      · split at h
        · cases h
          rfl
        · split at h
          · cases h
          · split at h
            · simp only at h
              split at h
              · cases h
              · obtain ⟨b, -, hb⟩ := bind_eq_ok.mp h
                cases hb
                rfl
            · exact childLoop_key h
      · split at h
        · cases h
          rfl
        · exact childLoop_key h

/-- To go on is to go on towards no key. -/
theorem next_eq (fuel : Nat) (trail : Trail) : next db fuel trail = nextKey db fuel trail [] := by
  induction fuel generalizing trail with
  | zero => rfl
  | succ fuel ih =>
    rw [next, nextKey, ← nextTurn_eq]
    cases ht : nextTurn db trail with
    | error e => rfl
    | ok turn =>
      cases turn with
      | done trail' => rfl
      | again trail' k =>
        rw [nextTurn_key ht]
        exact ih trail'

/-! ## Trails -/

/-- Where an iterator stands in a node: at a leaf, at the value of a branch, or in one of its children. -/
inductive Mark where
  | leaf (path k : List Nibble) (v : Value)
  | value (path : List Nibble) (cs : Fin 16 → Tree) (v : Value)
  | child (path : List Nibble) (cs : Fin 16 → Tree) (v : Option Value) (i : Fin 16)

/-- The entries in the children of a branch from the child `c` on. -/
def childEntries (cs : Fin 16 → Tree) (c : Nat) : List (List Nibble × Value) :=
  ((List.finRange 16).drop c).flatMap fun i => shift [i] (cs i).entries

/-- The entries of the children are those of one and of the ones behind it. -/
theorem childEntries_cons (cs : Fin 16 → Tree) (i : Fin 16) :
    childEntries cs i = shift [i] (cs i).entries ++ childEntries cs (i + 1) := by
  rw [childEntries, List.drop_eq_getElem_cons (by simp), List.flatMap_cons, List.getElem_finRange]
  rfl

namespace Mark

/-- The entry at the mark. -/
def current : Mark → Option (List Nibble × Value)
  | leaf path _ v => some (path, v)
  | value path _ v => some (path, v)
  | child _ _ _ _ => none

/-- The entries of the node behind the mark. -/
def rest : Mark → List (List Nibble × Value)
  | leaf _ _ _ => []
  | value path cs _ => shift path (childEntries cs 0)
  | child path cs _ i => shift path (childEntries cs (i + 1))

/-- The tree of the node. -/
def tree : Mark → Tree
  | leaf _ k v => .leaf k v
  | value _ cs v => .branch cs (some v)
  | child _ cs v _ => .branch cs v

/-- The mark in a trail. -/
def node (sha3 : Bytes → H256) : Mark → IterNode
  | leaf path k v => ⟨some (itemOf sha3 (.leaf k v)), hexPrefix path false, 0⟩
  | value path cs v => ⟨some (itemOf sha3 (.branch cs (some v))), hexPrefix path false, 16⟩
  | child path cs v i => ⟨some (itemOf sha3 (.branch cs v)), hexPrefix path false, i⟩

end Mark

/-- The entries that are still to come. -/
def pending (ms : List Mark) : List (List Nibble × Value) := ms.flatMap Mark.rest

/-- The trail of the marks. -/
def trailOf (sha3 : Bytes → H256) (ms : List Mark) : Trail := ms.map (Mark.node sha3)

/-- All trees of the marks can be read. -/
def Readable (sha3 : Bytes → H256) (db : MemoryDB) (ms : List Mark) : Prop :=
  ∀ m ∈ ms, m.tree.Canonical ∧ Found sha3 db m.tree

/-- The node of a tree that is entered. -/
def entering (sha3 : Bytes → H256) (path : List Nibble) (t : Tree) : IterNode := ⟨some (itemOf sha3 t), hexPrefix path false, 255⟩

/-! ## Turns -/

/-- The loop of `next` goes from one state to another. -/
def Goes (db : MemoryDB) : Trail × NibbleSlice → Trail × NibbleSlice → Prop :=
  Relation.ReflTransGen fun s s' => nextKeyTurn db s.1 s.2 = .ok (.again s'.1 s'.2)

/-- The loop of `next` returns. -/
def Stops (db : MemoryDB) (s : Trail × NibbleSlice) (trail : Trail) : Prop :=
  ∃ s', Goes db s s' ∧ nextKeyTurn db s'.1 s'.2 = .ok (.done trail)

/-- The marks stand at the first of the entries, and the others are to come in them. -/
structure StandsAt (sha3 : Bytes → H256) (db : MemoryDB) (ms : List Mark) (e : List Nibble × Value)
    (es : List (List Nibble × Value)) : Prop where
  current_eq : ms.head?.bind Mark.current = some e
  pending_eq : pending ms = es
  readable : Readable sha3 db ms

/-- From a state the loop comes to the first of the entries, before it comes back to the marks `r`; if there is none it comes
back to them. -/
def Yields (sha3 : Bytes → H256) (db : MemoryDB) (s : Trail × NibbleSlice) (r : List Mark) :
    List (List Nibble × Value) → Prop
  | [] => Goes db s (trailOf sha3 r, [])
  | e :: es => ∃ ms, Stops db s (trailOf sha3 (ms ++ r)) ∧ StandsAt sha3 db ms e es

/-- The same for the end of a turn. -/
def TurnYields (sha3 : Bytes → H256) (db : MemoryDB) (r : List Mark) (es : List (List Nibble × Value)) :
    Except TrieError IterTurn → Prop
  | .ok (.again trail k) => Yields sha3 db (trail, k) r es
  | .ok (.done trail) => ∃ e es' ms, es = e :: es' ∧ trail = trailOf sha3 (ms ++ r) ∧ StandsAt sha3 db ms e es'
  | .error _ => False

/-- What goes on to a stop stops there. -/
theorem Stops.head {s s' : Trail × NibbleSlice} {trail : Trail} (h : Stops db s' trail) (hg : Goes db s s') : Stops db s trail := by
  obtain ⟨s'', hg', hd⟩ := h
  exact ⟨s'', hg.trans hg', hd⟩

/-- What goes on to visits yields them. -/
theorem Yields.head {s s' : Trail × NibbleSlice} {r : List Mark} {es : List (List Nibble × Value)} (h : Yields sha3 db s' r es)
    (hg : Goes db s s') : Yields sha3 db s r es := by
  cases es with
  | nil => exact hg.trans h
  | cons e es =>
    obtain ⟨ms, hs, ha⟩ := h
    exact ⟨ms, hs.head hg, ha⟩

/-- A turn that yields is a loop that yields. -/
theorem TurnYields.yields {trail : Trail} {k : NibbleSlice} {r : List Mark} {es : List (List Nibble × Value)}
    (h : TurnYields sha3 db r es (nextKeyTurn db trail k)) : Yields sha3 db (trail, k) r es := by
  cases ht : nextKeyTurn db trail k with
  | error e =>
    rw [ht] at h
    exact absurd h not_false
  | ok turn =>
    rw [ht] at h
    cases turn with
    | again trail' k' => exact Yields.head h (Relation.ReflTransGen.single ht)
    | done trail' =>
      obtain ⟨e, es', ms, rfl, rfl, ha⟩ := h
      exact ⟨ms, ⟨(trail, k), Relation.ReflTransGen.refl, ht⟩, ha⟩

/-- After the entries below a mark come the ones behind it. -/
theorem Yields.append {s : Trail × NibbleSlice} {m : Mark} {r : List Mark} {es : List (List Nibble × Value)}
    (h : Yields sha3 db s (m :: r) es) (hm : m.tree.Canonical ∧ Found sha3 db m.tree)
    (hr : Yields sha3 db (trailOf sha3 (m :: r), []) r m.rest) : Yields sha3 db s r (es ++ m.rest) := by
  cases es with
  | nil => exact hr.head h
  | cons e es =>
    obtain ⟨ms, hs, hc, hp, hread⟩ := h
    refine ⟨ms ++ [m], by rwa [List.append_assoc], ?_, ?_, ?_⟩
    · cases ms with
      | nil => cases hc
      | cons m' ms => exact hc
    · rw [pending, List.flatMap_append, ← pending, hp, List.flatMap_singleton]
      rfl
    · intro m' hm'
      rcases List.mem_append.mp hm' with h | h
      · exact hread m' h
      · rw [List.mem_singleton.mp h]
        exact hm

/-! ## Entering a tree -/

/-- A key is prolonged by the nibbles of the way down. -/
theorem keyOfBytes_push (path k : List Nibble) :
    hexPrefixEncode₂ (keyOfBytes (hexPrefix path false)) k false = hexPrefix (path ++ k) false := by
  rw [hexPrefixEncode₂_eq, keyOfBytes_hexPrefix]

/-- The nibble of a child, as the slice that the source makes. -/
theorem ofBytes_child : ∀ i : Fin 16, NibbleSlice.ofBytes [UInt8.ofNat i] 1 = [i] := by decide

/-- An earlier key is before everything under the word. -/
theorem not_lt_of_isEarlierThan {k q : List Nibble} (h : NibbleSlice.isEarlierThan k q = true) (y : List Nibble) : ¬q ++ y < k := by
  induction k generalizing q with
  | nil => exact List.not_lt_nil _
  | cons a k ih =>
    cases q with
    | nil => simp [NibbleSlice.isEarlierThan] at h
    | cons b q =>
      rw [List.cons_append, List.cons_lt_cons_iff]
      rintro (hlt | ⟨rfl, hlt⟩)
      · simp [NibbleSlice.isEarlierThan, hlt] at h
        exact absurd hlt (lt_asymm h)
      · simp only [NibbleSlice.isEarlierThan, lt_irrefl, if_false] at h
        exact ih h hlt

/-- A key that is not earlier and does not go on from the word is behind everything under it. -/
theorem lt_of_not_isEarlierThan {k q : List Nibble} (h : NibbleSlice.isEarlierThan k q = false) (hq : ¬q <+: k) (y : List Nibble) :
    q ++ y < k := by
  induction k generalizing q with
  | nil =>
    cases q with
    | nil => exact absurd List.nil_prefix hq
    | cons b q => simp [NibbleSlice.isEarlierThan] at h
  | cons a k ih =>
    cases q with
    | nil => exact absurd List.nil_prefix hq
    | cons b q =>
      rw [List.cons_append, List.cons_lt_cons_iff]
      rcases Nat.lt_trichotomy a.val b.val with hlt | heq | hgt
      · simp [NibbleSlice.isEarlierThan, Fin.lt_def, hlt] at h
      · obtain rfl : a = b := Fin.ext heq
        refine Or.inr ⟨rfl, ih ?_ fun hp => hq (List.cons_prefix_cons.mpr ⟨rfl, hp⟩)⟩
        simpa [NibbleSlice.isEarlierThan] using h
      · exact Or.inl hgt

/-- What `descendWith` says of the entries below a key. -/
theorem descendWith_spec (k q : List Nibble) (es : List (List Nibble × Value)) :
    (descendWith k q = none ∧ since k (shift q es) = []) ∨
      ∃ k', descendWith k q = some k' ∧ since k (shift q es) = shift q (since k' es) := by
  unfold descendWith
  by_cases hq : q <+: k
  · obtain ⟨y, rfl⟩ := hq
    right
    refine ⟨y, ?_, since_shift q y es⟩
    rw [(NibbleSlice.contains_iff (q ++ y) q).mpr (List.prefix_append q y)]
    simp [NibbleSlice.mid, NibbleSlice.size]
  · rw [Bool.eq_false_iff.mpr fun h => hq ((NibbleSlice.contains_iff k q).mp h)]
    cases he : NibbleSlice.isEarlierThan k q with
    | true =>
      right
      refine ⟨[], rfl, ?_⟩
      rw [since_nil]
      refine since_eq_self ?_
      rintro ⟨x, a⟩ hx
      obtain ⟨y, rfl, -⟩ := mem_shift.mp hx
      exact not_lt_of_isEarlierThan he y
    | false =>
      left
      refine ⟨rfl, since_eq_nil ?_⟩
      rintro ⟨x, a⟩ hx
      obtain ⟨y, rfl, -⟩ := mem_shift.mp hx
      exact lt_of_not_isEarlierThan he hq y

/-- A child that is there is entered behind its nibble. -/
theorem pushChild_eq {cs : Fin 16 → Tree} {v : Option Value} (hf : Found sha3 db (.branch cs v)) (path : List Nibble)
    {i : Fin 16} (hne : cs i ≠ .empty) :
    pushChild db (itemOf sha3 (.branch cs v)) ⟨some (itemOf sha3 (.branch cs v)), hexPrefix path false, i⟩ =
      .ok (entering sha3 (path ++ [i]) (cs i)) := by
  unfold pushChild
  rw [get_branch, (hf i).1.deref_eq hne, ofBytes_child, keyOfBytes_push]
  rfl

/-- Entering a tree yields its entries from the key on. -/
def EnterYields (sha3 : Bytes → H256) (db : MemoryDB) (t : Tree) : Prop :=
  ∀ path k r, Yields sha3 db (entering sha3 path t :: trailOf sha3 r, k) r (shift path (since k t.entries))

section Branch

variable {cs : Fin 16 → Tree} {v : Option Value}

/-- The number a child has in the loop. -/
def childNumber (c : Nat) : Nat := if c = 16 then 17 else c

/-- A node moves on to its next child. -/
theorem incrementChild_eq (rlp : Option Item) (key : Bytes) {c : Nat} (hc : c < 16) :
    IterNode.incrementChild ⟨rlp, key, c⟩ = ⟨rlp, key, childNumber (c + 1)⟩ := by
  have h16 : c ≠ 16 := Nat.ne_of_lt hc
  unfold IterNode.incrementChild IterNode.setChild childNumber
  by_cases h : c = 15
  · simp [h]
  · simp [h, h16]

/-- The entries of the children from `c` on, in `c` itself from the key on. -/
def fromChild (cs : Fin 16 → Tree) (c : Nat) (k : List Nibble) : List (List Nibble × Value) :=
  if h : c < 16 then shift [⟨c, h⟩] (since k (cs ⟨c, h⟩).entries) ++ childEntries cs (c + 1) else []

/-- Without a key the children come from the first one. -/
theorem fromChild_nil (cs : Fin 16 → Tree) {c : Nat} (hc : c ≤ 16) : fromChild cs c [] = childEntries cs c := by
  unfold fromChild
  by_cases h : c < 16
  · rw [dif_pos h, since_nil]
    exact (childEntries_cons cs ⟨c, h⟩).symm
  · obtain rfl : c = 16 := by omega
    rfl

/-- A turn that goes on in a branch. -/
theorem nextKeyTurn_continue (path : List Nibble) {c : Nat} (hc : c ≠ 255) (rest : Trail) (k : NibbleSlice) :
    nextKeyTurn db (⟨some (itemOf sha3 (.branch cs v)), hexPrefix path false, c⟩ :: rest) k =
      childLoop db (itemOf sha3 (.branch cs v)) 18
        (IterNode.incrementChild ⟨some (itemOf sha3 (.branch cs v)), hexPrefix path false, c⟩) rest k := by
  have hlist : (itemOf sha3 (.branch cs v)).isList = true := isList_itemOf (by simp)
  simp only [nextKeyTurn, hc, hlist, itemCount_branch, decide_true, Bool.and_self, Bool.not_true, if_false, Bool.false_eq_true]

/-- The loop over the children of a branch yields their entries, in the first of them from the key on. -/
theorem childLoop_yields (hcan : (Patricia.branch cs v : Tree).Canonical) (hf : Found sha3 db (.branch cs v))
    (henter : ∀ i, EnterYields sha3 db (cs i)) (path : List Nibble) (r : List Mark) (j c turns : Nat) (hc : c + j = 16)
    (hturns : j + 1 ≤ turns) (k : NibbleSlice) :
    TurnYields sha3 db r (shift path (fromChild cs c k)) (childLoop db (itemOf sha3 (.branch cs v)) turns
      ⟨some (itemOf sha3 (.branch cs v)), hexPrefix path false, childNumber c⟩ (trailOf sha3 r) k) := by
  induction j generalizing c turns k with
  | zero =>
    obtain ⟨turns, rfl⟩ : ∃ n, turns = n + 1 := ⟨turns - 1, by omega⟩
    obtain rfl : c = 16 := by omega
    exact Relation.ReflTransGen.refl
  | succ j ih =>
    obtain ⟨turns, rfl⟩ : ∃ n, turns = n + 1 := ⟨turns - 1, by omega⟩
    obtain ⟨i, rfl⟩ : ∃ i : Fin 16, c = i.val := ⟨⟨c, by omega⟩, rfl⟩
    have hnum : childNumber i = i := if_neg (Nat.ne_of_lt i.isLt)
    have hi17 : ¬i.val = 17 := by omega
    have hi16 : ¬i.val = 16 := by omega
    -- what comes from the children behind this one
    have hnext : ∀ turns, j + 1 ≤ turns → TurnYields sha3 db r (shift path (childEntries cs (i + 1)))
        (childLoop db (itemOf sha3 (.branch cs v)) turns
          (IterNode.incrementChild ⟨some (itemOf sha3 (.branch cs v)), hexPrefix path false, i⟩) (trailOf sha3 r) []) := by
      intro turns hturns
      rw [incrementChild_eq _ _ i.isLt, ← fromChild_nil cs (by omega)]
      exact ih (i + 1) turns (by omega) hturns []
    rw [childLoop, fromChild, dif_pos i.isLt, shift_append, shift_shift]
    simp only [hnum, get_branch, isEmpty_refOf, hi17, if_false, Fin.eta]
    by_cases he : cs i = .empty
    · rw [he]
      exact hnext turns (by omega)
    · have hn : (cs i).isEmpty = false := by rwa [← Bool.not_eq_true, Patricia.isEmpty_iff]
      simp only [hn, pushChild_eq hf path he, hi16, Bool.not_false, if_true, if_false]
      refine (henter i (path ++ [i]) k (Mark.child path cs v i :: r)).append ⟨hcan, hf⟩ (TurnYields.yields ?_)
      have hturn : nextKeyTurn db (trailOf sha3 (Mark.child path cs v i :: r)) [] = _ :=
        nextKeyTurn_continue path (by omega) (trailOf sha3 r) []
      rw [hturn]
      exact hnext 18 (by omega)

/-- The entries of a branch from a word on. -/
theorem since_entries_branch (i : Fin 16) (k : List Nibble) :
    since (i :: k) (Patricia.branch cs v : Tree).entries = fromChild cs i k := by
  have hsplit : (List.finRange 16).flatMap (fun j => shift [j] (cs j).entries) =
      ((List.finRange 16).take i).flatMap (fun j => shift [j] (cs j).entries) ++ childEntries cs i := by
    rw [childEntries, ← List.flatMap_append, List.take_append_drop]
  rw [Patricia.entries, hsplit, childEntries_cons, fromChild, dif_pos i.isLt]
  simp only [since_append, Fin.eta]
  have hvalue : since (i :: k) (v.toList.map fun a => (([] : List Nibble), a)) = [] := by
    refine since_eq_nil ?_
    intro e he
    obtain ⟨a, -, rfl⟩ := List.mem_map.mp he
    exact List.nil_lt_cons i k
  have hbefore : since (i :: k) (((List.finRange 16).take i).flatMap fun j => shift [j] (cs j).entries) = [] := by
    refine since_eq_nil ?_
    rintro ⟨x, a⟩ he
    obtain ⟨j, hj, hx⟩ := List.mem_flatMap.mp he
    obtain ⟨y, rfl, -⟩ := mem_shift.mp hx
    obtain ⟨m, hm, rfl⟩ := List.mem_take_iff_getElem.mp hj
    refine List.cons_lt_cons_iff.mpr (Or.inl ?_)
    rw [List.getElem_finRange, Fin.lt_def]
    simp only [Fin.val_cast]
    omega
  have hbehind : since (i :: k) (childEntries cs (i + 1)) = childEntries cs (i + 1) := by
    refine since_eq_self ?_
    rintro ⟨x, a⟩ he
    obtain ⟨j, hj, hx⟩ := List.mem_flatMap.mp he
    obtain ⟨y, rfl, -⟩ := mem_shift.mp hx
    obtain ⟨m, hm, rfl⟩ := List.mem_drop_iff_getElem.mp hj
    rw [List.singleton_append, List.cons_lt_cons_iff, List.getElem_finRange, Fin.lt_def]
    rintro (hlt | ⟨heq, -⟩)
    · simp only [Fin.val_cast] at hlt
      omega
    · have := congrArg Fin.val heq
      simp only [Fin.val_cast] at this
      omega
  rw [hvalue, hbefore, hbehind, List.nil_append, List.nil_append, ← since_shift]
  rfl

/-- A turn that enters a branch. -/
theorem nextKeyTurn_branch (path : List Nibble) (rest : Trail) (k : NibbleSlice) :
    nextKeyTurn db (entering sha3 path (.branch cs v) :: rest) k =
      match k with
      | n :: k => childLoop db (itemOf sha3 (.branch cs v)) 18 ⟨some (itemOf sha3 (.branch cs v)), hexPrefix path false, n⟩ rest k
      | [] => childLoop db (itemOf sha3 (.branch cs v)) 18 ⟨some (itemOf sha3 (.branch cs v)), hexPrefix path false, 16⟩ rest [] := by
  have hlist : (itemOf sha3 (.branch cs v)).isList = true := isList_itemOf (by simp)
  have hempty : (Patricia.branch cs v : Tree).isEmpty = false := rfl
  simp only [nextKeyTurn, entering, hlist, hempty, isEmpty_itemOf, itemCount_branch, if_true]
  cases k with
  | nil => rfl
  | cons n k => rfl

/-- Entering a branch. -/
theorem enterYields_branch (hcan : (Patricia.branch cs v : Tree).Canonical) (hf : Found sha3 db (.branch cs v))
    (henter : ∀ i, EnterYields sha3 db (cs i)) : EnterYields sha3 db (.branch cs v) := by
  intro path k r
  refine TurnYields.yields ?_
  rw [nextKeyTurn_branch]
  cases k with
  | cons i k =>
    rw [since_entries_branch]
    have h := childLoop_yields hcan hf henter path r (16 - i) i 18 (by omega) (by omega) k
    rwa [childNumber, if_neg (Nat.ne_of_lt i.isLt)] at h
  | nil =>
    rw [since_nil, childLoop]
    simp only [get_branch_sixteen]
    cases v with
    | some w =>
      have hw : (Item.data (valueBytes (some w))).isEmpty = false := by
        cases hb : w.val with
        | nil => exact absurd hb w.property
        | cons x xs => simp [Item.isEmpty, valueBytes, hb]
      rw [hw]
      refine ⟨(path, w), shift path (childEntries cs 0), [Mark.value path cs w], ?_, rfl, rfl, ?_, ?_⟩
      · simp [Patricia.entries, childEntries]
      · simp [pending, Mark.rest]
      · intro m hm
        rw [List.mem_singleton.mp hm]
        exact ⟨hcan, hf⟩
    | none =>
      have h := childLoop_yields hcan hf henter path r 16 0 17 (by omega) (by omega) []
      rw [fromChild_nil cs (by omega)] at h
      exact h

end Branch

/-- A turn that enters a node with two items. -/
theorem nextKeyTurn_pair (path q : List Nibble) (leaf : Bool) (y : Item) (rest : Trail) (k : NibbleSlice) :
    nextKeyTurn db (⟨some (.list [.data (hexPrefix q leaf), y]), hexPrefix path false, 255⟩ :: rest) k =
      match descendWith k q with
      | none => .ok (.again rest [])
      | some k =>
        if leaf then
          if k.isEmpty then .ok (.done (⟨some (.list [.data (hexPrefix q leaf), y]), hexPrefix (path ++ q) false, 0⟩ :: rest))
          else .ok (.again rest [])
        else do return .again (⟨← deref db y, hexPrefix (path ++ q) false, 255⟩ :: rest) k := by
  have h1 : (Item.list [.data (hexPrefix q leaf), y]).isEmpty = false := rfl
  have h2 : (Item.list [.data (hexPrefix q leaf), y]).isList = true := rfl
  have h3 : (Item.list [.data (hexPrefix q leaf), y]).itemCount = 2 := rfl
  simp only [nextKeyTurn, h1, h2, h3, enterPair, keyOf_pair, isLeaf_pair, keyOfBytes_push, if_true]
  cases descendWith k q with
  | none => rfl
  | some k' => rfl

/-- A leaf yields its one entry. -/
theorem enterYields_leaf (q : List Nibble) (w : Value) : EnterYields sha3 db (.leaf q w) := by
  intro path k r
  refine TurnYields.yields ?_
  have hitem : itemOf sha3 (.leaf q w) = .list [.data (hexPrefix q true), .data w.val] := rfl
  have hentries : (Patricia.leaf q w : Tree).entries = shift q [([], w)] := by simp [Patricia.entries]
  rw [entering, hitem, nextKeyTurn_pair, hentries]
  rcases descendWith_spec k q [([], w)] with ⟨hd, hs⟩ | ⟨k', hd, hs⟩
  · rw [hd, hs]
    exact Relation.ReflTransGen.refl
  · rw [hd, hs]
    cases k' with
    | nil =>
      refine ⟨(path ++ q, w), [], [Mark.leaf (path ++ q) q w], ?_, rfl, rfl, rfl, ?_⟩
      · simp
      · intro m hm
        rw [List.mem_singleton.mp hm]
        exact ⟨trivial, trivial⟩
    | cons i k' =>
      rw [since_eq_nil (by simp)]
      exact Relation.ReflTransGen.refl

/-- An extension yields the entries below it. -/
theorem enterYields_ext {q : List Nibble} {c : Tree} (hne : c ≠ .empty) (hl : Leads sha3 db c) (henter : EnterYields sha3 db c) :
    EnterYields sha3 db (.ext q c) := by
  intro path k r
  refine TurnYields.yields ?_
  have hitem : itemOf sha3 (.ext q c) = .list [.data (hexPrefix q false), refOf sha3 (itemOf sha3 c)] := rfl
  rw [entering, hitem, nextKeyTurn_pair, Patricia.entries]
  rcases descendWith_spec k q c.entries with ⟨hd, hs⟩ | ⟨k', hd, hs⟩
  · rw [hd, hs]
    exact Relation.ReflTransGen.refl
  · rw [hd, hs, hl.deref_eq hne, shift_shift]
    exact henter (path ++ q) k' r

/-- Entering a tree that can be read yields its entries from the key on. -/
theorem enterYields {t : Tree} (ht : t.Canonical) (hf : Found sha3 db t) : EnterYields sha3 db t := by
  induction t with
  | empty =>
    intro path k r
    refine TurnYields.yields ?_
    exact Relation.ReflTransGen.refl
  | leaf q w => exact enterYields_leaf q w
  | ext q c ih => exact enterYields_ext ht.2.1.ne_empty hf.1 (ih ht.2.2 hf.2)
  | branch cs v ih => exact enterYields_branch ht hf fun i => ih i (ht.1 i) (hf i).2

/-! ## Going on from a trail -/

/-- From a mark the loop yields what is behind it. -/
theorem mark_yields {m : Mark} (hm : m.tree.Canonical ∧ Found sha3 db m.tree) (r : List Mark) :
    Yields sha3 db (trailOf sha3 (m :: r), []) r m.rest := by
  refine TurnYields.yields ?_
  have hchild : ∀ {cs : Fin 16 → Tree} {v : Option Value} (path : List Nibble) (c : Nat), c ≤ 16 →
      (Patricia.branch cs v : Tree).Canonical → Found sha3 db (.branch cs v) →
      TurnYields sha3 db r (shift path (childEntries cs c)) (childLoop db (itemOf sha3 (.branch cs v)) 18
        ⟨some (itemOf sha3 (.branch cs v)), hexPrefix path false, childNumber c⟩ (trailOf sha3 r) []) := by
    intro cs v path c hc hcan hf
    rw [← fromChild_nil cs hc]
    exact childLoop_yields hcan hf (fun i => enterYields (hcan.1 i) (hf i).2) path r (16 - c) c 18 (by omega) (by omega) []
  cases m with
  | leaf path k v => exact Relation.ReflTransGen.refl
  | value path cs v =>
    have hturn : nextKeyTurn db (trailOf sha3 (Mark.value path cs v :: r)) [] = _ :=
      nextKeyTurn_continue path (by decide) (trailOf sha3 r) []
    rw [hturn]
    exact hchild path 0 (by omega) hm.1 hm.2
  | child path cs v i =>
    have hturn : nextKeyTurn db (trailOf sha3 (Mark.child path cs v i :: r)) [] = _ :=
      nextKeyTurn_continue path (by omega) (trailOf sha3 r) []
    rw [hturn, incrementChild_eq _ _ i.isLt]
    exact hchild path (i + 1) (by omega) hm.1 hm.2

/-- The iterator stands at the first of the entries with the others to come, or is `end()`. -/
def Rests (sha3 : Bytes → H256) (db : MemoryDB) (ms : List Mark) : List (List Nibble × Value) → Prop
  | [] => ms = []
  | e :: es => StandsAt sha3 db ms e es

/-- A loop that comes to the entries or back to the marks stops. -/
theorem Yields.stops {s : Trail × NibbleSlice} {r : List Mark} {es : List (List Nibble × Value)} (h : Yields sha3 db s r es)
    (hread : Readable sha3 db r) (hr : ∃ ms, Stops db (trailOf sha3 r, []) (trailOf sha3 ms) ∧ Rests sha3 db ms (pending r)) :
    ∃ ms, Stops db s (trailOf sha3 ms) ∧ Rests sha3 db ms (es ++ pending r) := by
  cases es with
  | nil =>
    obtain ⟨ms, hs, hrest⟩ := hr
    exact ⟨ms, hs.head h, hrest⟩
  | cons e es =>
    obtain ⟨ms, hs, hc, hp, hread'⟩ := h
    refine ⟨ms ++ r, hs, ?_, ?_, ?_⟩
    · cases ms with
      | nil => cases hc
      | cons m ms => exact hc
    · rw [pending, List.flatMap_append, ← pending, ← pending, hp]
      rfl
    · intro m hm
      rcases List.mem_append.mp hm with h | h
      · exact hread' m h
      · exact hread m h

/-- `next` goes on to the entry that comes first. -/
theorem next_stops {ms : List Mark} (h : Readable sha3 db ms) :
    ∃ ms', Stops db (trailOf sha3 ms, []) (trailOf sha3 ms') ∧ Rests sha3 db ms' (pending ms) := by
  induction ms with
  | nil => exact ⟨[], ⟨_, Relation.ReflTransGen.refl, rfl⟩, rfl⟩
  | cons m ms ih =>
    have hms : Readable sha3 db ms := fun m' hm' => h m' (List.mem_cons_of_mem m hm')
    exact (mark_yields (h m List.mem_cons_self) ms).stops hms (ih hms)

/-- A tree that is entered from its root. -/
theorem enter_stops {t : Tree} (ht : t.Canonical) (hf : Found sha3 db t) (k : NibbleSlice) :
    ∃ ms, Stops db ([entering sha3 [] t], k) (trailOf sha3 ms) ∧ Rests sha3 db ms (since k t.entries) := by
  have h := (enterYields ht hf [] k []).stops (fun m hm => absurd hm List.not_mem_nil) (next_stops fun m hm => absurd hm List.not_mem_nil)
  rwa [shift_nil_left, pending, List.flatMap_nil, List.append_nil] at h

/-- Where the loop stops, enough turns are enough. -/
theorem Stops.nextKey_eq {s : Trail × NibbleSlice} {trail : Trail} (h : Stops db s trail) :
    ∃ turns, ∀ fuel, turns ≤ fuel → nextKey db fuel s.1 s.2 = .ok trail := by
  obtain ⟨s', hg, hd⟩ := h
  induction hg using Relation.ReflTransGen.head_induction_on with
  | refl =>
    refine ⟨1, ?_⟩
    intro fuel hfuel
    obtain ⟨fuel, rfl⟩ : ∃ n, fuel = n + 1 := ⟨fuel - 1, by omega⟩
    rw [nextKey, hd]
    rfl
  | head ht _ ih =>
    obtain ⟨turns, h⟩ := ih
    refine ⟨turns + 1, ?_⟩
    intro fuel hfuel
    obtain ⟨fuel, rfl⟩ : ∃ n, fuel = n + 1 := ⟨fuel - 1, by omega⟩
    rw [nextKey, ht]
    exact h fuel (by omega)

/-! ## Reading entries -/

/-- An entry as `at()` returns it. -/
def byteEntry (e : List Nibble × Value) : Bytes × Bytes := (packAll e.1, e.2.val)

/-- The nibbles of bytes are packed to those bytes. -/
theorem packAll_asNibbles (b : Bytes) : packAll (asNibbles b) = b := by
  have hlen : (asNibbles b).length % 2 = 0 := by rw [length_asNibbles]; omega
  exact asNibbles_injective (asNibbles_packAll hlen)

/-- The hex prefix of whole bytes is a zero byte and the bytes. -/
theorem hexPrefix_asNibbles (b : Bytes) : hexPrefix (asNibbles b) false = 0 :: b := by
  rcases hexPrefix_cases (asNibbles b) false with ⟨-, h⟩ | ⟨n, s, hb, hs, -⟩
  · rw [h, packAll_asNibbles]
    rfl
  · have hlen := congrArg List.length hb
    rw [length_asNibbles, List.length_cons] at hlen
    omega

/-- The iterator reads the key and the value of the node that it stands on. -/
theorem iterAt_whole (rlp : Item) (b : Bytes) (c : Nat) (rest : Trail) :
    iterAt (⟨some rlp, hexPrefix (asNibbles b) false, c⟩ :: rest) =
      .ok (b, (rlp.get (if rlp.itemCount = 2 then 1 else 16)).payload) := by
  simp only [iterAt, hexPrefix_asNibbles]
  rw [if_neg (by simp)]
  rfl

/-- `at()` reads the entry the iterator stands at. -/
theorem StandsAt.iterAt_eq {ms : List Mark} {e : List Nibble × Value} {es : List (List Nibble × Value)}
    (h : StandsAt sha3 db ms e es) {b : Bytes} (hb : e.1 = asNibbles b) : iterAt (trailOf sha3 ms) = .ok (byteEntry e) := by
  have hc := h.current_eq
  cases ms with
  | nil => cases hc
  | cons m ms =>
    cases m with
    | leaf path k v =>
      obtain rfl : (path, v) = e := Option.some.inj hc
      obtain rfl : path = asNibbles b := hb
      rw [byteEntry, packAll_asNibbles]
      exact iterAt_whole _ b 0 (trailOf sha3 ms)
    | value path cs v =>
      obtain rfl : (path, v) = e := Option.some.inj hc
      obtain rfl : path = asNibbles b := hb
      rw [byteEntry, packAll_asNibbles]
      refine (iterAt_whole _ b 16 (trailOf sha3 ms)).trans ?_
      rw [itemCount_branch, if_neg (by decide), get_branch_sixteen]
      rfl
    | child path cs v i => cases hc

/-- Reading to the end. -/
theorem readAll_eq {ms : List Mark} {es : List (List Nibble × Value)} (h : Rests sha3 db ms es)
    (hkeys : ∀ e ∈ es, ∃ b, e.1 = asNibbles b) :
    ∃ turns, ∀ fuel, turns ≤ fuel → ∀ n, es.length ≤ n → readAll db fuel n (trailOf sha3 ms) = .ok (es.map byteEntry) := by
  induction es generalizing ms with
  | nil =>
    obtain rfl : ms = [] := h
    refine ⟨0, ?_⟩
    intro fuel _ n _
    cases n with
    | zero => rfl
    | succ n => rfl
  | cons e es ih =>
    obtain ⟨b, hb⟩ := hkeys e List.mem_cons_self
    have hat := StandsAt.iterAt_eq h hb
    obtain ⟨ms', hs, hr⟩ := next_stops h.readable
    rw [h.pending_eq] at hr
    obtain ⟨turns, hnext⟩ := hs.nextKey_eq
    obtain ⟨turns', hall⟩ := ih hr fun e' he' => hkeys e' (List.mem_cons_of_mem e he')
    refine ⟨max turns turns', ?_⟩
    intro fuel hfuel n hn
    obtain ⟨n, rfl⟩ : ∃ k, n = k + 1 := ⟨n - 1, by simp only [List.length_cons] at hn; omega⟩
    simp only [List.length_cons] at hn
    cases ms with
    | nil => cases h.current_eq
    | cons m ms =>
      have htrail : trailOf sha3 (m :: ms) = m.node sha3 :: trailOf sha3 ms := rfl
      rw [htrail, readAll, ← htrail, hat, next_eq, hnext fuel (by omega)]
      simp only [ok_bind, hall fuel (by omega) n (by omega)]
      rfl

/-! ## The entries of a map -/

/-- Bytes are ordered by their nibbles. -/
theorem nibbles_lt_iff (x y : UInt8) :
    x < y ↔ highNibble x < highNibble y ∨ highNibble x = highNibble y ∧ lowNibble x < lowNibble y := by
  have hx : x.toNat / 16 < 16 := by have := x.toNat_lt; omega
  have hy : y.toNat / 16 < 16 := by have := y.toNat_lt; omega
  simp only [UInt8.lt_iff_toNat_lt, Fin.lt_def, Fin.ext_iff, highNibble, lowNibble, Fin.val_ofNat, Nat.mod_eq_of_lt hx,
    Nat.mod_eq_of_lt hy, Nat.mod_mod]
  omega

/-- Strings are in the order of their nibbles. -/
theorem asNibbles_lt_iff {a b : Bytes} : asNibbles a < asNibbles b ↔ a < b := by
  induction a generalizing b with
  | nil =>
    cases b with
    | nil => simp [asNibbles]
    | cons y b => simp [asNibbles]
  | cons x a ih =>
    cases b with
    | nil => simp [asNibbles]
    | cons y b =>
      simp only [asNibbles, List.cons_lt_cons_iff, ih, nibbles_lt_iff x y]
      constructor
      · rintro (h | ⟨h1, h2 | ⟨h2, h3⟩⟩)
        · exact Or.inl (Or.inl h)
        · exact Or.inl (Or.inr ⟨h1, h2⟩)
        · exact Or.inr ⟨nibbles_inj x y h1 h2, h3⟩
      · rintro ((h | ⟨h1, h2⟩) | ⟨rfl, h⟩)
        · exact Or.inl h
        · exact Or.inr ⟨h1, Or.inl h2⟩
        · exact Or.inr ⟨rfl, Or.inr ⟨rfl, h⟩⟩

section Denotes

variable {m : BytesMap} {t : Tree}

/-- The keys of the tree are those of whole bytes. -/
theorem Denotes.whole (h : Denotes m t) {e : List Nibble × Value} (he : e ∈ t.entries) : ∃ b, e.1 = asNibbles b := by
  obtain ⟨b, hb⟩ := h.2 e.1 (by rw [Patricia.mem_entries.mp he]; exact Option.some_ne_none _)
  exact ⟨b, hb.symm⟩

/-- The entries of the tree are those of the map. -/
theorem Denotes.mem_entries (h : Denotes m t) {k b : Bytes} : (k, b) ∈ t.entries.map byteEntry ↔ m[k]? = some b := by
  rw [h.1 k b, List.mem_map]
  constructor
  · rintro ⟨⟨x, v⟩, he, hb⟩
    obtain ⟨k', hx⟩ := h.whole he
    obtain rfl : x = asNibbles k' := hx
    rw [byteEntry, packAll_asNibbles] at hb
    obtain ⟨rfl, rfl⟩ := Prod.mk.inj hb
    exact ⟨v, rfl, Patricia.mem_entries.mp he⟩
  · rintro ⟨v, rfl, hv⟩
    exact ⟨(asNibbles k, v), Patricia.mem_entries.mpr hv, by rw [byteEntry, packAll_asNibbles]⟩

/-- They are in the order of their keys. -/
theorem Denotes.entries_sorted (h : Denotes m t) : (t.entries.map byteEntry).Pairwise fun e f => e.1 < f.1 := by
  rw [List.pairwise_map]
  refine List.Pairwise.imp_of_mem ?_ t.entries_sorted
  intro e f he hf hlt
  obtain ⟨a, ha⟩ := h.whole he
  obtain ⟨b, hb⟩ := h.whole hf
  rw [ha, hb, asNibbles_lt_iff] at hlt
  rwa [byteEntry, byteEntry, ha, hb, packAll_asNibbles, packAll_asNibbles]

/-- The entries from a key on. -/
theorem Denotes.since_eq (h : Denotes m t) (k : Bytes) :
    (since (asNibbles k) t.entries).map byteEntry = (t.entries.map byteEntry).filter fun e => ¬e.1 < k := by
  rw [since, List.filter_map]
  congr 1
  refine List.filter_congr ?_
  intro e he
  obtain ⟨b, hb⟩ := h.whole he
  simp only [Function.comp_apply, byteEntry, hb, packAll_asNibbles, asNibbles_lt_iff]

end Denotes

/-! ## Iterators over a trie -/

/-- The iteration starts at the root. -/
theorem Rooted.startTrail_eq {root : H256} {t : Tree} (h : Rooted sha3 db root t) : startTrail db root = [entering sha3 [] t] := by
  rw [startTrail, h.lookup_eq]
  rfl

/-- From `next(_key)` at the root to the end. -/
theorem Rooted.read_since {root : H256} {t : Tree} (h : Rooted sha3 db root t) {m : BytesMap} (hd : Denotes m t)
    (k : NibbleSlice) :
    ∃ turns, ∀ fuel, turns ≤ fuel →
      (nextKey db fuel (startTrail db root) k >>= readAll db fuel fuel) = .ok ((since k t.entries).map byteEntry) := by
  obtain ⟨ms, hs, hr⟩ := enter_stops h.canonical h.found k
  obtain ⟨turns, hnext⟩ := hs.nextKey_eq
  obtain ⟨turns', hall⟩ := readAll_eq hr fun e he => hd.whole (List.mem_of_mem_filter he)
  refine ⟨max turns (max turns' (since k t.entries).length), ?_⟩
  intro fuel hfuel
  rw [h.startTrail_eq, hnext fuel (by omega), ok_bind]
  exact hall fuel (by omega) fuel (by omega)

/-- `begin()` to `end()`. -/
theorem Rooted.read_begin {root : H256} {t : Tree} (h : Rooted sha3 db root t) {m : BytesMap} (hd : Denotes m t) :
    ∃ turns, ∀ fuel, turns ≤ fuel → (begin' db fuel root >>= readAll db fuel fuel) = .ok (t.entries.map byteEntry) := by
  have hr := h.read_since hd []
  rw [since_nil] at hr
  obtain ⟨turns, hr⟩ := hr
  refine ⟨turns, ?_⟩
  intro fuel hfuel
  rw [begin', next_eq]
  exact hr fuel hfuel

/-- `lower_bound` to `end()`. -/
theorem Rooted.read_lower_bound {root : H256} {t : Tree} (h : Rooted sha3 db root t) {m : BytesMap} (hd : Denotes m t) (k : Bytes) :
    ∃ turns, ∀ fuel, turns ≤ fuel →
      (lower_bound db fuel root k >>= readAll db fuel fuel) = .ok ((t.entries.map byteEntry).filter fun e => ¬e.1 < k) := by
  have hr := h.read_since hd (asNibbles k)
  rwa [hd.since_eq] at hr

end Webthree
