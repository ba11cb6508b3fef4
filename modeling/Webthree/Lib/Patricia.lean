import Mathlib.Data.Fintype.Basic
import Mathlib.Data.Finset.Lattice.Fold
import Mathlib.Data.List.Infix
import Mathlib.Data.List.FinRange
import Mathlib.Logic.Function.Basic

/-!
# Patricia trees

Finite maps on the words over `n` symbols, kept as radix trees in which a chain of nodes with one way down is one node. A tree
is canonical when no chain is left: two canonical trees with the same entries are the same tree, whatever was done to build
them.
-/

namespace Webthree

/-! ## Maps on words -/

section Words

variable {ν α : Type} [DecidableEq ν]

/-- The map `m` with `k` put in front of each of its words. -/
def under (k : List ν) (m : List ν → Option α) (x : List ν) : Option α :=
  if k <+: x then m (x.drop k.length) else none

/-- The map with the one entry `v`, at the empty word. -/
def single (v : α) (x : List ν) : Option α := if x = [] then some v else none

/-- Below a path there is what was put there. -/
theorem under_append (k : List ν) (m : List ν → Option α) (x : List ν) : under k m (k ++ x) = m x := by
  simp [under]

/-- Elsewhere there is nothing. -/
theorem under_of_not_initial {k x : List ν} (m : List ν → Option α) (h : ¬k <+: x) : under k m x = none := if_neg h

@[simp] theorem under_nil (m : List ν → Option α) : under [] m = m := by
  funext x
  simp [under]

/-- Every word is behind `k` or not: the cases of a statement about `under`. -/
theorem under_cases (k : List ν) (m : List ν → Option α) (x : List ν) :
    (∃ y, x = k ++ y ∧ under k m x = m y) ∨ (¬k <+: x ∧ under k m x = none) := by
  by_cases h : k <+: x
  · obtain ⟨y, rfl⟩ := h
    exact Or.inl ⟨y, rfl, under_append k m y⟩
  · exact Or.inr ⟨h, under_of_not_initial m h⟩

/-- A path below a path is one path. -/
theorem under_under (p q : List ν) (m : List ν → Option α) : under p (under q m) = under (p ++ q) m := by
  funext x
  rcases under_cases p (under q m) x with ⟨y, rfl, h⟩ | ⟨hn, h⟩
  · rw [h]
    rcases under_cases q m y with ⟨z, rfl, h'⟩ | ⟨hn', h'⟩
    · rw [h', ← List.append_assoc, under_append]
    · rw [h', under_of_not_initial]
      intro hp
      exact hn' ((List.prefix_append_right_inj p).mp hp)
  · rw [h, under_of_not_initial]
    intro hp
    exact hn ((List.prefix_append p q).trans hp)

/-- Changing a map behind `k`. -/
theorem under_update (k x : List ν) (m : List ν → Option α) (r : Option α) :
    under k (Function.update m x r) = Function.update (under k m) (k ++ x) r := by
  funext y
  rcases under_cases k (Function.update m x r) y with ⟨z, rfl, h⟩ | ⟨hn, h⟩
  · rw [h]
    by_cases hz : z = x
    · subst hz
      simp
    · rw [Function.update_of_ne hz, Function.update_of_ne (by simpa using hz), under_append]
  · rw [h, Function.update_of_ne, under_of_not_initial m hn]
    rintro rfl
    exact hn (List.prefix_append k x)

/-- The length of the longest common beginning. -/
def sharedLength : List ν → List ν → Nat
  | a :: x, b :: y => if a = b then sharedLength x y + 1 else 0
  | _, _ => 0

/-- Two words are their common beginning and two rests without one. -/
theorem sharedLength_spec (x y : List ν) :
    x.take (sharedLength x y) = y.take (sharedLength x y) ∧
      ∀ a, (x.drop (sharedLength x y)).head? = some a → (y.drop (sharedLength x y)).head? ≠ some a := by
  induction x generalizing y with
  | nil => simp [sharedLength]
  | cons a x ih =>
    cases y with
    | nil => simp [sharedLength]
    | cons b y =>
      by_cases h : a = b
      · subst h
        simpa [sharedLength] using ih y
      · refine ⟨by simp [sharedLength, h], ?_⟩
        intro c hc
        simp only [sharedLength, if_neg h, List.drop_zero, List.head?_cons, Option.some.injEq] at hc ⊢
        intro hb
        exact h (hc.trans (Option.some.inj hb).symm)

/-- Two paths share no more than there is of the first. -/
theorem sharedLength_le (x y : List ν) : sharedLength x y ≤ x.length := by
  induction x generalizing y with
  | nil => simp [sharedLength]
  | cons a x ih =>
    cases y with
    | nil => simp [sharedLength]
    | cons b y =>
      unfold sharedLength
      split
      · exact Nat.succ_le_succ (ih y)
      · exact Nat.zero_le _

/-- What two paths share does not depend on which comes first. -/
theorem sharedLength_comm (x y : List ν) : sharedLength x y = sharedLength y x := by
  induction x generalizing y with
  | nil => cases y <;> rfl
  | cons a x ih =>
    cases y with
    | nil => rfl
    | cons b y =>
      unfold sharedLength
      by_cases h : a = b
      · rw [if_pos h, if_pos h.symm, ih y]
      · rw [if_neg h, if_neg (Ne.symm h)]

/-- All of `k` is shared exactly when `k` is a beginning. -/
theorem sharedLength_eq_length_iff (x k : List ν) : sharedLength x k = k.length ↔ k <+: x := by
  induction k generalizing x with
  | nil => cases x <;> simp [sharedLength]
  | cons b k ih =>
    cases x with
    | nil => simp [sharedLength]
    | cons a x =>
      by_cases h : a = b
      · subst h
        simp [sharedLength, ih]
      · have h' : ¬b = a := Ne.symm h
        simp [sharedLength, h, h']

end Words

/-! ## Trees -/

/-- A tree for the words over `n` symbols. -/
inductive Patricia (n : Nat) (α : Type) where
  | empty
  | leaf (k : List (Fin n)) (v : α)
  | ext (k : List (Fin n)) (c : Patricia n α)
  | branch (cs : Fin n → Patricia n α) (v : Option α)

namespace Patricia

variable {n : Nat} {α : Type}

/-- The entry of a word. -/
def get : Patricia n α → List (Fin n) → Option α
  | empty, _ => none
  | leaf k v, x => under k (single v) x
  | ext k c, x => under k c.get x
  | branch _ v, [] => v
  | branch cs _, i :: x => (cs i).get x

/-- The number of nodes on the longest way down. -/
def depth : Patricia n α → Nat
  | empty => 1
  | leaf _ _ => 1
  | ext _ c => c.depth + 1
  | branch cs _ => (Finset.univ.sup fun i => (cs i).depth) + 1

/-- Every tree has a depth. -/
theorem depth_pos (t : Patricia n α) : 0 < t.depth := by
  cases t with
  | empty => exact Nat.one_pos
  | leaf k v => exact Nat.one_pos
  | ext k c => exact Nat.succ_pos _
  | branch cs v => exact Nat.succ_pos _

/-- Fuel for a tree is fuel for its first node and some for what is below it. -/
theorem exists_eq_succ_of_depth_le {t : Patricia n α} {m : Nat} (h : t.depth ≤ m) : ∃ k, m = k + 1 :=
  Nat.exists_eq_succ_of_ne_zero (Nat.ne_of_gt (Nat.lt_of_lt_of_le t.depth_pos h))

/-- A child is less deep than its branch. -/
theorem depth_child_lt (cs : Fin n → Patricia n α) (v : Option α) (i : Fin n) : (cs i).depth < (branch cs v).depth :=
  Nat.lt_succ_of_le (Finset.le_sup (f := fun i => (cs i).depth) (Finset.mem_univ i))

@[simp] theorem get_empty (x : List (Fin n)) : (empty : Patricia n α).get x = none := rfl
theorem get_leaf (k : List (Fin n)) (v : α) : (leaf k v).get = under k (single v) := rfl
theorem get_ext (k : List (Fin n)) (c : Patricia n α) : (ext k c).get = under k c.get := rfl
@[simp] theorem get_branch_nil (cs : Fin n → Patricia n α) (v : Option α) : (branch cs v).get [] = v := rfl
@[simp] theorem get_branch_cons (cs : Fin n → Patricia n α) (v : Option α) (i : Fin n) (x : List (Fin n)) :
    (branch cs v).get (i :: x) = (cs i).get x := rfl

/-- A leaf has its value at its path and nothing elsewhere. -/
theorem get_leaf_apply (k x : List (Fin n)) (v : α) : (leaf k v).get x = if x = k then some v else none := by
  rw [get_leaf]
  rcases under_cases k (single v) x with ⟨y, rfl, h⟩ | ⟨hn, h⟩
  · rw [h]
    simp [single]
  · rw [h, if_neg]
    rintro rfl
    exact hn (List.prefix_refl x)

/-- What stands at a slot of a branch: its value, or one of its children. -/
def Occupied (cs : Fin n → Patricia n α) (v : Option α) : Option (Fin n) → Prop
  | none => v ≠ none
  | some i => cs i ≠ empty

/-- The node is a branch. -/
def IsBranch : Patricia n α → Prop
  | branch _ _ => True
  | _ => False

/-- No node could be joined to the one below it: an extension is not empty and leads to a branch, and a branch holds two
things. -/
def Canonical : Patricia n α → Prop
  | empty => True
  | leaf _ _ => True
  | ext k c => k ≠ [] ∧ c.IsBranch ∧ c.Canonical
  | branch cs v => (∀ i, (cs i).Canonical) ∧ ∃ s s', s ≠ s' ∧ Occupied cs v s ∧ Occupied cs v s'

/-- A branch is not empty. -/
theorem IsBranch.ne_empty {t : Patricia n α} (h : t.IsBranch) : t ≠ empty := by
  rintro rfl
  exact h

/-- A branch is made of children and a value. -/
theorem IsBranch.exists_eq {t : Patricia n α} (h : t.IsBranch) : ∃ cs v, t = branch cs v := by
  cases t with
  | branch cs v => exact ⟨cs, v, rfl⟩
  | _ => exact absurd h id

/-- In a canonical branch something stands beside any slot. -/
theorem Canonical.other {cs : Fin n → Patricia n α} {v : Option α} (h : (branch cs v).Canonical) (s : Option (Fin n)) :
    ∃ s', s' ≠ s ∧ Occupied cs v s' := by
  obtain ⟨-, s₁, s₂, hne, h₁, h₂⟩ := h
  by_cases hs : s₁ = s
  · exact ⟨s₂, fun h => hne (hs.trans h.symm), h₂⟩
  · exact ⟨s₁, hs, h₁⟩

/-- Every part of a canonical tree has an entry. -/
theorem Canonical.exists_get {t : Patricia n α} (ht : t.Canonical) (hne : t ≠ empty) : ∃ x, t.get x ≠ none := by
  induction t with
  | empty => exact absurd rfl hne
  | leaf k v =>
    refine ⟨k, ?_⟩
    simp [get_leaf_apply]
  | ext k c ih =>
    obtain ⟨-, hb, hc⟩ := ht
    obtain ⟨x, hx⟩ := ih hc hb.ne_empty
    refine ⟨k ++ x, ?_⟩
    rwa [get_ext, under_append]
  | branch cs v ih =>
    obtain ⟨s, -, hs⟩ := ht.other none
    cases s with
    | none => exact ⟨[], hs⟩
    | some i =>
      obtain ⟨x, hx⟩ := ih i (ht.1 i) hs
      exact ⟨i :: x, hx⟩

/-- Every occupied slot of a canonical branch has an entry. -/
theorem Canonical.exists_get_slot {cs : Fin n → Patricia n α} {v : Option α} (hc : ∀ i, (cs i).Canonical)
    {s : Option (Fin n)} (hs : Occupied cs v s) : ∃ x, x.head? = s ∧ (branch cs v).get x ≠ none := by
  cases s with
  | none => exact ⟨[], rfl, hs⟩
  | some i =>
    obtain ⟨x, hx⟩ := (hc i).exists_get hs
    exact ⟨i :: x, rfl, hx⟩

/-- A canonical branch has an entry that does not begin with a given symbol. -/
theorem Canonical.exists_get_head {cs : Fin n → Patricia n α} {v : Option α} (h : (branch cs v).Canonical)
    (s : Option (Fin n)) : ∃ x, x.head? ≠ s ∧ (branch cs v).get x ≠ none := by
  obtain ⟨s', hne, hs'⟩ := h.other s
  obtain ⟨x, rfl, hx⟩ := Canonical.exists_get_slot h.1 hs'
  exact ⟨x, hne, hx⟩

/-- A canonical branch has an entry besides a given one. -/
theorem Canonical.exists_get_ne {cs : Fin n → Patricia n α} {v : Option α} (h : (branch cs v).Canonical)
    (y : List (Fin n)) : ∃ x, x ≠ y ∧ (branch cs v).get x ≠ none := by
  obtain ⟨x, hne, hx⟩ := h.exists_get_head y.head?
  exact ⟨x, fun he => hne (by rw [he]), hx⟩

/-- A canonical extension has an entry besides a given one. -/
theorem Canonical.exists_get_ne_ext {k : List (Fin n)} {c : Patricia n α} (h : (ext k c).Canonical) (y : List (Fin n)) :
    ∃ x, x ≠ y ∧ (ext k c).get x ≠ none := by
  obtain ⟨-, hb, hc⟩ := h
  obtain ⟨cs, v, rfl⟩ := hb.exists_eq
  obtain ⟨x, hne, hx⟩ := hc.exists_get_ne (y.drop k.length)
  refine ⟨k ++ x, ?_, by rwa [get_ext, under_append]⟩
  rintro rfl
  simp at hne

/-- The word in front of a canonical branch is not longer than any word in front of all its entries. -/
theorem Canonical.ext_key_prefix {k k' : List (Fin n)} {c : Patricia n α} (hb : c.IsBranch) (hc : c.Canonical)
    (h : ∀ x, under k c.get x ≠ none → k' <+: x) : k' <+: k := by
  obtain ⟨cs, v, rfl⟩ := hb.exists_eq
  obtain ⟨x, hx⟩ := hc.exists_get hb.ne_empty
  have h1 : k' <+: k ++ x := h _ (by rwa [under_append])
  rcases List.prefix_or_prefix_of_prefix h1 (List.prefix_append k x) with h2 | ⟨r, rfl⟩
  · exact h2
  · cases r with
    | nil => simp
    | cons i r =>
      obtain ⟨y, hne, hy⟩ := hc.exists_get_head (some i)
      obtain ⟨z, hz⟩ := h (k ++ y) (by rwa [under_append])
      rw [List.append_assoc, List.append_right_inj] at hz
      exact absurd (by rw [← hz]; rfl) hne

/-- Two canonical trees with the same entries are the same tree. -/
theorem Canonical.ext_get {t t' : Patricia n α} (ht : t.Canonical) (ht' : t'.Canonical) (h : t.get = t'.get) : t = t' := by
  induction t generalizing t' with
  | empty =>
    by_contra hne
    obtain ⟨x, hx⟩ := ht'.exists_get (Ne.symm hne)
    exact hx (by rw [← h]; rfl)
  | leaf k v =>
    have hone : ∀ x, t'.get x ≠ none → x = k := by
      intro x hx
      rw [← h, get_leaf_apply] at hx
      by_contra hne
      exact hx (if_neg hne)
    have hk : t'.get k = some v := by rw [← h, get_leaf_apply, if_pos rfl]
    cases t' with
    | empty => cases hk
    | leaf k' v' =>
      have hk' : k' = k := hone k' (by simp [get_leaf_apply])
      subst hk'
      rw [get_leaf_apply, if_pos rfl] at hk
      cases hk
      rfl
    | ext k' c' =>
      obtain ⟨x, hne, hx⟩ := ht'.exists_get_ne_ext k
      exact absurd (hone x hx) hne
    | branch cs' v' =>
      obtain ⟨x, hne, hx⟩ := ht'.exists_get_ne k
      exact absurd (hone x hx) hne
  | ext k c ih =>
    obtain ⟨hk, hb, hc⟩ := ht
    have hkeys : ∀ x, under k c.get x ≠ none → k <+: x := by
      intro x hx
      by_contra hn
      exact hx (under_of_not_initial _ hn)
    cases t' with
    | empty =>
      obtain ⟨x, hx⟩ := Canonical.exists_get (t := ext k c) ⟨hk, hb, hc⟩ (by simp)
      exact absurd (by rw [h]; rfl) hx
    | leaf k' v' =>
      obtain ⟨x, hne, hx⟩ := Canonical.exists_get_ne_ext ⟨hk, hb, hc⟩ k'
      rw [h, get_leaf_apply, if_neg hne] at hx
      exact absurd rfl hx
    | ext k' c' =>
      obtain ⟨-, hb', hc'⟩ := ht'
      rw [get_ext, get_ext] at h
      have h1 : k <+: k' := Canonical.ext_key_prefix hb' hc' (by rw [← h]; exact hkeys)
      have h2 : k' <+: k := by
        refine Canonical.ext_key_prefix hb hc ?_
        intro x hx
        rw [h] at hx
        by_contra hn
        exact hx (under_of_not_initial _ hn)
      have hkk : k = k' := h1.eq_of_length (Nat.le_antisymm h1.length_le h2.length_le)
      subst hkk
      have hcc : c.get = c'.get := by
        funext x
        rw [← under_append k c.get, h, under_append]
      rw [ih hc hc' hcc]
    | branch cs' v' =>
      cases k with
      | nil => exact absurd rfl hk
      | cons i k =>
        obtain ⟨x, hne, hx⟩ := ht'.exists_get_head (some i)
        rw [← h, get_ext] at hx
        obtain ⟨y, rfl⟩ := hkeys x hx
        exact absurd rfl hne
  | branch cs v ih =>
    cases t' with
    | empty =>
      obtain ⟨x, -, hx⟩ := ht.exists_get_ne []
      exact absurd (by rw [h]; rfl) hx
    | leaf k' v' =>
      obtain ⟨x, hne, hx⟩ := ht.exists_get_ne k'
      rw [h, get_leaf_apply, if_neg hne] at hx
      exact absurd rfl hx
    | ext k' c' =>
      obtain ⟨hk', -, -⟩ := ht'
      cases k' with
      | nil => exact absurd rfl hk'
      | cons i k' =>
        obtain ⟨x, hne, hx⟩ := ht.exists_get_head (some i)
        rw [h, get_ext] at hx
        by_cases hp : (i :: k') <+: x
        · obtain ⟨y, rfl⟩ := hp
          exact absurd rfl hne
        · exact absurd (under_of_not_initial _ hp) hx
    | branch cs' v' =>
      have hv : v = v' := congrFun h []
      have hcs : cs = cs' := by
        funext i
        exact ih i (ht.1 i) (ht'.1 i) (funext fun x => congrFun h (i :: x))
      rw [hv, hcs]

end Patricia

end Webthree
