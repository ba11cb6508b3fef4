import Mathlib.Data.List.Basic
import Webthree.Lib.EState

/-!
# Search trees with a comparison that may change

The tree behind an ordered multiset: an insertion goes down by the comparison it is given, which need not be the one that the
elements already there were put in order with. How the tree is kept balanced is open; all that is known is what a reader of the
multiset can see, that the order of the elements stays.
-/

namespace Webthree

/-- A binary tree with an element at every node. -/
inductive SearchTree (α : Type) where
  | nil
  | node (l : SearchTree α) (x : α) (r : SearchTree α)

namespace SearchTree

variable {α ε : Type}

/-- The elements from left to right. -/
def toList : SearchTree α → List α
  | nil => []
  | node l x r => l.toList ++ x :: r.toList

/-- Insertion behind all elements that are not greater, as far as the comparisons on the way down say so. -/
def insertBy (less : α → α → Except ε Bool) (x : α) : SearchTree α → Except ε (SearchTree α)
  | nil => .ok (node nil x nil)
  | node l y r => do
    if ← less x y then return node (← insertBy less x l) y r
    else return node l y (← insertBy less x r)

/-- An insertion puts the element somewhere between the others. -/
theorem insertBy_toList {less : α → α → Except ε Bool} {x : α} {t t' : SearchTree α} (h : t.insertBy less x = .ok t') :
    ∃ a b, t.toList = a ++ b ∧ t'.toList = a ++ x :: b := by
  induction t generalizing t' with
  | nil =>
    cases h
    exact ⟨[], [], rfl, rfl⟩
  | node l y r ihl ihr =>
    rw [insertBy] at h
    obtain ⟨c, -, h⟩ := bind_eq_ok.mp h
    cases c with
    | true =>
      obtain ⟨l', hl, h⟩ := bind_eq_ok.mp h
      cases h
      obtain ⟨a, b, h1, h2⟩ := ihl hl
      exact ⟨a, b ++ y :: r.toList, by simp [toList, h1], by simp [toList, h2]⟩
    | false =>
      obtain ⟨r', hr, h⟩ := bind_eq_ok.mp h
      cases h
      obtain ⟨a, b, h1, h2⟩ := ihr hr
      exact ⟨l.toList ++ y :: a, b, by simp [toList, h1], by simp [toList, h2]⟩

/-- An insertion returns where every comparison does. -/
theorem exists_insertBy {less : α → α → Except ε Bool} {x : α} {t : SearchTree α} (h : ∀ y ∈ t.toList, ∃ c, less x y = .ok c) :
    ∃ t', t.insertBy less x = .ok t' := by
  induction t with
  | nil => exact ⟨_, rfl⟩
  | node l y r ihl ihr =>
    obtain ⟨c, hc⟩ := h y (by simp [toList])
    rw [insertBy, hc, ok_bind]
    cases c with
    | true =>
      obtain ⟨l', hl⟩ := ihl fun z hz => h z (by simp [toList, hz])
      exact ⟨node l' y r, by simp [hl, ok_bind, pure, Except.pure]⟩
    | false =>
      obtain ⟨r', hr⟩ := ihr fun z hz => h z (by simp [toList, hz])
      exact ⟨node l y r', by simp [hr, ok_bind, pure, Except.pure]⟩

/-- An insertion into a tree in which the greater elements stand behind the others goes between them. -/
theorem insertBy_split {less : α → α → Except ε Bool} {x : α} {t t' : SearchTree α} {p : α → Bool}
    (hless : ∀ y ∈ t.toList, less x y = .ok (p y)) (ht : t.toList.Pairwise fun y z => p y = true → p z = true)
    (h : t.insertBy less x = .ok t') :
    ∃ a b, t.toList = a ++ b ∧ t'.toList = a ++ x :: b ∧ (∀ y ∈ a, p y = false) ∧ ∀ y ∈ b, p y = true := by
  induction t generalizing t' with
  | nil =>
    cases h
    exact ⟨[], [], rfl, rfl, fun y hy => absurd hy List.not_mem_nil, fun y hy => absurd hy List.not_mem_nil⟩
  | node l y r ihl ihr =>
    obtain ⟨hl, hyr, hlr⟩ := List.pairwise_append.mp ht
    obtain ⟨hy, hr⟩ := List.pairwise_cons.mp hyr
    rw [insertBy, hless y (by simp [toList]), ok_bind] at h
    cases hp : p y with
    | true =>
      rw [hp] at h
      obtain ⟨l', hl', h⟩ := bind_eq_ok.mp h
      cases h
      obtain ⟨a, b, h1, h2, ha, hb⟩ := ihl (fun z hz => hless z (by simp [toList, hz])) hl hl'
      refine ⟨a, b ++ y :: r.toList, by simp [toList, h1], by simp [toList, h2], ha, ?_⟩
      intro z hz
      rcases List.mem_append.mp hz with hz | hz
      · exact hb z hz
      · rcases List.mem_cons.mp hz with rfl | hz
        · exact hp
        · exact hy z hz hp
    | false =>
      rw [hp] at h
      obtain ⟨r', hr', h⟩ := bind_eq_ok.mp h
      cases h
      obtain ⟨a, b, h1, h2, ha, hb⟩ := ihr (fun z hz => hless z (by simp [toList, hz])) hr hr'
      refine ⟨l.toList ++ y :: a, b, by simp [toList, h1], by simp [toList, h2], ?_, hb⟩
      intro z hz
      rcases List.mem_append.mp hz with hz | hz
      · refine Bool.eq_false_iff.mpr ?_
        intro hpz
        have := hlr z hz y List.mem_cons_self hpz
        rw [hp] at this
        cases this
      · rcases List.mem_cons.mp hz with rfl | hz
        · exact hp
        · exact ha z hz

/-- A tree that leans to the right. -/
def ofList : List α → SearchTree α
  | [] => nil
  | x :: l => node nil x (ofList l)

/-- A tree made of a list holds the list. -/
@[simp] theorem toList_ofList (l : List α) : (ofList l).toList = l := by
  induction l with
  | nil => rfl
  | cons x l ih => rw [ofList, toList, ih]; rfl

end SearchTree

/-- Where all that is behind the first element with `p` has `p`, no element without it is behind one with it. -/
theorem pairwise_of_all_dropWhile {α : Type} (f : α → Bool) {p : α → Bool} {l : List α} (hf : ∀ x ∈ l, f x = !p x)
    (h : (l.dropWhile f).all p = true) : l.Pairwise fun x y => p x = true → p y = true := by
  induction l with
  | nil => exact List.Pairwise.nil
  | cons x l ih =>
    have hx := hf x List.mem_cons_self
    cases hp : p x with
    | true =>
      rw [List.dropWhile_cons, if_neg (by simp [hx, hp]), List.all_eq_true] at h
      have hl : ∀ y ∈ l, p y = true := fun y hy => h y (List.mem_cons_of_mem x hy)
      refine List.pairwise_cons.mpr ⟨fun y hy _ => hl y hy, List.pairwise_of_forall_mem_list ?_⟩
      exact fun _ _ y hy _ => hl y hy
    | false =>
      rw [List.dropWhile_cons, if_pos (by simp [hx, hp])] at h
      refine List.pairwise_cons.mpr ⟨fun y _ hx => ?_, ih (fun y hy => hf y (List.mem_cons_of_mem x hy)) h⟩
      rw [hp] at hx
      cases hx

/-- How a multiset keeps its tree in shape, when an element has been put into it and when the elements that `p` selects are taken
out. -/
structure Balance (α : Type) where
  fix : SearchTree α → SearchTree α
  erase : (α → Bool) → SearchTree α → SearchTree α
  fix_toList : ∀ t, (fix t).toList = t.toList
  erase_toList : ∀ p t, (erase p t).toList = t.toList.filter fun x => !p x

attribute [simp] Balance.fix_toList Balance.erase_toList

/-- No balancing. -/
def Balance.plain (α : Type) : Balance α where
  fix t := t
  erase p t := .ofList (t.toList.filter fun x => !p x)
  fix_toList _ := rfl
  erase_toList _ _ := SearchTree.toList_ofList _

end Webthree
