import Mathlib.Data.List.Nodup
import Mathlib.Tactic.Linarith
import Mathlib.Order.Defs.Unbundled

/-!
# Hash tables as lists

A table from keys to values as the list of its entries, in the order in which an iterator meets them.
-/

namespace Webthree

/-- A table. -/
abbrev Assoc (κ β : Type) := List (κ × β)

namespace Assoc

variable {κ β : Type} [DecidableEq κ]

/-- The value under a key. -/
def find : Assoc κ β → κ → Option β
  | [], _ => none
  | (k', v) :: l, k => if k' = k then some v else find l k

/-- The first entry is found before those behind it. -/
theorem find_cons (e : κ × β) (l : Assoc κ β) (k : κ) : find (e :: l) k = if k = e.1 then some e.2 else l.find k := by
  rw [find]
  simp only [eq_comm]

/-- Give a key a value. -/
def set : Assoc κ β → κ → β → Assoc κ β
  | [], k, v => [(k, v)]
  | (k', v') :: l, k, v => if k' = k then (k, v) :: l else (k', v') :: set l k v

/-- Take a key out. -/
def remove (l : Assoc κ β) (k : κ) : Assoc κ β := l.filter fun e => e.1 ≠ k

/-- Every key stands there once. -/
def Proper (l : Assoc κ β) : Prop := (l.map Prod.fst).Nodup

/-- In a proper table, every entry is found. -/
theorem find_eq_some_of_mem {l : Assoc κ β} (h : l.Proper) {k : κ} {v : β} (hm : (k, v) ∈ l) : l.find k = some v := by
  induction l with
  | nil => exact absurd hm List.not_mem_nil
  | cons e l ih =>
    obtain ⟨k', v'⟩ := e
    obtain ⟨hk, hl⟩ := List.nodup_cons.mp h
    rw [find]
    rcases List.mem_cons.mp hm with he | hm
    · obtain ⟨rfl, rfl⟩ := Prod.mk.inj he
      exact if_pos rfl
    · rw [if_neg, ih hl hm]
      rintro rfl
      exact hk (List.mem_map.mpr ⟨(k', v), hm, rfl⟩)

/-- What is found is an entry. -/
theorem mem_of_find_eq_some {l : Assoc κ β} {k : κ} {v : β} (h : l.find k = some v) : (k, v) ∈ l := by
  induction l with
  | nil => cases h
  | cons e l ih =>
    obtain ⟨k', v'⟩ := e
    rw [find] at h
    by_cases hk : k' = k
    · rw [if_pos hk] at h
      cases h
      rw [hk]
      exact List.mem_cons_self
    · rw [if_neg hk] at h
      exact List.mem_cons_of_mem _ (ih h)

/-- After an entry is set, it is found, and the others as before. -/
theorem find_set (l : Assoc κ β) (k k' : κ) (v : β) : (l.set k v).find k' = if k' = k then some v else l.find k' := by
  induction l with
  | nil =>
    rw [set, find, find]
    by_cases h : k = k'
    · rw [if_pos h, if_pos h.symm]
    · rw [if_neg h, if_neg (Ne.symm h)]
      rfl
  | cons e l ih =>
    obtain ⟨k₁, v₁⟩ := e
    rw [set]
    by_cases h₁ : k₁ = k
    · subst h₁
      rw [if_pos rfl, find, find]
      by_cases h : k₁ = k'
      · rw [if_pos h, if_pos h.symm]
      · rw [if_neg h, if_neg (Ne.symm h), if_neg h]
    · rw [if_neg h₁, find, find, ih]
      by_cases h : k₁ = k'
      · subst h
        rw [if_pos rfl, if_neg h₁]
        simp
      · rw [if_neg h, if_neg h]

/-- An entry that is set is there. -/
theorem mem_set_self (l : Assoc κ β) (k : κ) (v : β) : (k, v) ∈ l.set k v :=
  mem_of_find_eq_some (by rw [find_set, if_pos rfl])

/-- What stands there after a key is given a value. -/
theorem mem_set {l : Assoc κ β} {k : κ} {v : β} {e : κ × β} (h : e ∈ l.set k v) : e = (k, v) ∨ e ∈ l := by
  induction l with
  | nil => exact Or.inl (List.mem_singleton.mp h)
  | cons e' l ih =>
    rw [set] at h
    by_cases hk : e'.1 = k
    · rw [if_pos hk] at h
      exact (List.mem_cons.mp h).imp id (List.mem_cons_of_mem _)
    · rw [if_neg hk] at h
      rcases List.mem_cons.mp h with rfl | h
      · exact Or.inr List.mem_cons_self
      · exact (ih h).imp id (List.mem_cons_of_mem _)

/-- Entries of other keys stay when one is set. -/
theorem mem_set_of_ne {l : Assoc κ β} {k : κ} {v : β} {e : κ × β} (h : e ∈ l) (hk : e.1 ≠ k) : e ∈ l.set k v := by
  induction l with
  | nil => cases h
  | cons e' l ih =>
    rw [set]
    rcases List.mem_cons.mp h with rfl | h
    · rw [if_neg hk]
      exact List.mem_cons_self
    · by_cases hk' : e'.1 = k
      · rw [if_pos hk']
        exact List.mem_cons_of_mem _ h
      · rw [if_neg hk']
        exact List.mem_cons_of_mem _ (ih h)

/-- After a key is removed, it is not found, and the others are as before. -/
theorem find_remove (l : Assoc κ β) (k k' : κ) : (l.remove k).find k' = if k' = k then none else l.find k' := by
  induction l with
  | nil => simp [remove, find]
  | cons e l ih =>
    obtain ⟨k₁, v₁⟩ := e
    rw [remove] at ih ⊢
    by_cases h₁ : k₁ = k
    · subst h₁
      rw [List.filter_cons, if_neg (by simp), ih, find]
      by_cases h : k' = k₁
      · rw [if_pos h, if_pos h]
      · rw [if_neg h, if_neg h, if_neg (Ne.symm h)]
    · rw [List.filter_cons, if_pos (by simpa using h₁), find, find, ih]
      by_cases h : k₁ = k'
      · subst h
        rw [if_pos rfl, if_neg h₁]
        simp
      · rw [if_neg h, if_neg h]

/-- The keys stay in their order, and a new one is the last. -/
theorem map_fst_set (l : Assoc κ β) (k : κ) (v : β) :
    (l.set k v).map Prod.fst = if k ∈ l.map Prod.fst then l.map Prod.fst else l.map Prod.fst ++ [k] := by
  induction l with
  | nil => rfl
  | cons e l ih =>
    obtain ⟨k₁, v₁⟩ := e
    rw [set]
    by_cases h₁ : k₁ = k
    · subst h₁
      simp
    · simp only [if_neg h₁, List.map_cons, ih, List.mem_cons, Ne.symm h₁, false_or]
      split
      · rfl
      · rfl

/-- To set an entry keeps a table proper. -/
theorem Proper.set {l : Assoc κ β} (h : l.Proper) (k : κ) (v : β) : (l.set k v).Proper := by
  unfold Proper at *
  rw [map_fst_set]
  split
  · exact h
  · rename_i hk
    refine List.nodup_append.mpr ⟨h, List.pairwise_singleton _ k, ?_⟩
    intro a ha b hb hab
    rw [List.mem_singleton.mp hb] at hab
    exact hk (hab ▸ ha)

/-- To remove a key keeps a table proper. -/
theorem Proper.remove {l : Assoc κ β} (h : l.Proper) (k : κ) : (l.remove k).Proper :=
  h.sublist (List.filter_sublist.map Prod.fst)

/-- The entry of a key and the entries of the others. -/
theorem perm_cons_remove {l : Assoc κ β} (h : l.Proper) {k : κ} {v : β} (hk : l.find k = some v) : l.Perm ((k, v) :: l.remove k) := by
  induction l with
  | nil => cases hk
  | cons e l ih =>
    obtain ⟨k₁, v₁⟩ := e
    obtain ⟨hk₁, hl⟩ := List.nodup_cons.mp h
    rw [find] at hk
    by_cases h₁ : k₁ = k
    · subst h₁
      rw [if_pos rfl] at hk
      cases hk
      rw [remove, List.filter_cons, if_neg (by simp), List.filter_eq_self.mpr]
      intro e he
      refine decide_eq_true ?_
      rintro rfl
      exact hk₁ (List.mem_map.mpr ⟨e, he, rfl⟩)
    · rw [if_neg h₁] at hk
      rw [remove, List.filter_cons, if_pos (by simpa using h₁)]
      exact ((ih hl hk).cons (k₁, v₁)).trans (List.Perm.swap _ _ _)

/-- To remove what is not there does nothing. -/
theorem remove_eq_self {l : Assoc κ β} {k : κ} (hk : l.find k = none) : l.remove k = l := by
  induction l with
  | nil => rfl
  | cons e l ih =>
    obtain ⟨k₁, v₁⟩ := e
    rw [find] at hk
    by_cases h₁ : k₁ = k
    · rw [if_pos h₁] at hk
      cases hk
    · rw [if_neg h₁] at hk
      have ih := ih hk
      rw [remove] at ih ⊢
      rw [List.filter_cons, if_pos (by simpa using h₁), ih]

/-- A key that is removed does not depend on what was set for it. -/
theorem remove_set {l : Assoc κ β} (h : l.Proper) (k : κ) (v : β) : (l.set k v).remove k = l.remove k := by
  induction l with
  | nil => simp [set, remove]
  | cons e l ih =>
    obtain ⟨k₁, v₁⟩ := e
    obtain ⟨-, hl⟩ := List.nodup_cons.mp h
    have ih := ih hl
    rw [remove, remove] at ih
    rw [set, remove, remove]
    by_cases h₁ : k₁ = k
    · rw [if_pos h₁, List.filter_cons, List.filter_cons, if_neg (by simp), if_neg (by simpa using h₁)]
    · rw [if_neg h₁, List.filter_cons, List.filter_cons, if_pos (by simpa using h₁), if_pos (by simpa using h₁), ih]

/-- `map::insert`: an entry whose key stands there already is not taken. -/
def insert (l : Assoc κ β) (e : κ × β) : Assoc κ β := if (l.find e.1).isSome then l else l ++ [e]

/-- In two tables, one before the other, the first one is looked up first. -/
theorem find_append (l l' : Assoc κ β) (k : κ) : Assoc.find (l ++ l') k = (l.find k).or (l'.find k) := by
  induction l with
  | nil => simp [find]
  | cons e l ih =>
    obtain ⟨k', v⟩ := e
    rw [List.cons_append, find, find]
    by_cases h : k' = k
    · rw [if_pos h, if_pos h, Option.some_or]
    · rw [if_neg h, if_neg h, ih]

/-- An entry is inserted only for a key that is not there. -/
theorem find_insert (l : Assoc κ β) (e : κ × β) (k : κ) :
    (l.insert e).find k = (l.find k).or (if e.1 = k then some e.2 else none) := by
  obtain ⟨k', v⟩ := e
  rw [insert]
  split
  · rename_i hs
    by_cases h : k' = k
    · subst h
      obtain ⟨w, hw⟩ := Option.isSome_iff_exists.mp hs
      rw [hw, Option.some_or]
    · rw [if_neg h, Option.or_none]
  · rw [find_append, find, find]

/-- A loop of insertions. What a key had it keeps, and the first entry of a new key stays. -/
theorem find_foldl_insert (l l' : Assoc κ β) (k : κ) : (l'.foldl insert l).find k = (l.find k).or (l'.find k) := by
  induction l' generalizing l with
  | nil => simp [find]
  | cons e l' ih =>
    obtain ⟨k', v⟩ := e
    rw [List.foldl_cons, ih, find_insert, Option.or_assoc, find]
    by_cases h : k' = k
    · rw [if_pos h, if_pos h, Option.some_or]
    · rw [if_neg h, if_neg h, Option.none_or]

end Assoc

/-! ## Lists whose elements are told apart by a key -/

section Keyed

variable {α κ : Type} [DecidableEq κ] {f : α → κ} {l : List α}

/-- Among things of different keys, each is found by its own key. -/
theorem find?_key_eq (h : (l.map f).Nodup) {x : α} (hx : x ∈ l) : (l.find? fun y => f y = f x) = some x := by
  cases hfind : l.find? fun y => f y = f x with
  | none => exact absurd (List.find?_eq_none.mp hfind x hx) (by simp)
  | some y =>
    have hy : f y = f x := by simpa using List.find?_some hfind
    rw [List.inj_on_of_nodup_map h (List.mem_of_find?_eq_some hfind) hx hy]

/-- Among things of different keys, one of them can be put in front, and the others are those of other keys. -/
theorem perm_cons_filter_key (h : (l.map f).Nodup) {x : α} (hx : x ∈ l) : l.Perm (x :: l.filter fun y => !decide (f y = f x)) := by
  induction l with
  | nil => exact absurd hx List.not_mem_nil
  | cons z l ih =>
    obtain ⟨hz, hl⟩ := List.nodup_cons.mp h
    rcases List.mem_cons.mp hx with rfl | hx
    · rw [List.filter_cons, if_neg (by simp), List.filter_eq_self.mpr]
      intro y hy
      rw [Bool.not_eq_true', decide_eq_false_iff_not]
      intro hyx
      exact hz (hyx ▸ List.mem_map_of_mem hy)
    · rw [List.filter_cons, if_pos]
      · exact ((ih hl hx).cons z).trans (List.Perm.swap _ _ _)
      · rw [Bool.not_eq_true', decide_eq_false_iff_not]
        intro hzx
        exact hz (hzx ▸ List.mem_map_of_mem hx)

end Keyed

/-! ## Lists of entries in the order of their keys -/

namespace Assoc

section Sorted

variable {κ β : Type} [LT κ]

/-- A key that is less than those of the entries. -/
theorem find_eq_none_of_lt [DecidableEq κ] [Std.Irrefl fun a b : κ => a < b] {l : Assoc κ β} {k : κ} (h : ∀ d ∈ l, k < d.1) : l.find k = none := by
  cases hf : l.find k with
  | none => rfl
  | some v => exact absurd (h (k, v) (mem_of_find_eq_some hf)) (irrefl k)

variable [DecidableLT κ]

/-- `map::insert`, where the entries stand in the order of the keys. -/
def insertSorted : Assoc κ β → κ × β → Assoc κ β
  | [], e => [e]
  | e' :: l, e => if e.1 < e'.1 then e :: e' :: l else if e'.1 < e.1 then e' :: insertSorted l e else e' :: l

/-- Nothing but the new entry comes in. -/
theorem mem_insertSorted {l : Assoc κ β} {e d : κ × β} (h : d ∈ l.insertSorted e) : d = e ∨ d ∈ l := by
  induction l with
  | nil => exact Or.inl (List.mem_singleton.mp h)
  | cons e' l ih =>
    rw [insertSorted] at h
    split at h
    · exact List.mem_cons.mp h
    · split at h
      · rcases List.mem_cons.mp h with rfl | h
        · exact Or.inr List.mem_cons_self
        · exact (ih h).imp_right (List.mem_cons_of_mem _)
      · exact Or.inr h

/-- `map::operator[]`, where the entries stand in the order of the keys. -/
def setSorted : Assoc κ β → κ × β → Assoc κ β
  | [], e => [e]
  | e' :: l, e => if e.1 < e'.1 then e :: e' :: l else if e'.1 < e.1 then e' :: setSorted l e else e :: l

/-- Nothing but the set entry comes in. -/
theorem mem_setSorted {l : Assoc κ β} {e d : κ × β} (h : d ∈ l.setSorted e) : d = e ∨ d ∈ l := by
  induction l with
  | nil => exact Or.inl (List.mem_singleton.mp h)
  | cons e' l ih =>
    rw [setSorted] at h
    split at h
    · exact List.mem_cons.mp h
    · split at h
      · rcases List.mem_cons.mp h with rfl | h
        · exact Or.inr List.mem_cons_self
        · exact (ih h).imp_right (List.mem_cons_of_mem _)
      · exact (List.mem_cons.mp h).imp_right (List.mem_cons_of_mem _)

/-- A key that is not there yet, between those that are less and those that are greater. -/
theorem setSorted_between {a b : Assoc κ β} {e : κ × β} (ha : ∀ d ∈ a, d.1 < e.1 ∧ ¬ e.1 < d.1) (hb : ∀ d ∈ b, e.1 < d.1) :
    (a ++ b).setSorted e = a ++ e :: b := by
  induction a with
  | nil =>
    cases b with
    | nil => rfl
    | cons d b => exact if_pos (hb d List.mem_cons_self)
  | cons d a ih =>
    obtain ⟨hlt, hge⟩ := ha d List.mem_cons_self
    rw [List.cons_append, setSorted, if_neg hge, if_pos hlt, ih fun d' hd' => ha d' (List.mem_cons_of_mem _ hd')]
    rfl

/-- A key that is there already. -/
theorem setSorted_replace [Std.Irrefl fun a b : κ => a < b] {a b : Assoc κ β} {k : κ} {v w : β} (ha : ∀ d ∈ a, d.1 < k ∧ ¬ k < d.1) :
    (a ++ (k, v) :: b).setSorted (k, w) = a ++ (k, w) :: b := by
  induction a with
  | nil => rw [List.nil_append, setSorted, if_neg (irrefl k), if_neg (irrefl k), List.nil_append]
  | cons d a ih =>
    obtain ⟨hlt, hge⟩ := ha d List.mem_cons_self
    rw [List.cons_append, setSorted, if_neg hge, if_pos hlt, ih fun d' hd' => ha d' (List.mem_cons_of_mem _ hd')]
    rfl

variable [IsStrictTotalOrder κ (· < ·)]

/-- An inserted entry is put in order. -/
theorem pairwise_insertSorted {l : Assoc κ β} (h : l.Pairwise fun d d' => d.1 < d'.1) (e : κ × β) :
    (l.insertSorted e).Pairwise fun d d' => d.1 < d'.1 := by
  induction l with
  | nil => exact List.pairwise_singleton _ e
  | cons e' l ih =>
    obtain ⟨hhead, htail⟩ := List.pairwise_cons.mp h
    rw [insertSorted]
    split
    · rename_i hlt
      refine List.pairwise_cons.mpr ⟨?_, h⟩
      intro d hd
      rcases List.mem_cons.mp hd with rfl | hd
      · exact hlt
      · exact IsTrans.trans _ _ _ hlt (hhead d hd)
    · split
      · rename_i hlt
        refine List.pairwise_cons.mpr ⟨?_, ih htail⟩
        intro d hd
        rcases mem_insertSorted hd with rfl | hd
        · exact hlt
        · exact hhead d hd
      · exact h

/-- In a sorted table, too, an entry is inserted only for a key that is not there. -/
theorem find_insertSorted [DecidableEq κ] {l : Assoc κ β} (h : l.Pairwise fun d d' => d.1 < d'.1) (e : κ × β) (k : κ) :
    (l.insertSorted e).find k = (l.find k).or (if e.1 = k then some e.2 else none) := by
  obtain ⟨k₀, v₀⟩ := e
  induction l with
  | nil => simp [insertSorted, find]
  | cons e' l ih =>
    obtain ⟨k', v'⟩ := e'
    obtain ⟨hhead, htail⟩ := List.pairwise_cons.mp h
    rw [insertSorted]
    split
    · rename_i hlt
      rw [find]
      by_cases hk : k₀ = k
      · subst hk
        have hnone : Assoc.find ((k', v') :: l) k₀ = none := by
          refine find_eq_none_of_lt fun d hd => ?_
          rcases List.mem_cons.mp hd with rfl | hd
          · exact hlt
          · exact IsTrans.trans _ _ _ hlt (hhead d hd)
        rw [if_pos rfl, hnone, Option.none_or, if_pos rfl]
      · rw [if_neg hk, if_neg hk, Option.or_none]
    · rename_i hge
      split
      · rw [find, find, ih htail]
        by_cases hk : k' = k
        · rw [if_pos hk, if_pos hk, Option.some_or]
        · rw [if_neg hk, if_neg hk]
      · rename_i hle
        have heq : k₀ = k' := Std.Trichotomous.trichotomous (r := (· < ·)) k₀ k' hge hle
        subst heq
        rw [find]
        by_cases hk : k₀ = k
        · rw [if_pos hk, Option.some_or]
        · rw [if_neg hk, if_neg hk, Option.or_none]

/-- A set entry is put in order. -/
theorem pairwise_setSorted {l : Assoc κ β} (h : l.Pairwise fun d d' => d.1 < d'.1) (e : κ × β) :
    (l.setSorted e).Pairwise fun d d' => d.1 < d'.1 := by
  induction l with
  | nil => exact List.pairwise_singleton _ e
  | cons e' l ih =>
    obtain ⟨hhead, htail⟩ := List.pairwise_cons.mp h
    rw [setSorted]
    split
    · rename_i hlt
      refine List.pairwise_cons.mpr ⟨fun d hd => ?_, h⟩
      rcases List.mem_cons.mp hd with rfl | hd
      · exact hlt
      · exact IsTrans.trans _ _ _ hlt (hhead d hd)
    · rename_i hge
      split
      · rename_i hlt
        refine List.pairwise_cons.mpr ⟨fun d hd => ?_, ih htail⟩
        rcases mem_setSorted hd with rfl | hd
        · exact hlt
        · exact hhead d hd
      · rename_i hle
        have heq : e.1 = e'.1 := Std.Trichotomous.trichotomous (r := (· < ·)) e.1 e'.1 hge hle
        exact List.pairwise_cons.mpr ⟨fun d hd => heq ▸ hhead d hd, htail⟩

/-- In a sorted table, too, an entry that is set is found, and the others as before. -/
theorem find_setSorted [DecidableEq κ] (l : Assoc κ β) (e : κ × β) (k : κ) :
    (l.setSorted e).find k = if k = e.1 then some e.2 else l.find k := by
  induction l with
  | nil => exact find_cons e [] k
  | cons e' l ih =>
    rw [setSorted]
    split
    · exact find_cons e (e' :: l) k
    · rename_i hge
      split
      · rename_i hlt
        rw [find_cons, find_cons, ih]
        by_cases hk : k = e'.1
        · have hne : k ≠ e.1 := by
            rintro rfl
            exact Std.Irrefl.irrefl _ (hk ▸ hlt)
          rw [if_pos hk, if_pos hk, if_neg hne]
        · rw [if_neg hk, if_neg hk]
      · rename_i hle
        have heq : e.1 = e'.1 := Std.Trichotomous.trichotomous (r := (· < ·)) e.1 e'.1 hge hle
        rw [find_cons, find_cons, heq]
        by_cases hk : k = e'.1
        · rw [if_pos hk, if_pos hk]
        · rw [if_neg hk, if_neg hk, if_neg hk]

end Sorted

end Assoc

/-! ## Tables -/

/-- A table in which every key stands once. -/
structure Table (κ β : Type) [DecidableEq κ] where
  entries : Assoc κ β
  proper : entries.Proper

namespace Table

variable {κ β : Type} [DecidableEq κ]

/-- No entries. -/
def empty : Table κ β := ⟨[], List.nodup_nil⟩

/-- The value under a key. -/
def find (t : Table κ β) (k : κ) : Option β := t.entries.find k

/-- Give a key a value. -/
def set (t : Table κ β) (k : κ) (v : β) : Table κ β := ⟨t.entries.set k v, t.proper.set k v⟩

/-- Take a key out. -/
def remove (t : Table κ β) (k : κ) : Table κ β := ⟨t.entries.remove k, t.proper.remove k⟩

@[simp] theorem find_empty (k : κ) : (empty : Table κ β).find k = none := rfl

/-- After an entry is set, it is found, and the others as before. -/
theorem find_set (t : Table κ β) (k k' : κ) (v : β) : (t.set k v).find k' = if k' = k then some v else t.find k' :=
  t.entries.find_set k k' v

/-- After a key is removed, it is not found, and the others are as before. -/
theorem find_remove (t : Table κ β) (k k' : κ) : (t.remove k).find k' = if k' = k then none else t.find k' :=
  t.entries.find_remove k k'

/-- What is found is what the entries say. -/
theorem find_eq_some_iff {t : Table κ β} {k : κ} {v : β} : t.find k = some v ↔ (k, v) ∈ t.entries :=
  ⟨Assoc.mem_of_find_eq_some, Assoc.find_eq_some_of_mem t.proper⟩

/-- What `f` makes of the entries is what it makes of the entry of a key, and of the others. -/
theorem flatMap_perm {γ : Type} (t : Table κ β) (k : κ) (f : κ × β → List γ) :
    (t.entries.flatMap f).Perm (((t.find k).map fun v => f (k, v)).getD [] ++ (t.remove k).entries.flatMap f) := by
  cases h : t.find k with
  | none =>
    have he : (t.remove k).entries = t.entries := Assoc.remove_eq_self h
    rw [he]
    rfl
  | some v => exact (Assoc.perm_cons_remove t.proper h).flatMap_right f

/-- The same after the key has been given a value. -/
theorem flatMap_set_perm {γ : Type} (t : Table κ β) (k : κ) (v : β) (f : κ × β → List γ) :
    ((t.set k v).entries.flatMap f).Perm (f (k, v) ++ (t.remove k).entries.flatMap f) := by
  have h := (t.set k v).flatMap_perm k f
  rw [find_set, if_pos rfl] at h
  simpa [remove, set, Assoc.remove_set t.proper] using h

end Table

/-! ## Ordered maps -/

section OrderedMap

variable {κ β : Type} [Ord κ] [Std.TransOrd κ] [Std.LawfulEqOrd κ]

/-- The keys of an ordered map stand there once. -/
theorem nodup_keys_toList (m : Std.TreeMap κ β) : (m.toList.map Prod.fst).Nodup := by
  refine List.pairwise_map.mpr (m.distinct_keys_toList.imp ?_)
  intro a b h hab
  exact h (by rw [hab]; exact Std.ReflCmp.compare_self)

/-- No entry of a map is there twice. -/
theorem nodup_toList (m : Std.TreeMap κ β) : m.toList.Nodup := (nodup_keys_toList m).of_map Prod.fst

/-- The entry of a key and the entries of the others. -/
theorem toList_perm_cons_erase {m : Std.TreeMap κ β} {k : κ} {v : β} (h : m[k]? = some v) :
    m.toList.Perm ((k, v) :: (m.erase k).toList) := by
  have hk : (k, v) ∉ (m.erase k).toList := by
    rw [Std.TreeMap.mem_toList_iff_getElem?_eq_some, Std.TreeMap.getElem?_erase_self]
    exact fun h => nomatch h
  refine (List.perm_ext_iff_of_nodup (nodup_toList m) (List.nodup_cons.mpr ⟨hk, nodup_toList _⟩)).mpr ?_
  rintro ⟨k', v'⟩
  rw [List.mem_cons, Std.TreeMap.mem_toList_iff_getElem?_eq_some, Std.TreeMap.mem_toList_iff_getElem?_eq_some,
    Std.TreeMap.getElem?_erase, Prod.mk.injEq]
  by_cases hkk : k' = k
  · subst hkk
    simp [h, eq_comm]
  · have hkk' : k ≠ k' := Ne.symm hkk
    simp [hkk, hkk']

/-- A new entry. -/
theorem toList_insertIfNew_perm {m : Std.TreeMap κ β} {k : κ} (h : m[k]? = none) (v : β) :
    (m.insertIfNew k v).toList.Perm ((k, v) :: m.toList) := by
  have hk : k ∉ m := by
    rw [Std.TreeMap.mem_iff_isSome_getElem?, h]
    exact fun h => nomatch h
  have hm : (k, v) ∉ m.toList := by
    rw [Std.TreeMap.mem_toList_iff_getElem?_eq_some, h]
    exact fun h => nomatch h
  refine (List.perm_ext_iff_of_nodup (nodup_toList _) (List.nodup_cons.mpr ⟨hm, nodup_toList _⟩)).mpr ?_
  rintro ⟨k', v'⟩
  rw [List.mem_cons, Std.TreeMap.mem_toList_iff_getElem?_eq_some, Std.TreeMap.mem_toList_iff_getElem?_eq_some,
    Std.TreeMap.getElem?_insertIfNew, Prod.mk.injEq]
  by_cases hkk : k' = k
  · subst hkk
    simp [hk, eq_comm]
  · have hkk' : k ≠ k' := Ne.symm hkk
    simp [hkk, hkk']

/-- Entries taken out one after the other. -/
theorem toList_perm_append_foldl_erase {l : List (κ × β)} {m : Std.TreeMap κ β} (hl : (l.map Prod.fst).Nodup)
    (hm : ∀ e ∈ l, m[e.1]? = some e.2) : m.toList.Perm (l ++ ((l.map Prod.fst).foldl Std.TreeMap.erase m).toList) := by
  induction l generalizing m with
  | nil => exact List.Perm.refl _
  | cons e l ih =>
    obtain ⟨he, hl⟩ := List.nodup_cons.mp hl
    refine (toList_perm_cons_erase (hm e List.mem_cons_self)).trans (List.Perm.cons e (ih hl ?_))
    intro e' he'
    rw [Std.TreeMap.getElem?_erase, if_neg, hm e' (List.mem_cons_of_mem _ he')]
    intro h
    rw [Std.LawfulEqCmp.eq_of_compare h] at he
    exact he (List.mem_map_of_mem he')

end OrderedMap

end Webthree
