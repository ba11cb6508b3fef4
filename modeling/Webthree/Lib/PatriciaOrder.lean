import Webthree.Lib.Patricia
import Mathlib.Data.List.Lex
import Mathlib.Order.Fin.Basic

/-!
# The entries of a Patricia tree in order

The entries of a tree as a list, the word that ends first before the longer ones: it has every entry once, and its words go up in
the lexicographic order.
-/

namespace Webthree

/-! ## Lists of entries -/

section Shift

variable {ν α : Type}

/-- Entries with `k` put in front of their words. -/
def shift (k : List ν) (es : List (List ν × α)) : List (List ν × α) := es.map fun e => (k ++ e.1, e.2)

@[simp] theorem shift_nil_left (es : List (List ν × α)) : shift [] es = es := by
  simp [shift]

@[simp] theorem shift_nil (k : List ν) : shift k ([] : List (List ν × α)) = [] := rfl

@[simp] theorem shift_cons (k : List ν) (e : List ν × α) (es : List (List ν × α)) :
    shift k (e :: es) = (k ++ e.1, e.2) :: shift k es := rfl

@[simp] theorem shift_append (k : List ν) (es es' : List (List ν × α)) : shift k (es ++ es') = shift k es ++ shift k es' :=
  List.map_append

@[simp] theorem shift_shift (k k' : List ν) (es : List (List ν × α)) : shift k (shift k' es) = shift (k ++ k') es := by
  simp [shift, Function.comp_def, List.append_assoc]

/-- A shifted entry is one behind the path. -/
theorem mem_shift {k x : List ν} {a : α} {es : List (List ν × α)} :
    (x, a) ∈ shift k es ↔ ∃ y, x = k ++ y ∧ (y, a) ∈ es := by
  simp only [shift, List.mem_map, Prod.mk.injEq, Prod.exists]
  constructor
  · rintro ⟨y, b, hb, rfl, rfl⟩
    exact ⟨y, rfl, hb⟩
  · rintro ⟨y, rfl, hy⟩
    exact ⟨y, a, hy, rfl, rfl⟩

variable [LinearOrder ν]

/-- The entries whose words are not before `k`. -/
def since (k : List ν) (es : List (List ν × α)) : List (List ν × α) := es.filter fun e => ¬e.1 < k

@[simp] theorem since_nil (es : List (List ν × α)) : since [] es = es := by
  refine List.filter_eq_self.mpr ?_
  intro e _
  exact decide_eq_true (List.not_lt_nil e.1)

@[simp] theorem since_append (k : List ν) (es es' : List (List ν × α)) : since k (es ++ es') = since k es ++ since k es' :=
  List.filter_append _ _

/-- What is in front of both makes no difference to their order. -/
theorem append_lt_append_iff (q : List ν) {a b : List ν} : q ++ a < q ++ b ↔ a < b := by
  induction q with
  | nil => exact Iff.rfl
  | cons i q ih => simp [ih]

/-- Behind a common path, the entries from a key on are those from the rest of it. -/
theorem since_shift (q k : List ν) (es : List (List ν × α)) : since (q ++ k) (shift q es) = shift q (since k es) := by
  unfold since shift
  rw [List.filter_map]
  congr 1
  refine List.filter_congr ?_
  intro e _
  simp only [Function.comp_apply, append_lt_append_iff]

/-- If no entry is before a key, all are from it on. -/
theorem since_eq_self {k : List ν} {es : List (List ν × α)} (h : ∀ e ∈ es, ¬e.1 < k) : since k es = es :=
  List.filter_eq_self.mpr fun e he => decide_eq_true (h e he)

/-- If all entries are before a key, none is from it on. -/
theorem since_eq_nil {k : List ν} {es : List (List ν × α)} (h : ∀ e ∈ es, e.1 < k) : since k es = [] :=
  List.filter_eq_nil_iff.mpr fun e he hk => of_decide_eq_true hk (h e he)

end Shift

namespace Patricia

variable {n : Nat} {α : Type}

/-- The entries of a tree, in order. -/
def entries : Patricia n α → List (List (Fin n) × α)
  | empty => []
  | leaf k v => [(k, v)]
  | ext k c => shift k c.entries
  | branch cs v => (v.toList.map fun a => ([], a)) ++ (List.finRange n).flatMap fun i => shift [i] (cs i).entries

/-- The entries are those of the map. -/
theorem mem_entries {t : Patricia n α} {x : List (Fin n)} {a : α} : (x, a) ∈ t.entries ↔ t.get x = some a := by
  induction t generalizing x with
  | empty => simp [entries]
  | leaf k v =>
    rw [entries, get_leaf_apply, List.mem_singleton, Prod.mk.injEq]
    by_cases h : x = k
    · simp [h, eq_comm]
    · simp [h]
  | ext k c ih =>
    rw [entries, mem_shift, get_ext]
    rcases under_cases k c.get x with ⟨y, rfl, hu⟩ | ⟨hn, hu⟩
    · rw [hu, ← ih]
      simp
    · rw [hu]
      constructor
      · rintro ⟨y, rfl, -⟩
        exact absurd (List.prefix_append k y) hn
      · intro h
        cases h
  | branch cs v ih =>
    simp only [entries, List.mem_append, List.mem_flatMap, List.mem_map, List.mem_finRange, true_and, mem_shift]
    cases x with
    | nil =>
      rw [get_branch_nil]
      simp
    | cons i x =>
      rw [get_branch_cons, ← ih i]
      simp

/-- Shifted entries keep their order. -/
theorem pairwise_shift {k : List (Fin n)} {es : List (List (Fin n) × α)} (h : es.Pairwise fun e f => e.1 < f.1) :
    (shift k es).Pairwise fun e f => e.1 < f.1 := by
  refine List.pairwise_map.mpr (h.imp ?_)
  intro e f hef
  exact (append_lt_append_iff k).mpr hef

/-- The words of the entries go up. -/
theorem entries_sorted (t : Patricia n α) : t.entries.Pairwise fun e f => e.1 < f.1 := by
  induction t with
  | empty => exact List.Pairwise.nil
  | leaf k v => exact List.pairwise_singleton _ _
  | ext k c ih => exact pairwise_shift ih
  | branch cs v ih =>
    refine List.pairwise_append.mpr ⟨?_, ?_, ?_⟩
    · cases v with
      | none => exact List.Pairwise.nil
      | some a => exact List.pairwise_singleton _ _
    · refine List.pairwise_flatMap.mpr ⟨fun i _ => pairwise_shift (ih i), ?_⟩
      refine (List.pairwise_lt_finRange n).imp ?_
      rintro i j hij e he f hf
      obtain ⟨y, hy, -⟩ := mem_shift.mp he
      obtain ⟨z, hz, -⟩ := mem_shift.mp hf
      rw [hy, hz]
      exact List.cons_lt_cons_iff.mpr (Or.inl hij)
    · intro e he f hf
      obtain ⟨a, -, rfl⟩ := List.mem_map.mp he
      obtain ⟨i, -, hf⟩ := List.mem_flatMap.mp hf
      obtain ⟨y, hy, -⟩ := mem_shift.mp hf
      rw [hy]
      exact List.nil_lt_cons i y

end Patricia

end Webthree
