import Mathlib.Algebra.GroupWithZero.Nat
import Mathlib.Data.List.Nodup
import Mathlib.Data.List.Perm.Subperm
import Mathlib.Data.List.Range
import Mathlib.Data.Set.Lattice
import Mathlib.Order.Interval.Set.Basic

/-!
# Sets as lists of ranges

A list of half-open ranges in a linear order denotes a set. The ranges of a canonical list are not empty, stand in order, and do not
touch; then the gaps between them are a canonical list for the complement. Ranges in any order that have no place in common have at most
as many places as there are.
-/

namespace Webthree

namespace Ranges

variable {α : Type} [LinearOrder α]

/-- The set of what is in some range. -/
def items (l : List (α × α)) : Set α := {x | ∃ r ∈ l, x ∈ Set.Ico r.1 r.2}

/-- The ranges are in order, none is empty, and no two touch. -/
def Apart (l : List (α × α)) : Prop := (∀ r ∈ l, r.1 < r.2) ∧ l.Pairwise fun r s => r.2 < s.1

/-- No ranges cover nothing. -/
@[simp] theorem items_nil : items ([] : List (α × α)) = ∅ := by simp [items]

/-- The first range covers its own items, and the others theirs. -/
@[simp] theorem items_cons (r : α × α) (l : List (α × α)) : items (r :: l) = Set.Ico r.1 r.2 ∪ items l := by
  refine Set.ext fun x => ?_
  simp [items]

/-- Two lists of ranges cover what the first or the second does. -/
@[simp] theorem items_append (l l' : List (α × α)) : items (l ++ l') = items l ∪ items l' := by
  induction l with
  | nil => simp
  | cons r l ih => rw [List.cons_append, items_cons, ih, items_cons, Set.union_assoc]

/-- No ranges are apart. -/
theorem apart_nil : Apart ([] : List (α × α)) := ⟨fun _ h => absurd h List.not_mem_nil, .nil⟩

/-- Ranges are apart if the first one lies before the others and these are apart. -/
theorem apart_cons {r : α × α} {l : List (α × α)} : Apart (r :: l) ↔ r.1 < r.2 ∧ (∀ s ∈ l, r.2 < s.1) ∧ Apart l := by
  simp only [Apart, List.forall_mem_cons, List.pairwise_cons]
  tauto

/-- Canonical lists one after the other, if what is between them is apart as well. -/
theorem apart_append {l l' : List (α × α)} : Apart (l ++ l') ↔ Apart l ∧ Apart l' ∧ ∀ r ∈ l, ∀ s ∈ l', r.2 < s.1 := by
  simp only [Apart, List.forall_mem_append, List.pairwise_append]
  tauto

/-- Ranges that are apart come in order. -/
theorem Apart.pairwise_fst {l : List (α × α)} (h : Apart l) : l.Pairwise fun r s => r.1 < s.1 :=
  h.2.imp_of_mem fun hr _ hrs => (h.1 _ hr).trans hrs

/-- Nothing is covered before where all ranges begin. -/
theorem le_of_mem_items {l : List (α × α)} {b : α} (h : ∀ r ∈ l, b ≤ r.1) {x : α} (hx : x ∈ items l) : b ≤ x := by
  obtain ⟨r, hr, hle, -⟩ := hx
  exact (h r hr).trans hle

/-- Nothing is covered from where all ranges end. -/
theorem lt_of_mem_items {l : List (α × α)} {b : α} (h : ∀ r ∈ l, r.2 ≤ b) {x : α} (hx : x ∈ items l) : x < b := by
  obtain ⟨r, hr, -, hlt⟩ := hx
  exact hlt.trans_le (h r hr)

/-- A canonical list without a member is empty. -/
theorem Apart.items_eq_empty {l : List (α × α)} (h : Apart l) : items l = ∅ ↔ l = [] := by
  refine ⟨fun he => ?_, fun he => he ▸ items_nil⟩
  cases l with
  | nil => rfl
  | cons r l =>
    have hmem : r.1 ∈ items (r :: l) := ⟨r, List.mem_cons_self, le_refl _, h.1 r List.mem_cons_self⟩
    rw [he] at hmem
    exact absurd hmem (Set.notMem_empty _)

/-! ## Gaps -/

/-- The gaps from an element on, up to another one. -/
def gaps (a : α) : List (α × α) → α → List (α × α)
  | [], b => if a ≠ b then [(a, b)] else []
  | r :: l, b => if r.1 ≠ a then (a, r.1) :: gaps r.2 l b else gaps r.2 l b

/-- The ranges are between two elements. -/
def Bounded (a b : α) (l : List (α × α)) : Prop := ∀ r ∈ l, a ≤ r.1 ∧ r.2 ≤ b

/-- What is between two elements and in none of the ranges. -/
theorem items_gaps {a b : α} {l : List (α × α)} (hl : Apart l) (hw : Bounded a b l) (hab : a ≤ b) :
    items (gaps a l b) = Set.Ico a b \ items l := by
  induction l generalizing a with
  | nil =>
    rw [gaps]
    split
    · simp
    · rename_i heq
      simp [not_not.mp heq]
  | cons r l ih =>
    obtain ⟨hr, hrl, hl⟩ := apart_cons.mp hl
    obtain ⟨har, hrb⟩ := hw r List.mem_cons_self
    have hrest := ih hl (fun s hs => ⟨(hrl s hs).le, (hw s (List.mem_cons_of_mem _ hs)).2⟩) hrb
    have hbehind : ∀ x ∈ items l, r.2 ≤ x := fun x hx => le_of_mem_items (fun s hs => (hrl s hs).le) hx
    have hgap : items (gaps a (r :: l) b) = Set.Ico a r.1 ∪ items (gaps r.2 l b) := by
      rw [gaps]
      split
      · exact items_cons _ _
      · rename_i heq
        rw [not_not.mp heq, Set.Ico_self, Set.empty_union]
    rw [hgap, hrest, items_cons]
    refine Set.ext fun x => ?_
    have hx := hbehind x
    simp only [Set.mem_union, Set.mem_Ico, Set.mem_sdiff, not_or, not_and, not_lt]
    constructor
    · rintro (⟨hax, hxr⟩ | ⟨⟨hrx, hxb⟩, hn⟩)
      · exact ⟨⟨hax, hxr.trans (hr.trans_le hrb)⟩, fun h => absurd h hxr.not_ge, fun h => absurd (hxr.trans hr) (hx h).not_gt⟩
      · exact ⟨⟨har.trans (hr.le.trans hrx), hxb⟩, fun _ => hrx, hn⟩
    · rintro ⟨⟨hax, hxb⟩, hnr, hn⟩
      rcases lt_or_ge x r.1 with hlt | hge
      · exact .inl ⟨hax, hlt⟩
      · exact .inr ⟨⟨hnr hge, hxb⟩, hn⟩

/-- Gaps do not go beyond the bounds. -/
theorem within_gaps {a b : α} {l : List (α × α)} (hl : Apart l) (hw : Bounded a b l) (hab : a ≤ b) : Bounded a b (gaps a l b) := by
  induction l generalizing a with
  | nil =>
    rw [gaps]
    split
    · intro r hr
      obtain rfl := List.mem_singleton.mp hr
      exact ⟨le_refl _, le_refl _⟩
    · exact fun r hr => absurd hr List.not_mem_nil
  | cons r l ih =>
    obtain ⟨hr, hrl, hl⟩ := apart_cons.mp hl
    obtain ⟨har, hrb⟩ := hw r List.mem_cons_self
    have hrest := ih hl (fun s hs => ⟨(hrl s hs).le, (hw s (List.mem_cons_of_mem _ hs)).2⟩) hrb
    have hmore : Bounded a b (gaps r.2 l b) := fun s hs => ⟨har.trans (hr.le.trans (hrest s hs).1), (hrest s hs).2⟩
    rw [gaps]
    split
    · intro s hs
      rcases List.mem_cons.mp hs with rfl | hs
      · exact ⟨le_refl _, hr.le.trans hrb⟩
      · exact hmore s hs
    · exact hmore

/-- Gaps between ranges that are apart are apart. -/
theorem apart_gaps {a b : α} {l : List (α × α)} (hl : Apart l) (hw : Bounded a b l) (hab : a ≤ b) : Apart (gaps a l b) := by
  induction l generalizing a with
  | nil =>
    rw [gaps]
    split
    · rename_i hne
      exact apart_cons.mpr ⟨lt_of_le_of_ne hab hne, fun s hs => absurd hs List.not_mem_nil, apart_nil⟩
    · exact apart_nil
  | cons r l ih =>
    obtain ⟨hr, hrl, hl⟩ := apart_cons.mp hl
    obtain ⟨har, hrb⟩ := hw r List.mem_cons_self
    have hwithin : Bounded r.2 b l := fun s hs => ⟨(hrl s hs).le, (hw s (List.mem_cons_of_mem _ hs)).2⟩
    have hrest := ih hl hwithin hrb
    rw [gaps]
    split
    · rename_i hne
      refine apart_cons.mpr ⟨lt_of_le_of_ne har (Ne.symm hne), fun s hs => ?_, hrest⟩
      exact hr.trans_le (within_gaps hl hwithin hrb s hs).1
    · exact hrest

/-! ## Separate ranges -/

/-- The ranges have no place in common: one of them ends before the other starts. -/
def Separate (r s : α × α) : Prop := r.2 ≤ s.1 ∨ s.2 ≤ r.1

/-- To be separate is mutual. -/
theorem Separate.symm {r s : α × α} (h : Separate r s) : Separate s r := Or.symm h

/-- The first range lies in the second one. -/
def PartOf (r s : α × α) : Prop := s.1 ≤ r.1 ∧ r.2 ≤ s.2

/-- A range is part of itself. -/
theorem PartOf.refl (r : α × α) : PartOf r r := ⟨le_rfl, le_rfl⟩

/-- A part of a part is a part. -/
theorem PartOf.trans {r s t : α × α} (h : PartOf r s) (h' : PartOf s t) : PartOf r t := ⟨h'.1.trans h.1, h.2.trans h'.2⟩

/-- Parts of separate ranges are separate. -/
theorem Separate.mono {r r' s s' : α × α} (h : Separate r s) (hr : PartOf r' r) (hs : PartOf s' s) : Separate r' s' :=
  h.imp (fun h => hr.2.trans (h.trans hs.1)) fun h => hs.2.trans (h.trans hr.1)

/-- Separate ranges do not have more places than there are. -/
theorem sum_length_le {rs : List (Nat × Nat)} {n : Nat} (h : rs.Pairwise Separate) (hn : ∀ r ∈ rs, r.2 ≤ n) :
    (rs.map fun r => r.2 - r.1).sum ≤ n := by
  have hnodup : (rs.flatMap fun r => List.range' r.1 (r.2 - r.1)).Nodup := by
    refine List.nodup_flatMap.mpr ⟨fun r _ => List.nodup_range', h.imp fun hrs i hr hs => ?_⟩
    rw [List.mem_range'_1] at hr hs
    rcases hrs with hrs | hrs
    · omega
    · omega
  have hrange : (rs.flatMap fun r => List.range' r.1 (r.2 - r.1)) ⊆ List.range n := by
    intro i hi
    obtain ⟨r, hr, hi⟩ := List.mem_flatMap.mp hi
    have hle := hn r hr
    rw [List.mem_range'_1] at hi
    rw [List.mem_range]
    omega
  have hlength := (List.subperm_of_subset hnodup hrange).length_le
  rw [List.length_flatMap, List.length_range] at hlength
  simpa using hlength

end Ranges

end Webthree
