import Mathlib.Data.List.TakeWhile
import Webthree.Core.RangeMask
import Webthree.Lib.Ranges
import Mathlib.Data.Set.Card
import Mathlib.Order.CompletePartialOrder
import Mathlib.Order.Interval.Finset.Nat

/-!
# What the operations of a range mask do to its set

The map of a mask is a canonical list of ranges. A turn of the loop that adds a range leaves it canonical, and leaves what the map and
the rest of the range hold together.

The lowest items, membership, the number of items, the ends, and the walk of the iterator through the items.
-/

namespace Webthree

namespace RangeMask

open Ranges

/-! ## The ranges around an item -/

/-- The ranges that begin up to an item, and those behind. -/
theorem exists_split {l : Assoc Nat Nat} (hl : Apart l) (i : Nat) : ∃ before after, l = before ++ after ∧
    (∀ r ∈ before, r.1 ≤ i) ∧ (∀ r ∈ after, i < r.1) ∧ prev l i = before.getLast? ∧ upper_bound l i = after.head? := by
  refine ⟨l.takeWhile fun r => r.1 ≤ i, l.dropWhile fun r => r.1 ≤ i, List.takeWhile_append_dropWhile.symm, fun r hr => ?_,
    fun r hr => ?_, rfl, rfl⟩
  · simpa using List.mem_takeWhile_imp hr
  · have hsorted : (l.dropWhile fun r => r.1 ≤ i).Pairwise fun r s => r.1 < s.1 :=
      hl.pairwise_fst.sublist (List.dropWhile_sublist _)
    cases hd : l.dropWhile fun r => r.1 ≤ i with
    | nil =>
      rw [hd] at hr
      exact absurd hr List.not_mem_nil
    | cons a after =>
      have hhead : i < a.1 := by
        have hnot := List.head?_dropWhile_not (fun r : Nat × Nat => decide (r.1 ≤ i)) l
        rw [hd] at hnot
        simpa using hnot
      rw [hd] at hr hsorted
      rcases List.mem_cons.mp hr with rfl | hr
      · exact hhead
      · exact hhead.trans ((List.pairwise_cons.mp hsorted).1 r hr)

/-- A range is taken out between those before and those behind. -/
theorem remove_between {a b : Assoc Nat Nat} {r : Nat × Nat} (ha : ∀ d ∈ a, d.1 < r.1) (hb : ∀ d ∈ b, r.1 < d.1) :
    (a ++ r :: b : Assoc Nat Nat).remove r.1 = a ++ b := by
  have hkeepa : a.filter (fun e => e.1 ≠ r.1) = a := List.filter_eq_self.mpr fun d hd => by simpa using (ha d hd).ne
  have hkeepb : b.filter (fun e => e.1 ≠ r.1) = b := List.filter_eq_self.mpr fun d hd => by simpa using (hb d hd).ne'
  rw [Assoc.remove, List.filter_append, List.filter_cons_of_neg (by simp), hkeepa, hkeepb]

/-! ## A turn of the loop -/

/-- What a turn for an item is to do: it leaves the loop with everything added, or goes on with a later item. -/
def Turned (l : Assoc Nat Nat) (i stop : Nat) : Assoc Nat Nat × Option Nat → Prop
  | (l', none) => Apart l' ∧ items l' = items l ∪ Set.Ico i stop
  | (l', some i') => Apart l' ∧ i < i' ∧ items l' ∪ Set.Ico i' stop = items l ∪ Set.Ico i stop

/-- A range in front of those behind an item. -/
theorem apart_between {before after : List (Nat × Nat)} {r : Nat × Nat} (hb : Apart before) (ha : Apart after)
    (hr : r.1 < r.2) (hbefore : ∀ d ∈ before, d.2 < r.1) (hafter : ∀ d ∈ after, r.2 < d.1) : Apart (before ++ r :: after) := by
  refine apart_append.mpr ⟨hb, apart_cons.mpr ⟨hr, hafter, ha⟩, fun d hd e he => ?_⟩
  rcases List.mem_cons.mp he with rfl | he
  · exact hbefore d hd
  · exact (hbefore d hd).trans (hr.trans (hafter e he))

/-- The ranges that end before a place are found before it. -/
theorem keys_before {before : Assoc Nat Nat} {k : Nat} (hb : Apart before) (hends : ∀ d ∈ before, d.2 < k) :
    ∀ d ∈ before, d.1 < k ∧ ¬ k < d.1 := by
  intro d hd
  have hlt := (hb.1 d hd).trans (hends d hd)
  exact ⟨hlt, hlt.not_gt⟩

/-- What is before the first range behind is before all of them. -/
theorem before_all {a : Nat × Nat} {after : Assoc Nat Nat} (ha : Apart (a :: after)) {stop : Nat} (hlt : stop < a.1) :
    ∀ d ∈ a :: after, stop < d.1 := by
  obtain ⟨halt, haa, -⟩ := apart_cons.mp ha
  intro d hd
  rcases List.mem_cons.mp hd with rfl | hd
  · exact hlt
  · exact hlt.trans (halt.trans (haa d hd))

/-- The range behind is taken over by the one that is set before it. -/
theorem remove_taken {before after : Assoc Nat Nat} {a : Nat × Nat} {k n : Nat} (hkeys : ∀ d ∈ before, d.1 < k) (hk : k < a.1)
    (ha : Apart (a :: after)) : Assoc.remove (before ++ (k, n) :: a :: after) a.1 = before ++ (k, n) :: after := by
  obtain ⟨halt, haa, -⟩ := apart_cons.mp ha
  have hfront : ∀ d ∈ before ++ [(k, n)], d.1 < a.1 := by
    intro d hd
    rcases List.mem_append.mp hd with hd | hd
    · exact (hkeys d hd).trans hk
    · obtain rfl := List.mem_singleton.mp hd
      exact hk
  have hsplit : before ++ (k, n) :: a :: after = (before ++ [(k, n)]) ++ a :: after := by simp
  rw [hsplit, remove_between hfront fun d hd => halt.trans (haa d hd)]
  simp

/-- A turn that opens a new range adds one stretch, up to the next range. -/
theorem unionApart_turned {before after : Assoc Nat Nat} {i stop : Nat} (hl : Apart (before ++ after))
    (hbefore : ∀ r ∈ before, r.2 < i) (hafter : ∀ r ∈ after, i < r.1) (hu : upper_bound (before ++ after) i = after.head?)
    (hi : i < stop) : Turned (before ++ after) i stop (unionApart (before ++ after) i stop) := by
  obtain ⟨hb, ha, hba⟩ := apart_append.mp hl
  have hkey := keys_before hb hbefore
  have hset : ∀ n, (before ++ after).setSorted (i, n) = before ++ (i, n) :: after := fun n => Assoc.setSorted_between hkey hafter
  have hnew : (∀ d ∈ after, stop < d.1) → Turned (before ++ after) i stop ((before ++ after).setSorted (i, stop), none) := by
    intro hbehind
    rw [hset]
    refine ⟨apart_between hb ha hi hbefore hbehind, ?_⟩
    simp only [items_append, items_cons]
    rw [Set.union_comm (Set.Ico i stop), Set.union_assoc]
  rw [unionApart, hu]
  cases after with
  | nil => exact hnew fun d hd => absurd hd List.not_mem_nil
  | cons a after =>
    obtain ⟨halt, haa, ha'⟩ := apart_cons.mp ha
    have hia := hafter a List.mem_cons_self
    dsimp only [List.head?_cons]
    split
    · rename_i hlt
      exact hnew (before_all ha hlt)
    · rename_i hge
      rw [if_neg hia.ne']
      -- the range behind is taken over, from the item on
      rw [hset, remove_taken (fun d hd => (hkey d hd).1) hia ha]
      refine ⟨apart_between hb ha' (hia.trans halt) hbefore haa, hia.trans halt, Set.ext fun x => ?_⟩
      simp only [items_append, items_cons, Set.mem_union, Set.mem_Ico]
      grind

/-- A turn that touches a range prolongs it up to the next one. -/
theorem unionTouching_turned {before after : Assoc Nat Nat} {it : Nat × Nat} {i stop : Nat} (hl : Apart (before ++ it :: after))
    (hit : it.2 = i) (hafter : ∀ r ∈ after, i < r.1) (hu : upper_bound (before ++ it :: after) i = after.head?)
    (hi : i < stop) : Turned (before ++ it :: after) i stop (unionTouching (before ++ it :: after) it i stop) := by
  obtain ⟨hb, ha, hba⟩ := apart_append.mp hl
  obtain ⟨hitlt, -, ha⟩ := apart_cons.mp ha
  have hbefore : ∀ d ∈ before, d.2 < it.1 := fun d hd => hba d hd it List.mem_cons_self
  have hkey := keys_before hb hbefore
  have hset : ∀ n, (before ++ it :: after).setSorted (it.1, n) = before ++ (it.1, n) :: after :=
    fun n => Assoc.setSorted_replace hkey
  have hnew : (∀ d ∈ after, stop < d.1) → Turned (before ++ it :: after) i stop ((before ++ it :: after).setSorted (it.1, stop), none) := by
    intro hbehind
    rw [hset]
    refine ⟨apart_between hb ha (by omega) hbefore hbehind, Set.ext fun x => ?_⟩
    simp only [items_append, items_cons, Set.mem_union, Set.mem_Ico]
    grind
  rw [unionTouching, hu]
  cases after with
  | nil => exact hnew fun d hd => absurd hd List.not_mem_nil
  | cons a after =>
    obtain ⟨halt, haa, ha'⟩ := apart_cons.mp ha
    have hia := hafter a List.mem_cons_self
    dsimp only [List.head?_cons]
    split
    · rename_i hlt
      exact hnew (before_all ha hlt)
    · rename_i hge
      rw [hset, remove_taken (fun d hd => (hkey d hd).1) (by omega) ha]
      refine ⟨apart_between hb ha' (by omega) hbefore haa, by omega, Set.ext fun x => ?_⟩
      simp only [items_append, items_cons, Set.mem_union, Set.mem_Ico]
      grind

/-- Every turn of the loop adds a stretch. -/
theorem unionTurn_turned {l : Assoc Nat Nat} {i stop : Nat} (hl : Apart l) (hi : i < stop) : Turned l i stop (unionTurn l i stop) := by
  obtain ⟨before, after, rfl, hbefore, hafter, hprev, hu⟩ := exists_split hl i
  rw [unionTurn, hprev]
  rcases List.eq_nil_or_concat before with rfl | ⟨before, it, rfl⟩
  · exact unionApart_turned hl (fun r hr => absurd hr List.not_mem_nil) hafter hu hi
  · rw [List.concat_eq_append] at hl hbefore hu ⊢
    rw [List.getLast?_concat]
    dsimp only
    have hends : ∀ d ∈ before, d.2 < it.1 := by
      intro d hd
      have hsplit := (apart_append.mp (apart_append.mp hl).1).2.2
      exact hsplit d hd it (List.mem_singleton.mpr rfl)
    have hitle : it.1 ≤ i := hbefore it (by simp)
    split
    · rename_i hlt
      refine unionApart_turned hl (fun r hr => ?_) hafter hu hi
      rcases List.mem_append.mp hr with hr | hr
      · exact (hends r hr).trans_le hitle
      · obtain rfl := List.mem_singleton.mp hr
        exact hlt
    · rename_i hge
      rw [List.append_assoc, List.singleton_append] at hl hu ⊢
      split
      · rename_i heq
        exact unionTouching_turned hl heq hafter hu hi
      · -- the item is in the range before
        rename_i hne
        refine ⟨hl, by omega, Set.ext fun x => ?_⟩
        simp only [items_append, items_cons, Set.mem_union, Set.mem_Ico]
        grind

/-! ## Union -/

variable {all : Nat × Nat}

/-- The loop adds the range, in no more turns than it has items. -/
theorem unionLoop_spec {stop turns : Nat} {l : Assoc Nat Nat} {i : Nat} (hl : Apart l) (hi : i < stop → all.1 ≤ i)
    (hstop : i < stop → stop ≤ all.2) (hturns : stop - i ≤ turns) :
    ∃ l', unionLoop all stop turns l i = .ok l' ∧ Apart l' ∧ items l' = items l ∪ Set.Ico i stop := by
  induction turns generalizing l i with
  | zero =>
    have hle : stop ≤ i := by omega
    refine ⟨l, by rw [unionLoop, if_pos hle], hl, ?_⟩
    rw [Set.Ico_eq_empty (by omega), Set.union_empty]
  | succ turns ih =>
    rw [unionLoop]
    split
    · rename_i hle
      refine ⟨l, rfl, hl, ?_⟩
      rw [Set.Ico_eq_empty (by omega), Set.union_empty]
    · rename_i hlt
      have hlt : i < stop := by omega
      have hin : ¬ (i < all.1 ∨ all.2 ≤ i) := by
        have h₁ := hi hlt
        have h₂ := hstop hlt
        omega
      have hturn := unionTurn_turned hl hlt
      rw [if_neg hin]
      match hm : unionTurn l i stop with
      | (l', none) =>
        rw [hm] at hturn
        exact ⟨l', rfl, hturn⟩
      | (l', some i') =>
        rw [hm] at hturn
        obtain ⟨hl', hii, hitems⟩ := hturn
        obtain ⟨l'', hrun, hl'', hitems'⟩ := ih hl' (fun h => (hi (hii.trans h)).trans hii.le) (fun h => hstop (hii.trans h)) (by omega)
        exact ⟨l'', hrun, hl'', hitems'.trans hitems⟩

/-- What the operations keep: the ranges are canonical and in the ground range. -/
structure Proper (m : RangeMask) : Prop where
  ground : m.m_all.1 ≤ m.m_all.2
  apart : Apart m.m_ranges
  within : Bounded m.m_all.1 m.m_all.2 m.m_ranges

/-- The set of a mask. -/
def itemSet (m : RangeMask) : Set Nat := items m.m_ranges

/-- The items lie inside the bounds of the mask. -/
theorem Proper.subset {m : RangeMask} (h : m.Proper) : m.itemSet ⊆ Set.Ico m.m_all.1 m.m_all.2 := by
  rintro x ⟨r, hr, hle, hlt⟩
  obtain ⟨h₁, h₂⟩ := h.within r hr
  exact ⟨h₁.trans hle, hlt.trans_le h₂⟩

/-- Canonical ranges whose items are in the ground range are there themselves. -/
theorem proper_of_subset {m : RangeMask} (hground : m.m_all.1 ≤ m.m_all.2) (hl : Apart m.m_ranges)
    (hs : m.itemSet ⊆ Set.Ico m.m_all.1 m.m_all.2) : m.Proper := by
  refine ⟨hground, hl, fun r hr => ?_⟩
  have hlt := hl.1 r hr
  have hfirst := hs (show r.1 ∈ m.itemSet from ⟨r, hr, le_refl _, hlt⟩)
  have hlast := hs (show r.2 - 1 ∈ m.itemSet from ⟨r, hr, by omega, by omega⟩)
  simp only [Set.mem_Ico] at hfirst hlast
  omega

/-- A range inside the bounds is added. -/
theorem unionRange_spec {m : RangeMask} (h : m.Proper) {r : Nat × Nat} (hr : Set.Ico r.1 r.2 ⊆ Set.Ico m.m_all.1 m.m_all.2) :
    ∃ m', m.unionRange r = .ok m' ∧ m'.m_all = m.m_all ∧ m'.Proper ∧ m'.itemSet = m.itemSet ∪ Set.Ico r.1 r.2 := by
  have hfirst : r.1 < r.2 → m.m_all.1 ≤ r.1 := fun hlt => (hr (Set.mem_Ico.mpr ⟨le_refl _, hlt⟩)).1
  have hlast : r.1 < r.2 → r.2 ≤ m.m_all.2 := fun hlt => by
    have := (hr (show r.2 - 1 ∈ Set.Ico r.1 r.2 from ⟨by omega, by omega⟩)).2
    omega
  obtain ⟨l', hrun, hl', hitems⟩ := unionLoop_spec h.apart hfirst hlast (le_refl _)
  refine ⟨{ m with m_ranges := l' }, by rw [unionRange, hrun], rfl, proper_of_subset h.ground hl' ?_, hitems⟩
  rw [itemSet, hitems]
  exact Set.union_subset h.subset hr

/-- The ranges of another mask are added one by one. -/
theorem unionRanges_spec {m : RangeMask} (h : m.Proper) {l : Assoc Nat Nat} (hl : items l ⊆ Set.Ico m.m_all.1 m.m_all.2) :
    ∃ m', l.foldlM unionRange m = .ok m' ∧ m'.m_all = m.m_all ∧ m'.Proper ∧ m'.itemSet = m.itemSet ∪ items l := by
  induction l generalizing m with
  | nil => exact ⟨m, rfl, rfl, h, by rw [items_nil, Set.union_empty]⟩
  | cons r l ih =>
    rw [items_cons] at hl ⊢
    obtain ⟨m', hrun, hall, h', hitems⟩ := unionRange_spec h (Set.subset_union_left.trans hl)
    obtain ⟨m'', hrun', hall', h'', hitems'⟩ := ih h' (by rw [hall]; exact Set.subset_union_right.trans hl)
    refine ⟨m'', ?_, hall'.trans hall, h'', ?_⟩
    · rw [List.foldlM_cons, hrun]
      exact hrun'
    · rw [hitems', hitems, Set.union_assoc]

/-- A mask inside the bounds is added. -/
theorem unionMask_spec {m x : RangeMask} (h : m.Proper) (hfirst : m.m_all.1 ≤ x.m_all.1) (hlast : x.m_all.2 ≤ m.m_all.2)
    (hx : x.itemSet ⊆ Set.Ico m.m_all.1 m.m_all.2) :
    ∃ m', m.unionMask x = .ok m' ∧ m'.m_all = m.m_all ∧ m'.Proper ∧ m'.itemSet = m.itemSet ∪ x.itemSet := by
  have hall : ((min x.m_all.1 m.m_all.1, max x.m_all.2 m.m_all.2) : Nat × Nat) = m.m_all := by
    rw [Nat.min_eq_right hfirst, Nat.max_eq_right hlast]
  rw [unionMask, hall]
  exact unionRanges_spec h hx

/-! ## Complement -/

/-- Ranges that are added behind all that are there. -/
theorem setSorted_last {ret : Assoc Nat Nat} {r : Nat × Nat} (h : ∀ d ∈ ret, d.1 < r.1) : ret.setSorted r = ret ++ [r] := by
  have hset := Assoc.setSorted_between (a := ret) (b := []) (e := r) (fun d hd => ⟨h d hd, (h d hd).not_gt⟩) fun d hd =>
    absurd hd List.not_mem_nil
  rwa [List.append_nil] at hset

/-- The loop collects the gaps. -/
theorem invertLoop_eq (ret : Assoc Nat Nat) {last : Nat} (stop : Nat) {l : Assoc Nat Nat} (hl : Apart l) (hlast : ∀ r ∈ l, last ≤ r.1)
    (hret : ∀ d ∈ ret, d.1 < last) :
    (if (invertLoop ret last l).2 ≠ stop then (invertLoop ret last l).1.setSorted ((invertLoop ret last l).2, stop)
      else (invertLoop ret last l).1) = ret ++ gaps last l stop := by
  induction l generalizing ret last with
  | nil =>
    by_cases heq : last = stop
    · simp [invertLoop, gaps, heq]
    · have hset : ret.setSorted (last, stop) = ret ++ [(last, stop)] := setSorted_last hret
      simp [invertLoop, gaps, heq, hset]
  | cons i l ih =>
    obtain ⟨hi, hil, hl⟩ := apart_cons.mp hl
    have hle := hlast i List.mem_cons_self
    by_cases hne : i.1 = last
    · simp only [invertLoop, gaps, hne, ne_eq, not_true_eq_false, if_false]
      exact ih ret hl (fun r hr => (hil r hr).le) fun d hd => (hret d hd).trans (by omega)
    · simp only [invertLoop, gaps, hne, ne_eq, not_false_eq_true, if_true]
      rw [setSorted_last hret]
      have hrest := ih (ret ++ [(last, i.1)]) hl (fun r hr => (hil r hr).le) fun d hd => by
        rcases List.mem_append.mp hd with hd | hd
        · exact (hret d hd).trans (by omega)
        · obtain rfl := List.mem_singleton.mp hd
          dsimp only
          omega
      simp only [ne_eq] at hrest
      rw [hrest, List.append_assoc, List.singleton_append]

/-- The inverted mask has what the mask has not. -/
theorem inverted_spec {m : RangeMask} (h : m.Proper) :
    m.inverted.m_all = m.m_all ∧ m.inverted.Proper ∧ m.inverted.itemSet = Set.Ico m.m_all.1 m.m_all.2 \ m.itemSet := by
  have hranges : m.inverted.m_ranges = gaps m.m_all.1 m.m_ranges m.m_all.2 := by
    have hloop := invertLoop_eq [] m.m_all.2 h.apart (fun r hr => (h.within r hr).1) fun d hd =>
      absurd hd List.not_mem_nil
    rw [List.nil_append] at hloop
    exact hloop
  have hall : m.inverted.m_all = m.m_all := rfl
  refine ⟨hall, ⟨h.ground, ?_, ?_⟩, ?_⟩
  · rw [hranges]
    exact apart_gaps h.apart h.within h.ground
  · rw [hranges, hall]
    exact within_gaps h.apart h.within h.ground
  · rw [itemSet, hranges]
    exact items_gaps h.apart h.within h.ground

/-! ## Counting -/

/-- A mask has finitely many items. -/
theorem finite_items (l : List (Nat × Nat)) : (items l).Finite := by
  induction l with
  | nil =>
    rw [items_nil]
    exact Set.finite_empty
  | cons r l ih =>
    rw [items_cons]
    exact (Set.finite_Ico r.1 r.2).union ih

/-- A range has as many items as it is long. -/
theorem ncard_Ico (a b : Nat) : (Set.Ico a b).ncard = b - a := by
  rw [← Finset.coe_Ico, Set.ncard_coe_finset, Nat.card_Ico]

/-- The items behind a range are not in it. -/
theorem disjoint_behind {r : Nat × Nat} {l : List (Nat × Nat)} (h : ∀ s ∈ l, r.2 < s.1) (S : Set Nat) :
    Disjoint (Set.Ico r.1 r.2) (items l ∩ S) := by
  refine Set.disjoint_left.mpr fun x hx hl => ?_
  have hle := le_of_mem_items (fun s hs => (h s hs).le) hl.1
  exact absurd hx.2 hle.not_gt

/-- Ranges that are apart have as many items as their lengths add up to. -/
theorem ncard_items {l : List (Nat × Nat)} (hl : Apart l) : (items l).ncard = (l.map fun r => r.2 - r.1).sum := by
  induction l with
  | nil => simp
  | cons r l ih =>
    obtain ⟨-, hrl, hl⟩ := apart_cons.mp hl
    have hdisjoint := disjoint_behind hrl Set.univ
    rw [Set.inter_univ] at hdisjoint
    rw [items_cons, Set.ncard_union_eq hdisjoint (Set.finite_Ico _ _) (finite_items l), ncard_Ico, ih hl, List.map_cons, List.sum_cons]

/-- `size` counts the items. -/
theorem size_eq {m : RangeMask} (h : m.Proper) : m.size = m.itemSet.ncard := by
  have hfold : ∀ (l : List (Nat × Nat)) (c : Nat), l.foldl (fun c r => c + (r.2 - r.1)) c = c + (l.map fun r => r.2 - r.1).sum := by
    intro l
    induction l with
    | nil => exact fun c => rfl
    | cons r l ih =>
      intro c
      rw [List.foldl_cons, ih, List.map_cons, List.sum_cons, Nat.add_assoc]
  rw [size, hfold, Nat.zero_add, itemSet, ncard_items h.apart]

/-! ## The lowest items -/

/-- The items of a set that have fewer than a number of items before them. -/
def lowestOf (k : Nat) (S : Set Nat) : Set Nat := {x | x ∈ S ∧ (S ∩ Set.Iio x).ncard < k}

/-- No item is among the lowest none. -/
theorem lowestOf_zero (S : Set Nat) : lowestOf 0 S = ∅ := by simp [lowestOf]

/-- The lowest items of a range and of what is behind it. -/
theorem lowestOf_cons {r : Nat × Nat} {l : List (Nat × Nat)} (hl : Apart (r :: l)) (k : Nat) :
    lowestOf k (items (r :: l)) = Set.Ico r.1 (min (r.1 + k) r.2) ∪ lowestOf (k - (min (r.1 + k) r.2 - r.1)) (items l) := by
  obtain ⟨hr, hrl, -⟩ := apart_cons.mp hl
  have hbehind : ∀ x ∈ items l, r.2 ≤ x := fun x hx => le_of_mem_items (fun s hs => (hrl s hs).le) hx
  -- before an item of the range there are those of the range
  have hin : ∀ x ∈ Set.Ico r.1 r.2, (items (r :: l) ∩ Set.Iio x).ncard = x - r.1 := by
    intro x hx
    have heq : items (r :: l) ∩ Set.Iio x = Set.Ico r.1 x := by
      refine Set.ext fun y => ?_
      have hy := hbehind y
      simp only [items_cons, Set.mem_inter_iff, Set.mem_union, Set.mem_Ico, Set.mem_Iio] at hx ⊢
      grind
    rw [heq, ncard_Ico]
  -- before one behind it there are all of the range
  have hout : ∀ x ∈ items l, (items (r :: l) ∩ Set.Iio x).ncard = (r.2 - r.1) + (items l ∩ Set.Iio x).ncard := by
    intro x hx
    have heq : items (r :: l) ∩ Set.Iio x = Set.Ico r.1 r.2 ∪ (items l ∩ Set.Iio x) := by
      have hle := hbehind x hx
      refine Set.ext fun y => ?_
      simp only [items_cons, Set.mem_inter_iff, Set.mem_union, Set.mem_Ico, Set.mem_Iio]
      grind
    rw [heq, Set.ncard_union_eq (disjoint_behind hrl _) (Set.finite_Ico _ _) ((finite_items l).inter_of_left _), ncard_Ico]
  refine Set.ext fun x => ?_
  simp only [lowestOf, Set.mem_ofPred_eq, items_cons, Set.mem_union]
  rw [← items_cons]
  constructor
  · rintro ⟨hx | hx, hlt⟩
    · rw [hin x hx] at hlt
      simp only [Set.mem_Ico] at hx ⊢
      omega
    · rw [hout x hx] at hlt
      exact .inr ⟨hx, by omega⟩
  · rintro (hx | ⟨hx, hlt⟩)
    · have hx' : x ∈ Set.Ico r.1 r.2 := by
        simp only [Set.mem_Ico] at hx ⊢
        omega
      rw [hin x hx']
      simp only [Set.mem_Ico] at hx
      exact ⟨.inl hx', by omega⟩
    · rw [hout x hx]
      exact ⟨.inr hx, by omega⟩

/-- The loop takes the lowest items, over ranges that stay apart. -/
theorem lowestLoop_spec {ret l : Assoc Nat Nat} {k : Nat} (h : Apart (ret ++ l)) :
    Apart (lowestLoop ret k l) ∧ items (lowestLoop ret k l) = items ret ∪ lowestOf k (items l) := by
  induction l generalizing ret k with
  | nil =>
    rw [List.append_nil] at h
    refine ⟨h, ?_⟩
    simp [lowestLoop, lowestOf]
  | cons r l ih =>
    obtain ⟨hret, hrl, hcross⟩ := apart_append.mp h
    rw [lowestLoop]
    split
    · rename_i hzero
      rw [hzero, lowestOf_zero, Set.union_empty]
      exact ⟨hret, rfl⟩
    · rename_i hpos
      obtain ⟨hr, hbehind, hl⟩ := apart_cons.mp hrl
      have hkey : ∀ d ∈ ret, d.1 < r.1 := fun d hd => (hret.1 d hd).trans (hcross d hd r List.mem_cons_self)
      have hset : ret.setSorted (r.1, min (r.1 + k) r.2) = ret ++ [(r.1, min (r.1 + k) r.2)] := setSorted_last hkey
      have hnext : Apart ((ret ++ [(r.1, min (r.1 + k) r.2)]) ++ l) := by
        rw [List.append_assoc, List.singleton_append]
        refine apart_between hret hl (by dsimp only; omega) (fun d hd => hcross d hd r List.mem_cons_self) fun d hd => ?_
        have hlt := hbehind d hd
        dsimp only
        omega
      obtain ⟨hapart, hitems⟩ := ih (k := k - (min (r.1 + k) r.2 - r.1)) hnext
      rw [hset]
      refine ⟨hapart, ?_⟩
      rw [hitems, lowestOf_cons hrl, items_append, items_cons, items_nil, Set.union_empty, Set.union_assoc]

/-- `lowest` keeps the lowest items. -/
theorem lowest_spec {m : RangeMask} (h : m.Proper) (k : Nat) :
    (m.lowest k).m_all = m.m_all ∧ (m.lowest k).Proper ∧ (m.lowest k).itemSet = lowestOf k m.itemSet := by
  have hstart : Apart ([] ++ m.m_ranges) := h.apart
  obtain ⟨hapart, hitems⟩ := lowestLoop_spec (k := k) hstart
  rw [items_nil, Set.empty_union] at hitems
  refine ⟨rfl, proper_of_subset h.ground hapart fun x hx => h.subset ?_, hitems⟩
  have hx : x ∈ items (lowestLoop [] k m.m_ranges) := hx
  rw [hitems] at hx
  exact hx.1

/-! ## Membership -/

/-- `contains` asks for an item. -/
theorem contains_iff {m : RangeMask} (h : m.Proper) (i : Nat) : m.contains i = true ↔ i ∈ m.itemSet := by
  obtain ⟨before, after, hl, hbefore, hafter, hprev, -⟩ := exists_split h.apart i
  have hapart := h.apart
  rw [hl] at hapart
  have hnot : i ∉ items after := by
    rintro ⟨r, hr, hle, -⟩
    exact absurd hle (hafter r hr).not_ge
  rw [contains, hprev, itemSet, hl, items_append]
  rcases List.eq_nil_or_concat before with rfl | ⟨before, it, rfl⟩
  · simp [hnot]
  · rw [List.concat_eq_append] at hapart hbefore ⊢
    have hit := hbefore it (by simp)
    have hends : i ∉ items before := by
      have hsplit := (apart_append.mp (apart_append.mp hapart).1).2.2
      intro hi
      have hlt := lt_of_mem_items (fun r hr => (hsplit r hr it (List.mem_singleton.mpr rfl)).le) hi
      exact absurd hit hlt.not_ge
    simp [hnot, hends, hit]

/-- `empty` says that there is no item. -/
theorem empty_iff {m : RangeMask} (h : m.Proper) : m.empty = true ↔ m.itemSet = ∅ := by
  rw [empty, List.isEmpty_iff, itemSet, h.apart.items_eq_empty]

/-- `full` says that no item is missing. -/
theorem full_iff {m : RangeMask} (h : m.Proper) : m.full = true ↔ m.itemSet = Set.Ico m.m_all.1 m.m_all.2 := by
  have hground := h.ground
  rw [full, decide_eq_true_iff]
  constructor
  · rintro (heq | heq)
    · have hempty : Set.Ico m.m_all.1 m.m_all.2 = ∅ := Set.Ico_eq_empty (by omega)
      rw [hempty]
      exact Set.subset_empty_iff.mp (hempty ▸ h.subset)
    · rw [itemSet, heq, items_cons, items_nil, Set.union_empty]
  · intro heq
    by_contra hnot
    rw [not_or] at hnot
    obtain ⟨hne, hranges⟩ := hnot
    have hlt : m.m_all.1 < m.m_all.2 := by omega
    have hfirst : m.m_all.1 ∈ m.itemSet := heq ▸ Set.mem_Ico.mpr ⟨le_refl _, hlt⟩
    obtain ⟨r, hr, hle, hgt⟩ := hfirst
    have hwithin := h.within r hr
    -- the range of the first item reaches to the end, as the item behind it would be in no range
    obtain ⟨a, b, hsplit⟩ := List.append_of_mem hr
    have hapart := h.apart
    rw [hsplit] at hapart
    obtain ⟨ha, hb, hab⟩ := apart_append.mp hapart
    obtain ⟨hrlt, hrb, hb⟩ := apart_cons.mp hb
    have hanil : a = [] := by
      cases a with
      | nil => rfl
      | cons d a =>
        have h₁ := hab d List.mem_cons_self r List.mem_cons_self
        have h₂ := (h.within d (by rw [hsplit]; simp)).1
        have h₃ := ha.1 d List.mem_cons_self
        omega
    have hend : r.2 = m.m_all.2 := by
      by_contra hshort
      have hmem : r.2 ∈ m.itemSet := heq ▸ Set.mem_Ico.mpr ⟨by omega, by omega⟩
      rw [itemSet, hsplit, hanil, List.nil_append, items_cons] at hmem
      rcases hmem with hmem | ⟨s, hs, hle', -⟩
      · exact absurd hmem.2 (lt_irrefl _)
      · exact absurd (hrb s hs) hle'.not_gt
    have hbnil : b = [] := by
      cases b with
      | nil => rfl
      | cons d b =>
        have h₁ := hrb d List.mem_cons_self
        have h₂ := (h.within d (by rw [hsplit]; simp)).2
        have h₃ := hb.1 d List.mem_cons_self
        omega
    refine hranges ?_
    have hpair : r = m.m_all := Prod.ext (by omega) hend
    rw [hsplit, hanil, hbnil, hpair]
    rfl

/-! ## The ends -/

/-- `firstOut` is the least item that is missing. -/
theorem firstOut_spec {m : RangeMask} (h : m.Proper) : IsLeast {x | m.m_all.1 ≤ x ∧ x ∉ m.itemSet} m.firstOut := by
  obtain ⟨all, l⟩ := m
  rw [firstOut]
  cases l with
  | nil => exact ⟨⟨le_refl _, by simp [itemSet]⟩, fun x hx => hx.1⟩
  | cons r l =>
    have hapart := h.apart
    have hfirst := (h.within r List.mem_cons_self).1
    obtain ⟨hr, hrl, hl⟩ := apart_cons.mp hapart
    dsimp only at hfirst ⊢
    by_cases heq : r.1 = all.1
    · have hfind : Assoc.find (r :: l) all.1 = some r.2 := by rw [Assoc.find, if_pos heq]
      rw [hfind, Option.getD_some]
      constructor
      · refine ⟨by omega, ?_⟩
        rw [itemSet, items_cons]
        rintro (hmem | ⟨s, hs, hle, -⟩)
        · exact absurd hmem.2 (lt_irrefl _)
        · exact absurd (hrl s hs) hle.not_gt
      · rintro x ⟨hle, hx⟩
        by_contra hlt
        refine hx ⟨r, List.mem_cons_self, ?_⟩
        simp only [Set.mem_Ico]
        omega
    · have hbehind : ∀ s ∈ r :: l, all.1 < s.1 := by
        intro s hs
        rcases List.mem_cons.mp hs with rfl | hs
        · omega
        · have := hrl s hs
          omega
      have hfind : Assoc.find (r :: l) all.1 = none := Assoc.find_eq_none_of_lt hbehind
      rw [hfind, Option.getD_none]
      refine ⟨⟨le_refl _, ?_⟩, fun x hx => hx.1⟩
      rintro ⟨s, hs, hle, -⟩
      exact absurd (hbehind s hs) hle.not_gt

/-- `lastIn` is the greatest item. -/
theorem lastIn_spec {m : RangeMask} (h : m.Proper) (hne : m.itemSet.Nonempty) : IsGreatest m.itemSet m.lastIn := by
  obtain ⟨all, l⟩ := m
  rcases List.eq_nil_or_concat l with rfl | ⟨l, r, rfl⟩
  · simp [itemSet] at hne
  · rw [List.concat_eq_append] at h ⊢
    obtain ⟨hl, hr, hlr⟩ := apart_append.mp h.apart
    have hlt := hr.1 r (List.mem_singleton.mpr rfl)
    have hlast : lastIn ⟨all, l ++ [r]⟩ = r.2 - 1 := by simp [lastIn]
    rw [hlast]
    constructor
    · refine ⟨r, by simp, ?_⟩
      simp only [Set.mem_Ico]
      omega
    · rintro x ⟨s, hs, hle, hxs⟩
      rcases List.mem_append.mp hs with hs | hs
      · have h₁ := hlr s hs r (List.mem_singleton.mpr rfl)
        omega
      · obtain rfl := List.mem_singleton.mp hs
        omega

/-! ## Iteration -/

/-- The value that the iterator goes to: the first item of the set from a number on, or the end. -/
def Meets (m : RangeMask) (start value : Nat) : Prop :=
  (value ∈ m.itemSet ∧ start ≤ value ∨ value = m.m_all.2) ∧ ∀ x ∈ m.itemSet, start ≤ x → value ≤ x

/-- The first item behind those of some ranges is the beginning of the next range. -/
theorem meets_head {m : RangeMask} (h : m.Proper) {before after : List (Nat × Nat)} (hl : m.m_ranges = before ++ after) {n : Nat}
    (hbefore : ∀ x ∈ items before, x < n) (hafter : ∀ r ∈ after, n ≤ r.1) : m.Meets n ((after.head?.map Prod.fst).getD m.m_all.2) := by
  have hapart := h.apart
  rw [hl] at hapart
  obtain ⟨-, ha, -⟩ := apart_append.mp hapart
  have hitems : ∀ x ∈ m.itemSet, n ≤ x → x ∈ items after := by
    intro x hx hle
    rw [itemSet, hl, items_append] at hx
    exact hx.resolve_left fun hx => absurd (hbefore x hx) hle.not_gt
  cases after with
  | nil =>
    refine ⟨.inr rfl, fun x hx hle => ?_⟩
    have hmem := hitems x hx hle
    simp at hmem
  | cons u after =>
    have hu := ha.1 u List.mem_cons_self
    dsimp only [List.head?_cons, Option.map_some, Option.getD_some]
    refine ⟨.inl ⟨⟨u, by rw [hl]; simp, ?_⟩, hafter u List.mem_cons_self⟩, fun x hx hle => ?_⟩
    · simp only [Set.mem_Ico]
      omega
    · refine le_of_mem_items (fun s hs => ?_) (hitems x hx hle)
      rcases List.mem_cons.mp hs with rfl | hs
      · exact le_refl _
      · have := (apart_cons.mp ha).2.1 s hs
        omega

/-- The iteration begins at the first item. -/
theorem begin_meets {m : RangeMask} (h : m.Proper) : m.Meets m.m_all.1 m.begin := by
  have hl : m.m_ranges = [] ++ m.m_ranges := rfl
  exact meets_head h hl (by simp) fun r hr => (h.within r hr).1

/-- The iteration goes on to the next item. -/
theorem next_meets {m : RangeMask} (h : m.Proper) (t : Nat) : m.Meets (t + 1) (m.next t) := by
  obtain ⟨before, after, hl, hbefore, hafter, hprev, hu⟩ := exists_split h.apart (t + 1)
  have hapart := h.apart
  rw [hl] at hapart
  rw [next, hprev, hu]
  rcases List.eq_nil_or_concat before with rfl | ⟨before, it, rfl⟩
  · exact meets_head h hl (by simp) fun r hr => (hafter r hr).le
  · rw [List.concat_eq_append] at hl hapart hbefore ⊢
    rw [List.getLast?_concat, Option.any_some]
    split
    · -- the next number is in the range that begins before it
      rename_i hin
      have hin := of_decide_eq_true hin
      refine ⟨.inl ⟨⟨it, by rw [hl]; simp, hin⟩, le_refl _⟩, fun x _ hle => hle⟩
    · rename_i hout
      have hit := hbefore it (by simp)
      have hend : it.2 ≤ t + 1 := by
        by_contra hlt
        exact hout (decide_eq_true ⟨hit, by omega⟩)
      refine meets_head h hl (fun x hx => ?_) fun r hr => (hafter r hr).le
      refine (lt_of_mem_items (fun r hr => ?_) hx).trans_le hend
      rcases List.mem_append.mp hr with hr | hr
      · have h₁ := (apart_append.mp (apart_append.mp hapart).1).2.2 r hr it (List.mem_singleton.mpr rfl)
        have h₂ := (apart_append.mp hapart).1.1 it (by simp)
        omega
      · rw [List.mem_singleton.mp hr]

/-- An iteration meets the items that are left, once each and in order. -/
theorem iterateFrom_spec {m : RangeMask} (h : m.Proper) {steps n value : Nat} (hv : m.Meets n value)
    (hsteps : m.m_all.2 - value ≤ steps) :
    ∃ l, m.iterateFrom steps value = .ok l ∧ l.Pairwise (· < ·) ∧ ∀ x, x ∈ l ↔ x ∈ m.itemSet ∧ n ≤ x := by
  have hstop : value = m.m_all.2 → ∀ x, ¬ (x ∈ m.itemSet ∧ n ≤ x) := by
    rintro heq x ⟨hx, hle⟩
    have h₁ := hv.2 x hx hle
    have h₂ := (h.subset hx).2
    omega
  induction steps generalizing n value with
  | zero =>
    have heq : value = m.m_all.2 := by
      rcases hv.1 with ⟨hmem, -⟩ | heq
      · have := (h.subset hmem).2
        omega
      · exact heq
    refine ⟨[], by rw [iterateFrom, if_pos heq], .nil, fun x => ?_⟩
    simp only [List.not_mem_nil, false_iff]
    exact hstop heq x
  | succ steps ih =>
    rw [iterateFrom]
    split
    · rename_i heq
      refine ⟨[], rfl, .nil, fun x => ?_⟩
      simp only [List.not_mem_nil, false_iff]
      exact hstop heq x
    · rename_i hne
      obtain ⟨hmem, hle⟩ := hv.1.resolve_right hne
      have hlt := (h.subset hmem).2
      have hnext := next_meets h value
      have hgt : value + 1 ≤ m.next value := by
        rcases hnext.1 with ⟨-, hle⟩ | heq <;> omega
      have hend : m.next value = m.m_all.2 → ∀ x, ¬ (x ∈ m.itemSet ∧ value + 1 ≤ x) := by
        rintro heq x ⟨hx, hle⟩
        have h₁ := hnext.2 x hx hle
        have h₂ := (h.subset hx).2
        omega
      obtain ⟨l, hrun, hpairwise, hl⟩ := ih hnext (by omega) hend
      refine ⟨value :: l, by rw [hrun]; rfl, List.pairwise_cons.mpr ⟨fun x hx => ((hl x).mp hx).2, hpairwise⟩, fun x => ?_⟩
      rw [List.mem_cons, hl]
      constructor
      · rintro (rfl | ⟨hx, hlex⟩)
        · exact ⟨hmem, hle⟩
        · exact ⟨hx, by omega⟩
      · rintro ⟨hx, hlex⟩
        have hvx := hv.2 x hx hlex
        rcases Nat.eq_or_lt_of_le hvx with heq | hlt
        · exact .inl heq.symm
        · exact .inr ⟨hx, hlt⟩

/-- The iterator meets every item once, in ascending order. -/
theorem iterate_spec {m : RangeMask} (h : m.Proper) :
    ∃ l, m.iterate = .ok l ∧ l.Pairwise (· < ·) ∧ ∀ x, x ∈ l ↔ x ∈ m.itemSet := by
  have hbegin := begin_meets h
  have hground := h.ground
  have hge : m.m_all.1 ≤ m.begin := by
    rcases hbegin.1 with ⟨-, hle⟩ | heq <;> omega
  have hsteps : m.m_all.2 - m.begin ≤ m.m_all.2 - m.m_all.1 := by omega
  obtain ⟨l, hrun, hpairwise, hl⟩ := iterateFrom_spec h hbegin hsteps
  exact ⟨l, hrun, hpairwise, fun x => (hl x).trans (and_iff_left_of_imp fun hx => (h.subset hx).1)⟩

end RangeMask

end Webthree
