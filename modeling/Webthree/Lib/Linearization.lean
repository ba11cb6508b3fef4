import Mathlib.Data.Fintype.Card
import Mathlib.Data.List.Nodup
import Mathlib.Data.Set.Finite.List
import Mathlib.Logic.Relation

/-!
# Linearisations of lists

One list that keeps the orders of several, and holds what they hold, each item once. Lists have one only if their orders together do not
go round. As long as some list begins with an item that is behind no other in any list, that item can be the next one; otherwise the
orders go round.
-/

namespace Webthree

namespace Linearization

open Relation

variable {α : Type*}

/-- Some list has the one item before the other. -/
def Before (lists : List (List α)) (a b : α) : Prop := ∃ l ∈ lists, [a, b].Sublist l

/-- The orders of the lists together go round. -/
def Cyclic (lists : List (List α)) : Prop := ∃ a, TransGen (Before lists) a a

/-- A list that keeps the order of each of the lists, and holds all of their items once. -/
structure Linearizes (lists : List (List α)) (result : List α) : Prop where
  nodup : result.Nodup
  keeps : ∀ l ∈ lists, l.Sublist result
  mem_iff : ∀ x, x ∈ result ↔ ∃ l ∈ lists, x ∈ l

variable {lists rest : List (List α)} {result : List α} {a b c : α}

/-! ## Orders that go round -/

/-- What comes before something in some of the lists does so in all of them. -/
theorem Before.mono (h : ∀ l ∈ rest, ∃ l' ∈ lists, l.Sublist l') (hab : Before rest a b) : Before lists a b := by
  obtain ⟨l, hl, hsub⟩ := hab
  obtain ⟨l', hl', hle⟩ := h l hl
  exact ⟨l', hl', hsub.trans hle⟩

/-- Parts of lists go round only if the lists do. -/
theorem Cyclic.mono (h : ∀ l ∈ rest, ∃ l' ∈ lists, l.Sublist l') : Cyclic rest → Cyclic lists := by
  rintro ⟨a, ha⟩
  exact ⟨a, TransGen.mono (fun _ _ => Before.mono h) a a ha⟩

/-- Of finitely many items that each have another of them before, some go round. -/
theorem exists_cycle {heads : List α} (hne : heads ≠ []) {r : α → α → Prop} (h : ∀ a ∈ heads, ∃ b ∈ heads, r b a) :
    ∃ a, TransGen r a a := by
  by_contra hnone
  have : Finite {a // a ∈ heads} := List.finite_toSet heads
  have : IsTrans {a // a ∈ heads} fun x y => TransGen r x y := ⟨fun _ _ _ hxy hyz => hxy.trans hyz⟩
  have : Std.Irrefl fun x y : {a // a ∈ heads} => TransGen r x y := ⟨fun x hx => hnone ⟨x, hx⟩⟩
  have hwf := Finite.wellFounded_of_trans_of_irrefl fun x y : {a // a ∈ heads} => TransGen r x y
  obtain ⟨a, ha⟩ := List.exists_mem_of_ne_nil heads hne
  obtain ⟨m, -, hm⟩ := hwf.has_min Set.univ ⟨⟨a, ha⟩, trivial⟩
  obtain ⟨b, hb, hbm⟩ := h m m.2
  exact hm ⟨b, hb⟩ trivial (.single hbm)

/-- If each list begins with an item that is behind another in some list, the orders go round. -/
theorem cyclic_of_stuck (hne : lists ≠ []) (hstuck : ∀ l ∈ lists, ∃ a t, l = a :: t ∧ ∃ l' ∈ lists, a ∈ l'.tail) : Cyclic lists := by
  have hheads : lists.filterMap List.head? ≠ [] := by
    obtain ⟨l, hl⟩ := List.exists_mem_of_ne_nil lists hne
    obtain ⟨a, t, rfl, -⟩ := hstuck l hl
    exact List.ne_nil_of_mem (List.mem_filterMap.mpr ⟨a :: t, hl, rfl⟩)
  refine exists_cycle hheads fun a ha => ?_
  obtain ⟨l, hl, hhead⟩ := List.mem_filterMap.mp ha
  obtain ⟨a', t, rfl, l', hl', hbehind⟩ := hstuck l hl
  obtain rfl : a' = a := Option.some.inj hhead
  obtain ⟨b, t', rfl, -⟩ := hstuck l' hl'
  have hsub : [b, a'].Sublist (b :: t') := (List.singleton_sublist.mpr hbehind).cons_cons b
  exact ⟨b, List.mem_filterMap.mpr ⟨b :: t', hl', rfl⟩, b :: t', hl', hsub⟩

/-- An item that is before others alone, and nothing else, does not make the orders go round. -/
theorem cyclic_cons_iff {l : List α} (hlists : ∀ l' ∈ lists, c ∉ l') (hl : c ∉ l) :
    Cyclic (lists ++ [c :: l]) ↔ Cyclic (lists ++ [l]) := by
  have hbehind : ∀ {x y}, Before (lists ++ [c :: l]) x y → y ≠ c := by
    rintro x y ⟨l', hl', hsub⟩ rfl
    rcases List.mem_append.mp hl' with hold | hnew
    · exact hlists l' hold (hsub.subset (by simp))
    · obtain rfl := List.mem_singleton.mp hnew
      cases hsub with
      | cons _ hsub => exact hl (hsub.subset (by simp))
      | cons_cons _ hsub => exact hl (hsub.subset (by simp))
  have hstep : ∀ {x y}, x ≠ c → Before (lists ++ [c :: l]) x y → Before (lists ++ [l]) x y := by
    rintro x y hx ⟨l', hl', hsub⟩
    rcases List.mem_append.mp hl' with hold | hnew
    · exact ⟨l', List.mem_append_left _ hold, hsub⟩
    · obtain rfl := List.mem_singleton.mp hnew
      refine ⟨l, by simp, ?_⟩
      cases hsub with
      | cons _ hsub => exact hsub
      | cons_cons _ _ => exact absurd rfl hx
  constructor
  · rintro ⟨a, ha⟩
    have hgo : ∀ {x y}, x ≠ c → TransGen (Before (lists ++ [c :: l])) x y → TransGen (Before (lists ++ [l])) x y := by
      intro x y hx hxy
      induction hxy with
      | single hab => exact .single (hstep hx hab)
      | tail hab hbc ih => exact ih.tail (hstep (hbehind (TransGen.tail'_iff.mp hab).choose_spec.2) hbc)
    exact ⟨a, hgo (hbehind (TransGen.tail'_iff.mp ha).choose_spec.2) ha⟩
  · refine Cyclic.mono fun l' hl' => ?_
    rcases List.mem_append.mp hl' with hold | hnew
    · exact ⟨l', List.mem_append_left _ hold, List.Sublist.refl l'⟩
    · obtain rfl := List.mem_singleton.mp hnew
      exact ⟨c :: l', by simp, List.sublist_cons_self c l'⟩

/-! ## Linearisations -/

/-- No lists are linearized by none. -/
theorem linearizes_nil : Linearizes ([] : List (List α)) [] := ⟨List.nodup_nil, by simp, by simp⟩

/-- An item that is behind no other goes before what is left of the lists without it. -/
theorem Linearizes.cons [DecidableEq α] (hc : ∃ l ∈ lists, c ∈ l) (hfirst : ∀ l ∈ lists, c ∉ l.tail)
    (hrest : ∀ l, l ∈ rest ↔ l ≠ [] ∧ ∃ l' ∈ lists, l = l'.filter (· ≠ c)) (h : Linearizes rest result) :
    Linearizes lists (c :: result) := by
  have hkeeps : ∀ l ∈ lists, (l.filter (· ≠ c)).Sublist result := by
    intro l hl
    by_cases hempty : l.filter (· ≠ c) = []
    · rw [hempty]
      exact List.nil_sublist result
    · exact h.keeps _ ((hrest _).mpr ⟨hempty, l, hl, rfl⟩)
  have hmem : ∀ x, x ∈ result ↔ x ≠ c ∧ ∃ l ∈ lists, x ∈ l := by
    intro x
    rw [h.mem_iff]
    constructor
    · rintro ⟨l, hl, hx⟩
      obtain ⟨-, l', hl', rfl⟩ := (hrest l).mp hl
      exact ⟨of_decide_eq_true (List.mem_filter.mp hx).2, l', hl', (List.mem_filter.mp hx).1⟩
    · rintro ⟨hne, l, hl, hx⟩
      have hx' : x ∈ l.filter (· ≠ c) := List.mem_filter.mpr ⟨hx, decide_eq_true hne⟩
      exact ⟨_, (hrest _).mpr ⟨List.ne_nil_of_mem hx', l, hl, rfl⟩, hx'⟩
  refine ⟨List.nodup_cons.mpr ⟨fun hin => ((hmem c).mp hin).1 rfl, h.nodup⟩, fun l hl => ?_, fun x => ?_⟩
  · cases l with
    | nil => exact List.nil_sublist _
    | cons x l =>
      have hl' : l.filter (· ≠ c) = l := by
        rw [List.filter_eq_self]
        intro y hy
        refine decide_eq_true fun hyc => ?_
        rw [hyc] at hy
        exact hfirst _ hl hy
      by_cases hx : x = c
      · subst hx
        have hle := hkeeps _ hl
        rw [List.filter_cons_of_neg (by simp), hl'] at hle
        exact hle.cons_cons x
      · have hle := hkeeps _ hl
        rw [List.filter_cons_of_pos (by simpa using hx), hl'] at hle
        exact hle.cons c
  · rw [List.mem_cons, hmem]
    constructor
    · rintro (rfl | ⟨-, hx⟩)
      · exact hc
      · exact hx
    · intro hx
      by_cases hxc : x = c
      · exact .inl hxc
      · exact .inr ⟨hxc, hx⟩

/-- In a list without repetition the order of two items is that of their positions. -/
theorem idxOf_lt [DecidableEq α] (h : result.Nodup) (hab : [a, b].Sublist result) : result.idxOf a < result.idxOf b := by
  induction result with
  | nil => cases hab
  | cons x l ih =>
    obtain ⟨hx, hl⟩ := List.nodup_cons.mp h
    cases hab with
    | cons _ hsub =>
      have ha : x ≠ a := by
        rintro rfl
        exact hx (hsub.subset (by simp))
      have hb : x ≠ b := by
        rintro rfl
        exact hx (hsub.subset (by simp))
      rw [List.idxOf_cons_ne _ ha, List.idxOf_cons_ne _ hb]
      exact Nat.succ_lt_succ (ih hl hsub)
    | cons_cons _ hsub =>
      have hb : a ≠ b := by
        rintro rfl
        exact hx (hsub.subset (by simp))
      rw [List.idxOf_cons_self, List.idxOf_cons_ne _ hb]
      exact Nat.succ_pos _

/-- In a linearization the order of all lists is kept, also from list to list. -/
theorem Linearizes.idxOf_lt [DecidableEq α] (h : Linearizes lists result) (hab : TransGen (Before lists) a b) :
    result.idxOf a < result.idxOf b := by
  have hstep : ∀ {x y}, Before lists x y → result.idxOf x < result.idxOf y := by
    rintro x y ⟨l, hl, hsub⟩
    exact Linearization.idxOf_lt h.nodup (hsub.trans (h.keeps l hl))
  induction hab with
  | single hab => exact hstep hab
  | tail _ hbc ih => exact ih.trans (hstep hbc)

/-- Lists that can be linearised do not go round. -/
theorem Linearizes.not_cyclic (h : Linearizes lists result) : ¬ Cyclic lists := by
  classical
  rintro ⟨a, ha⟩
  exact Nat.lt_irrefl _ (h.idxOf_lt ha)

/-- The result begins with an item that all the others are behind. -/
theorem Linearizes.eq_cons (h : Linearizes lists result) (hc : c ∈ result)
    (hfirst : ∀ x ∈ result, x ≠ c → TransGen (Before lists) c x) : ∃ tail, result = c :: tail := by
  classical
  cases result with
  | nil => cases hc
  | cons x l =>
    by_cases hx : x = c
    · exact ⟨l, by rw [hx]⟩
    · have hlt := h.idxOf_lt (hfirst x List.mem_cons_self hx)
      rw [List.idxOf_cons_self] at hlt
      exact absurd hlt (Nat.not_lt_zero _)

end Linearization

end Webthree
