import Webthree.Asm.ExpressionClasses
import Webthree.Evm.Arithmetic
import Webthree.Lib.EState

/-!
# What fits a pattern

The same as a relation: which expressions fit a pattern under an assignment of classes to its match groups. Matching finds such an
assignment, and only fails to if there is none.
-/

namespace Webthree

open ExpressionClasses (Id)

/-- Every class stands at its id. -/
def Numbered (classes : List Expression) : Prop := ∀ (i : Nat) (e : Expression), classes[i]? = some e → e.id = i

/-- The match groups have classes, the first three constants. -/
def GroupsOk (classes : List Expression) (groups : MatchGroups) : Prop :=
  ∀ g e, groups.find g = some e → e ∈ classes ∧ (g ≤ 3 → g ≠ 0 → e.item.type = .Push)

/-- How many arguments an instruction of the rules takes. -/
def AssemblyItem.arity (item : AssemblyItem) : Option Nat :=
  if item.type = .Operation then (operator item.instruction).map Operator.arity else none

/-- Match groups are only added. -/
def GroupsLe (groups groups' : MatchGroups) : Prop := ∀ g e, groups.find g = some e → groups'.find g = some e

theorem GroupsLe.refl (groups : MatchGroups) : GroupsLe groups groups := fun _ _ he => he

theorem GroupsLe.trans {groups groups' groups'' : MatchGroups} (h : GroupsLe groups groups') (h' : GroupsLe groups' groups'') :
    GroupsLe groups groups'' := fun g e he => h' g e (h g e he)

namespace Pattern

/-- The assignment agrees with the match groups. -/
def Agrees (ν : Nat → Id) (groups : MatchGroups) : Prop := ∀ g e, groups.find g = some e → ν g = e.id

theorem Agrees.of_le {ν : Nat → Id} {groups groups' : MatchGroups} (h : Agrees ν groups') (hle : GroupsLe groups groups') :
    Agrees ν groups := fun g e he => h g e (hle g e he)

/-- The class of a match group. -/
def idOf (groups : MatchGroups) (g : Nat) : Id :=
  match groups.find g with
  | none => 0
  | some e => e.id

theorem idOf_agrees (groups : MatchGroups) : Agrees (idOf groups) groups := by
  intro g e he
  rw [idOf, he]

mutual

/-- The expression fits the pattern. -/
def Fits (classes : List Expression) (ν : Nat → Id) : Pattern → Expression → Prop
  | ⟨type, requireDataMatch, data, byte, arguments, g⟩, expr =>
    matchesBaseItem ⟨type, requireDataMatch, data, byte, arguments, g⟩ expr.item = true ∧ (g ≠ 0 → ν g = expr.id) ∧
      (arguments ≠ [] → FitsAll classes ν arguments expr.arguments)

/-- The classes fit the patterns. -/
def FitsAll (classes : List Expression) (ν : Nat → Id) : List Pattern → List Id → Prop
  | [], args => args = []
  | p :: ps, args => ∃ a as e, args = a :: as ∧ classes[a]? = some e ∧ p.Fits classes ν e ∧ FitsAll classes ν ps as

end

mutual

/-- The match groups of a pattern. -/
def groups : Pattern → List Nat
  | ⟨_, _, _, _, arguments, g⟩ => (if g = 0 then [] else [g]) ++ allGroups arguments

def allGroups : List Pattern → List Nat
  | [] => []
  | p :: ps => p.groups ++ allGroups ps

end

mutual

/-- The first three match groups are for constants. -/
def grouped : Pattern → Bool
  | ⟨type, _, _, _, arguments, matchGroup⟩ => (matchGroup = 0 ∨ 3 < matchGroup ∨ type = .Push) && groupedAll arguments

def groupedAll : List Pattern → Bool
  | [] => true
  | p :: ps => p.grouped && groupedAll ps

end

theorem matchesBaseItem_iff {p : Pattern} {item : AssemblyItem} : p.matchesBaseItem item = true ↔
    p.m_type = .UndefinedItem ∨ p.m_type = item.type ∧ (p.m_requireDataMatch = true → p.m_data = item.data) := by
  unfold Pattern.matchesBaseItem
  by_cases h₁ : p.m_type = .UndefinedItem
  · simp [h₁]
  · by_cases h₂ : p.m_type = item.type
    · by_cases h₃ : p.m_requireDataMatch = true ∧ p.m_data ≠ item.data
      · simp [h₂ ▸ h₁, h₂, h₃.1, h₃.2]
      · rw [if_neg h₁, if_neg (not_not.mpr h₂), if_neg h₃]
        simp only [not_and, not_not] at h₃
        exact iff_of_true rfl (Or.inr ⟨h₂, h₃⟩)
    · simp [h₁, h₂]

/-! ## The match group of a pattern -/

/-- What the match group of a pattern is set to. -/
def setGroup (g : Nat) (expr : Expression) (groups : MatchGroups) : Option MatchGroups :=
  if g = 0 then some groups
  else
    match groups.find g with
    | none => some (groups.set g expr)
    | some e => if e.id ≠ expr.id then none else some groups

theorem matches_eq (classes : List Expression) (type : AssemblyItemType) (requireDataMatch : Bool) (data : U256)
    (byte : type = .Operation → data.toNat < 256) (arguments : List Pattern) (g : Nat) (expr : Expression) (groups : MatchGroups) :
    Pattern.matches classes ⟨type, requireDataMatch, data, byte, arguments, g⟩ expr groups =
      if !matchesBaseItem ⟨type, requireDataMatch, data, byte, arguments, g⟩ expr.item then return none
      else
        match setGroup g expr groups with
        | none => return none
        | some groups =>
          if arguments.length ≠ 0 ∧ expr.arguments.length ≠ arguments.length then throw .OptimizerException
          else matchesAll classes arguments expr.arguments groups := by
  rw [Pattern.matches]
  rfl

/-- A group is set to a class if it has none, and otherwise has that class. -/
theorem setGroup_spec {g : Nat} {expr : Expression} {groups groups' : MatchGroups} (h : setGroup g expr groups = some groups') :
    GroupsLe groups groups' ∧ (g ≠ 0 → ∃ e, groups'.find g = some e ∧ e.id = expr.id) ∧
      ∀ g' e, groups'.find g' = some e → groups.find g' = some e ∨ g' = g ∧ g ≠ 0 ∧ e = expr := by
  rw [setGroup] at h
  by_cases hg : g = 0
  · rw [if_pos hg] at h
    cases h
    exact ⟨GroupsLe.refl _, fun hne => absurd hg hne, fun _ _ he => Or.inl he⟩
  · rw [if_neg hg] at h
    cases hfind : groups.find g with
    | none =>
      rw [hfind] at h
      cases h
      refine ⟨fun g' e he => ?_, fun _ => ⟨expr, by rw [Assoc.find_set, if_pos rfl], rfl⟩, fun g' e he => ?_⟩
      · rw [Assoc.find_set, if_neg, he]
        rintro rfl
        rw [hfind] at he
        cases he
      · rw [Assoc.find_set] at he
        by_cases hgg : g' = g
        · rw [if_pos hgg] at he
          cases he
          exact Or.inr ⟨hgg, hg, rfl⟩
        · rw [if_neg hgg] at he
          exact Or.inl he
    | some e =>
      rw [hfind] at h
      dsimp only at h
      by_cases hid : e.id = expr.id
      · rw [if_neg (not_not.mpr hid)] at h
        cases h
        exact ⟨GroupsLe.refl _, fun _ => ⟨e, hfind, hid⟩, fun _ _ he => Or.inl he⟩
      · rw [if_pos hid] at h
        cases h

/-! ## What matches fits -/

/-- What a match says. -/
structure Matched (classes : List Expression) (p : Pattern) (expr : Expression) (groups groups' : MatchGroups) : Prop where
  le : GroupsLe groups groups'
  ok : GroupsOk classes groups'
  found : ∀ g ∈ p.groups, ∃ e, groups'.find g = some e
  fits : ∀ ν, Agrees ν groups' → p.Fits classes ν expr

/-- What a match of the arguments says. -/
structure MatchedAll (classes : List Expression) (ps : List Pattern) (args : List Id) (groups groups' : MatchGroups) : Prop where
  le : GroupsLe groups groups'
  ok : GroupsOk classes groups'
  found : ∀ g ∈ allGroups ps, ∃ e, groups'.find g = some e
  fits : ∀ ν, Agrees ν groups' → FitsAll classes ν ps args

mutual

theorem matched_of_matches {classes : List Expression} : ∀ (p : Pattern) {expr : Expression} {groups groups' : MatchGroups},
    p.grouped = true → (p.m_matchGroup ≠ 0 → expr ∈ classes) → GroupsOk classes groups →
    p.matches classes expr groups = .ok (some groups') → Matched classes p expr groups groups'
  | ⟨type, requireDataMatch, data, byte, arguments, g⟩, expr, groups, groups', hg, hexpr, hok, h => by
    rw [matches_eq] at h
    rw [grouped, Bool.and_eq_true, decide_eq_true_eq] at hg
    by_cases hbase : matchesBaseItem ⟨type, requireDataMatch, data, byte, arguments, g⟩ expr.item = true
    case neg =>
      rw [if_pos (by rw [Bool.not_eq_true] at hbase; rw [hbase]; rfl)] at h
      cases h
    rw [if_neg (by rw [hbase]; exact Bool.false_ne_true)] at h
    cases hset : setGroup g expr groups with
    | none =>
      rw [hset] at h
      cases h
    | some groups₁ =>
      rw [hset] at h
      dsimp only at h
      obtain ⟨hle, hfound, hnew⟩ := setGroup_spec hset
      have hok₁ : GroupsOk classes groups₁ := by
        intro g' e he
        rcases hnew g' e he with he | ⟨rfl, hne, rfl⟩
        · exact hok g' e he
        · refine ⟨hexpr hne, fun hle _ => ?_⟩
          rcases hg.1 with h0 | h3 | hp
          · exact absurd h0 hne
          · omega
          · rcases matchesBaseItem_iff.mp hbase with hu | ⟨ht, _⟩
            · exact absurd (hp.symm.trans hu) (by decide)
            · exact ht.symm.trans hp
      by_cases hlen : arguments.length ≠ 0 ∧ expr.arguments.length ≠ arguments.length
      case pos =>
        rw [if_pos hlen] at h
        cases h
      rw [if_neg hlen] at h
      -- without patterns for them, the arguments are not looked at
      obtain ⟨args, hall, hargs⟩ : ∃ args, MatchedAll classes arguments args groups₁ groups' ∧
          (arguments ≠ [] → args = expr.arguments) := by
        by_cases hnil : arguments = []
        · subst hnil
          refine ⟨[], matchedAll_of_matchesAll [] rfl rfl hok₁ ?_, fun hne => absurd rfl hne⟩
          rw [Pattern.matchesAll] at h ⊢
          exact h
        · have hlength : expr.arguments.length = arguments.length := by
            have := mt List.length_eq_zero_iff.mp hnil
            omega
          exact ⟨expr.arguments, matchedAll_of_matchesAll arguments hg.2 hlength hok₁ h, fun _ => rfl⟩
      refine ⟨hle.trans hall.le, hall.ok, fun g' hg' => ?_, fun ν hν => ?_⟩
      · rw [Pattern.groups] at hg'
        rcases List.mem_append.mp hg' with hg' | hg'
        · by_cases hg0 : g = 0
          · rw [if_pos hg0] at hg'
            cases hg'
          · rw [if_neg hg0] at hg'
            rw [List.mem_singleton.mp hg']
            obtain ⟨e, he, _⟩ := hfound hg0
            exact ⟨e, hall.le g e he⟩
        · exact hall.found g' hg'
      · rw [Fits]
        refine ⟨hbase, fun hne => ?_, fun hnil => hargs hnil ▸ hall.fits ν hν⟩
        obtain ⟨e, he, hid⟩ := hfound hne
        rw [hν g e (hall.le g e he), hid]

theorem matchedAll_of_matchesAll {classes : List Expression} : ∀ (ps : List Pattern) {args : List Id}
    {groups groups' : MatchGroups}, Pattern.groupedAll ps = true → args.length = ps.length → GroupsOk classes groups →
    Pattern.matchesAll classes ps args groups = .ok (some groups') → MatchedAll classes ps args groups groups'
  | [], args, groups, groups', _, hlen, hok, h => by
    rw [Pattern.matchesAll] at h
    cases h
    refine ⟨GroupsLe.refl _, hok, fun g hg => ?_, fun ν _ => ?_⟩
    · rw [allGroups] at hg
      cases hg
    · rw [FitsAll]
      exact List.length_eq_zero_iff.mp hlen
  | p :: ps, [], groups, groups', hg, hlen, hok, h => by cases hlen
  | p :: ps, a :: as, groups, groups', hg, hlen, hok, h => by
    rw [Pattern.matchesAll] at h
    rw [Pattern.groupedAll, Bool.and_eq_true] at hg
    cases ha : classes[a]? with
    | none =>
      rw [ha] at h
      cases h
    | some e =>
      rw [ha] at h
      dsimp only at h
      rw [bind_eq_ok] at h
      obtain ⟨m, hm, h⟩ := h
      cases m with
      | none => cases h
      | some groups₁ =>
        have hfirst := matched_of_matches p hg.1 (fun _ => List.mem_of_getElem? ha) hok hm
        have hrest := matchedAll_of_matchesAll ps hg.2 (Nat.succ.inj hlen) hfirst.ok h
        refine ⟨hfirst.le.trans hrest.le, hrest.ok, fun g hg' => ?_, fun ν hν => ?_⟩
        · rw [allGroups] at hg'
          rcases List.mem_append.mp hg' with hg' | hg'
          · obtain ⟨e', he'⟩ := hfirst.found g hg'
            exact ⟨e', hrest.le g e' he'⟩
          · exact hrest.found g hg'
        · rw [FitsAll]
          exact ⟨a, as, e, rfl, ha, hfirst.fits ν (hν.of_le hrest.le), hrest.fits ν hν⟩

end

theorem length_of_fitsAll {classes : List Expression} {ν : Nat → Id} : ∀ (ps : List Pattern) {args : List Id},
    FitsAll classes ν ps args → args.length = ps.length
  | [], args, h => by
    rw [FitsAll] at h
    rw [h]
    rfl
  | p :: ps, args, h => by
    rw [FitsAll] at h
    obtain ⟨a, as, e, rfl, _, _, hrest⟩ := h
    rw [List.length_cons, List.length_cons, length_of_fitsAll ps hrest]

/-- The group of a pattern can be set if the assignment says so. -/
theorem setGroup_of_agrees {ν : Nat → Id} {g : Nat} {expr : Expression} {groups : MatchGroups} (hν : Agrees ν groups)
    (hg : g ≠ 0 → ν g = expr.id) : ∃ groups', setGroup g expr groups = some groups' ∧ Agrees ν groups' := by
  have hset : ∃ groups', setGroup g expr groups = some groups' := by
    rw [setGroup]
    by_cases hg0 : g = 0
    · exact ⟨groups, if_pos hg0⟩
    · rw [if_neg hg0]
      cases hfind : groups.find g with
      | none => exact ⟨_, rfl⟩
      | some e => exact ⟨groups, if_neg (not_not.mpr ((hν g e hfind).symm.trans (hg hg0)))⟩
  obtain ⟨groups', hset⟩ := hset
  refine ⟨groups', hset, fun g' e he => ?_⟩
  rcases (setGroup_spec hset).2.2 g' e he with he | ⟨rfl, hne, rfl⟩
  · exact hν g' e he
  · exact hg hne

mutual

/-- An expression that fits the pattern is matched. -/
theorem matches_of_fits {classes : List Expression} {ν : Nat → Id} : ∀ (p : Pattern) {expr : Expression} {groups : MatchGroups},
    p.Fits classes ν expr → Agrees ν groups → ∃ groups', p.matches classes expr groups = .ok (some groups') ∧ Agrees ν groups'
  | ⟨type, requireDataMatch, data, byte, arguments, g⟩, expr, groups, hfits, hν => by
    rw [Fits] at hfits
    obtain ⟨hbase, hgroup, hall⟩ := hfits
    obtain ⟨groups₁, hset, hν₁⟩ := setGroup_of_agrees hν hgroup
    rw [matches_eq, if_neg (by rw [hbase]; exact Bool.false_ne_true), hset]
    dsimp only
    by_cases hnil : arguments = []
    · subst hnil
      rw [if_neg (fun h => h.1 rfl), matchesAll]
      exact ⟨groups₁, rfl, hν₁⟩
    · rw [if_neg (fun h => h.2 (length_of_fitsAll arguments (hall hnil)))]
      exact matchesAll_of_fitsAll arguments (hall hnil) hν₁

theorem matchesAll_of_fitsAll {classes : List Expression} {ν : Nat → Id} : ∀ (ps : List Pattern) {args : List Id}
    {groups : MatchGroups}, FitsAll classes ν ps args → Agrees ν groups →
    ∃ groups', matchesAll classes ps args groups = .ok (some groups') ∧ Agrees ν groups'
  | [], args, groups, _, hν => by
    rw [matchesAll]
    exact ⟨groups, rfl, hν⟩
  | p :: ps, args, groups, hfits, hν => by
    rw [FitsAll] at hfits
    obtain ⟨a, as, e, rfl, ha, hfirst, hrest⟩ := hfits
    obtain ⟨groups₁, hm, hν₁⟩ := matches_of_fits p hfirst hν
    rw [matchesAll, ha]
    dsimp only
    rw [hm, ok_bind]
    exact matchesAll_of_fitsAll ps hrest hν₁

end

/-! ## Matching does not fail -/

/-- An instruction of the rules has as many arguments as it takes, and these are classes. -/
structure Formed (n : Nat) (e : Expression) : Prop where
  arity : ∀ k, e.item.arity = some k → e.arguments.length = k
  below : ∀ a ∈ e.arguments, a < n

mutual

/-- The arguments of a pattern are as many as its instruction takes. -/
def formed : Pattern → Bool
  | ⟨type, requireDataMatch, data, byte, arguments, g⟩ =>
    (arguments = [] ∨ type ≠ .UndefinedItem ∧ requireDataMatch = true ∧
      (toAssemblyItem ⟨type, requireDataMatch, data, byte, arguments, g⟩).arity = some arguments.length) && formedAll arguments

def formedAll : List Pattern → Bool
  | [] => true
  | p :: ps => p.formed && formedAll ps

end

mutual

theorem matches_total {classes : List Expression} (hc : ∀ e ∈ classes, Formed classes.length e) : ∀ (p : Pattern) {expr : Expression}
    (groups : MatchGroups), p.formed = true → Formed classes.length expr → ∃ r, p.matches classes expr groups = .ok r
  | ⟨type, requireDataMatch, data, byte, arguments, g⟩, expr, groups, hp, he => by
    rw [formed, Bool.and_eq_true, decide_eq_true_eq] at hp
    rw [matches_eq]
    by_cases hbase : matchesBaseItem ⟨type, requireDataMatch, data, byte, arguments, g⟩ expr.item = true
    case neg =>
      rw [if_pos (by rw [Bool.not_eq_true] at hbase; rw [hbase]; rfl)]
      exact ⟨none, rfl⟩
    rw [if_neg (by rw [hbase]; exact Bool.false_ne_true)]
    cases hset : setGroup g expr groups with
    | none => exact ⟨none, rfl⟩
    | some groups₁ =>
      dsimp only
      by_cases hnil : arguments = []
      · subst hnil
        rw [if_neg (fun h => h.1 rfl), matchesAll]
        exact ⟨some groups₁, rfl⟩
      · obtain ⟨htype, hdata, harity⟩ := hp.1.resolve_left hnil
        have hitem : toAssemblyItem ⟨type, requireDataMatch, data, byte, arguments, g⟩ = expr.item := by
          obtain ⟨ht, hd⟩ := (matchesBaseItem_iff.mp hbase).resolve_left htype
          exact AssemblyItem.eq_of ht (hd hdata)
        rw [hitem] at harity
        have hlength := he.arity _ harity
        rw [if_neg (fun h => h.2 hlength)]
        exact matchesAll_total hc arguments groups₁ hp.2 hlength he.below

theorem matchesAll_total {classes : List Expression} (hc : ∀ e ∈ classes, Formed classes.length e) : ∀ (ps : List Pattern)
    {args : List Id} (groups : MatchGroups), formedAll ps = true → args.length = ps.length → (∀ a ∈ args, a < classes.length) →
    ∃ r, matchesAll classes ps args groups = .ok r
  | [], args, groups, _, _, _ => by
    rw [matchesAll]
    exact ⟨some groups, rfl⟩
  | p :: ps, [], groups, _, hlen, _ => by cases hlen
  | p :: ps, a :: as, groups, hp, hlen, hargs => by
    rw [formedAll, Bool.and_eq_true] at hp
    have ha : a < classes.length := hargs a List.mem_cons_self
    rw [matchesAll, List.getElem?_eq_getElem ha]
    dsimp only
    obtain ⟨r, hr⟩ := matches_total hc p groups hp.1 (hc _ (List.getElem_mem ha))
    rw [hr, ok_bind]
    cases r with
    | none => exact ⟨none, rfl⟩
    | some groups₁ =>
      exact matchesAll_total hc ps groups₁ hp.2 (Nat.succ.inj hlen) fun b hb => hargs b (List.mem_cons_of_mem _ hb)

end

/-! ## Matching with more classes -/

mutual

theorem matches_append {classes : List Expression} (classes' : List Expression) : ∀ (p : Pattern) {expr : Expression}
    {groups : MatchGroups} {r : Option MatchGroups}, p.matches classes expr groups = .ok r →
    p.matches (classes ++ classes') expr groups = .ok r
  | ⟨type, requireDataMatch, data, byte, arguments, g⟩, expr, groups, r, h => by
    rw [matches_eq] at h ⊢
    by_cases hbase : matchesBaseItem ⟨type, requireDataMatch, data, byte, arguments, g⟩ expr.item = true
    case neg =>
      rw [if_pos (by rw [Bool.not_eq_true] at hbase; rw [hbase]; rfl)] at h ⊢
      exact h
    rw [if_neg (by rw [hbase]; exact Bool.false_ne_true)] at h ⊢
    cases hset : setGroup g expr groups with
    | none =>
      rw [hset] at h
      exact h
    | some groups₁ =>
      rw [hset] at h
      dsimp only at h ⊢
      by_cases hlen : arguments.length ≠ 0 ∧ expr.arguments.length ≠ arguments.length
      · rw [if_pos hlen] at h
        cases h
      · rw [if_neg hlen] at h ⊢
        exact matchesAll_append classes' arguments h

theorem matchesAll_append {classes : List Expression} (classes' : List Expression) : ∀ (ps : List Pattern) {args : List Id}
    {groups : MatchGroups} {r : Option MatchGroups}, matchesAll classes ps args groups = .ok r →
    matchesAll (classes ++ classes') ps args groups = .ok r
  | [], args, groups, r, h => by
    rw [matchesAll] at h ⊢
    exact h
  | p :: ps, [], groups, r, h => by
    rw [matchesAll] at h
    cases h
  | p :: ps, a :: as, groups, r, h => by
    rw [matchesAll] at h ⊢
    cases ha : classes[a]? with
    | none =>
      rw [ha] at h
      cases h
    | some e =>
      have hlt : a < classes.length := (List.getElem?_eq_some_iff.mp ha).1
      rw [ha] at h
      rw [List.getElem?_append_left hlt, ha]
      dsimp only at h ⊢
      obtain ⟨m, hm, h⟩ := bind_eq_ok.mp h
      rw [matches_append classes' p hm, ok_bind]
      cases m with
      | none => exact h
      | some groups₁ => exact matchesAll_append classes' ps h

end

end Pattern

end Webthree
