import Webthree.Lemmas.Matching
import Webthree.Lemmas.Rules

/-!
# The classes stand for values

An assignment of values to classes that respects the representatives respects every expression that was ever found, and what `find`
returns has the value of the instruction on the values of the arguments.
-/

namespace Webthree

open ExpressionClasses (Id)

/-- The value of an expression where the classes have values, if its item is a constant or an arithmetic, comparison or bit
instruction. -/
def itemValue (item : AssemblyItem) (args : List U256) : Option U256 :=
  match item.type with
  | .Push => some item.data
  | .Operation => arith item.instruction args
  | _ => none

def Expression.value (V : Id → U256) (e : Expression) : Option U256 := itemValue e.item (e.arguments.map V)

theorem itemValue_push {item : AssemblyItem} (h : item.type = .Push) (args : List U256) : itemValue item args = some item.data := by
  rw [itemValue, h]

theorem itemValue_operation {item : AssemblyItem} (h : item.type = .Operation) (args : List U256) :
    itemValue item args = arith item.instruction args := by
  rw [itemValue, h]

/-- The values of the classes are those of their representatives. -/
def Respects (V : Id → U256) (classes : List Expression) : Prop := ∀ e ∈ classes, ∀ v, e.value V = some v → V e.id = v

/-- The values of the match groups. -/
def Grants (V : Id → U256) (groups : MatchGroups) (ν : Nat → U256) : Prop := ∀ g e, groups.find g = some e → ν g = V e.id

theorem arith_nil (i : Instruction) : arith i [] = none := by
  unfold arith
  cases operator i with
  | none => rfl
  | some o => cases o <;> rfl

theorem toAssemblyItem_eq {p : Pattern} {item : AssemblyItem} (ht : p.m_type = item.type) (hd : p.m_data = item.data) :
    p.toAssemblyItem = item := AssemblyItem.eq_of ht hd

/-! ## Patterns -/

namespace Pattern

mutual

/-- An expression that fits a pattern has its value. -/
theorem value_of_fits {classes : List Expression} (hn : Numbered classes) {V : Id → U256} (hV : Respects V classes) {ν : Nat → Id}
    {w : Nat → U256} : ∀ (p : Pattern) {expr : Expression} {x v : U256}, p.Fits classes ν expr → (∀ g ∈ p.groups, w g = V (ν g)) →
    (∀ v, expr.value V = some v → x = v) → (p.m_matchGroup ≠ 0 → x = V expr.id) → p.denote w = some v → x = v
  | ⟨type, requireDataMatch, data, byte, arguments, g⟩, expr, x, v, hfits, hw, hx, hxid, hv => by
    rw [Fits] at hfits
    obtain ⟨hbase, hgroup, hall⟩ := hfits
    rw [groups] at hw
    rw [denote] at hv
    by_cases hg0 : g = 0
    case neg =>
      rw [if_pos hg0] at hv
      cases hv
      rw [hw g (List.mem_append_left _ (by rw [if_neg hg0]; exact List.mem_singleton_self g)), hgroup hg0]
      exact hxid hg0
    rw [if_neg (not_not.mpr hg0)] at hv
    by_cases hdata : requireDataMatch = false
    · rw [if_pos hdata] at hv
      cases hv
    rw [if_neg hdata] at hv
    have hitem := matchesBaseItem_iff.mp hbase
    by_cases hp : type = .Push
    · rw [if_pos hp] at hv
      cases hv
      rcases hitem with hu | ⟨ht, hd⟩
      · exact absurd (hp.symm.trans hu) (by decide)
      · refine hx _ ?_
        rw [Expression.value, itemValue_push (ht.symm.trans hp)]
        exact congrArg some (hd (Bool.not_eq_false _ ▸ hdata)).symm
    rw [if_neg hp] at hv
    by_cases ho : type = .Operation
    case neg =>
      rw [if_neg ho] at hv
      cases hv
    rw [if_pos ho] at hv
    obtain ⟨vs, hvs, hvalue⟩ := Option.bind_eq_some_iff.mp hv
    rcases hitem with hu | ⟨ht, hd⟩
    · exact absurd (ho.symm.trans hu) (by decide)
    rw [toAssemblyItem_eq ht (hd (Bool.not_eq_false _ ▸ hdata))] at hvalue
    have hnil : arguments ≠ [] := by
      rintro rfl
      rw [denoteAll_nil] at hvs
      cases hvs
      rw [arith_nil] at hvalue
      cases hvalue
    have hargs := values_of_fitsAll hn hV arguments (hall hnil) (fun g' hg' => hw g' (List.mem_append_right _ hg')) hvs
    refine hx v ?_
    rw [Expression.value, itemValue_operation (ht.symm.trans ho), hargs, hvalue]

theorem values_of_fitsAll {classes : List Expression} (hn : Numbered classes) {V : Id → U256} (hV : Respects V classes) {ν : Nat → Id}
    {w : Nat → U256} : ∀ (ps : List Pattern) {args : List Id} {vs : List U256}, FitsAll classes ν ps args →
    (∀ g ∈ allGroups ps, w g = V (ν g)) → denoteAll w ps = some vs → args.map V = vs
  | [], args, vs, hfits, _, hvs => by
    rw [FitsAll] at hfits
    rw [denoteAll_nil] at hvs
    rw [hfits]
    exact Option.some.inj hvs
  | p :: ps, args, vs, hfits, hw, hvs => by
    rw [FitsAll] at hfits
    obtain ⟨a, as, e, rfl, ha, hfirst, hrest⟩ := hfits
    rw [allGroups] at hw
    rw [denoteAll_cons] at hvs
    obtain ⟨v, hv, hvs⟩ := Option.bind_eq_some_iff.mp hvs
    obtain ⟨vs', hvs', rfl⟩ := Option.map_eq_some_iff.mp hvs
    have hid := hn a e ha
    have hvalue : V a = v := value_of_fits hn hV p hfirst (fun g hg => hw g (List.mem_append_left _ hg))
      (fun v hv => hid ▸ hV e (List.mem_of_getElem? ha) v hv) (fun _ => by rw [hid]) hv
    rw [List.map_cons, hvalue, values_of_fitsAll hn hV ps hrest (fun g hg => hw g (List.mem_append_right _ hg)) hvs']

end

end Pattern

/-! ## Templates -/

namespace ExpressionTemplate

mutual

/-- The value of a template where the classes have values. -/
def value (V : Id → U256) : ExpressionTemplate → Option U256
  | .id i => some (V i)
  | .item i arguments =>
    if i.type = .Push then some i.data
    else (values V arguments).bind fun args => itemValue i args

def values (V : Id → U256) : List ExpressionTemplate → Option (List U256)
  | [] => some []
  | t :: ts => (t.value V).bind fun v => (values V ts).map fun vs => v :: vs

end

mutual

/-- The template only has the first classes. -/
def Below (n : Nat) : ExpressionTemplate → Prop
  | .id i => i < n
  | .item _ arguments => AllBelow n arguments

def AllBelow (n : Nat) : List ExpressionTemplate → Prop
  | [] => True
  | t :: ts => t.Below n ∧ AllBelow n ts

end

mutual

theorem below_mono {n m : Nat} (h : n ≤ m) : ∀ t : ExpressionTemplate, t.Below n → t.Below m
  | .id _, ht => lt_of_lt_of_le ht h
  | .item _ arguments, ht => allBelow_mono h arguments ht

theorem allBelow_mono {n m : Nat} (h : n ≤ m) : ∀ ts : List ExpressionTemplate, AllBelow n ts → AllBelow m ts
  | [], _ => trivial
  | t :: ts, ht => ⟨below_mono h t ht.1, allBelow_mono h ts ht.2⟩

end

mutual

theorem value_ofPattern {V : Id → U256} {ν : Nat → U256} {groups : MatchGroups} (hν : Grants V groups ν) : ∀ (p : Pattern)
    {t : ExpressionTemplate} {v : U256}, ofPattern groups p = .ok t → p.denote ν = some v → t.value V = some v
  | ⟨type, requireDataMatch, data, byte, arguments, g⟩, t, v, ht, hv => by
    rw [ofPattern] at ht
    rw [Pattern.denote] at hv
    by_cases hg : g ≠ 0
    · rw [if_pos hg] at ht hv
      cases hv
      cases hfind : groups.find g with
      | none =>
        rw [hfind] at ht
        cases ht
      | some e =>
        rw [hfind] at ht
        cases ht
        rw [value, hν g e hfind]
    · rw [if_neg hg] at ht hv
      obtain ⟨ts, hts, ht⟩ := bind_eq_ok.mp ht
      cases ht
      by_cases hdata : requireDataMatch = false
      · rw [if_pos hdata] at hv
        cases hv
      rw [if_neg hdata] at hv
      rw [value]
      by_cases hp : type = .Push
      · rw [if_pos hp] at hv
        cases hv
        exact if_pos hp
      rw [if_neg hp] at hv
      by_cases ho : type = .Operation
      · rw [if_pos ho] at hv
        obtain ⟨vs, hvs, hv⟩ := Option.bind_eq_some_iff.mp hv
        rw [if_neg (by exact hp), values_ofPatterns hν arguments hts hvs]
        exact (itemValue_operation ho vs).trans hv
      · rw [if_neg ho] at hv
        cases hv

theorem values_ofPatterns {V : Id → U256} {ν : Nat → U256} {groups : MatchGroups} (hν : Grants V groups ν) : ∀ (ps : List Pattern)
    {ts : List ExpressionTemplate} {vs : List U256}, ofPatterns groups ps = .ok ts → Pattern.denoteAll ν ps = some vs →
    values V ts = some vs
  | [], ts, vs, hts, hvs => by
    rw [ofPatterns] at hts
    rw [Pattern.denoteAll_nil] at hvs
    cases hts
    cases hvs
    rw [values]
  | p :: ps, ts, vs, hts, hvs => by
    rw [ofPatterns] at hts
    rw [Pattern.denoteAll_cons] at hvs
    obtain ⟨t, ht, hts⟩ := bind_eq_ok.mp hts
    obtain ⟨ts', hts', hts⟩ := bind_eq_ok.mp hts
    cases hts
    obtain ⟨v, hv, hvs⟩ := Option.bind_eq_some_iff.mp hvs
    obtain ⟨vs', hvs', rfl⟩ := Option.map_eq_some_iff.mp hvs
    rw [values, value_ofPattern hν p ht hv, values_ofPatterns hν ps hts' hvs']
    rfl

end

mutual

theorem below_ofPattern {n : Nat} {groups : MatchGroups} (hn : ∀ g e, groups.find g = some e → e.id < n) : ∀ (p : Pattern)
    {t : ExpressionTemplate}, ofPattern groups p = .ok t → t.Below n
  | ⟨type, requireDataMatch, data, byte, arguments, g⟩, t, ht => by
    rw [ofPattern] at ht
    by_cases hg : g ≠ 0
    · rw [if_pos hg] at ht
      cases hfind : groups.find g with
      | none =>
        rw [hfind] at ht
        cases ht
      | some e =>
        rw [hfind] at ht
        cases ht
        exact hn g e hfind
    · rw [if_neg hg] at ht
      obtain ⟨ts, hts, ht⟩ := bind_eq_ok.mp ht
      cases ht
      exact allBelow_ofPatterns hn arguments hts

theorem allBelow_ofPatterns {n : Nat} {groups : MatchGroups} (hn : ∀ g e, groups.find g = some e → e.id < n) : ∀ (ps : List Pattern)
    {ts : List ExpressionTemplate}, ofPatterns groups ps = .ok ts → AllBelow n ts
  | [], ts, hts => by
    rw [ofPatterns] at hts
    cases hts
    exact trivial
  | p :: ps, ts, hts => by
    rw [ofPatterns] at hts
    obtain ⟨t, ht, hts⟩ := bind_eq_ok.mp hts
    obtain ⟨ts', hts', hts⟩ := bind_eq_ok.mp hts
    cases hts
    exact ⟨below_ofPattern hn p ht, allBelow_ofPatterns hn ps hts'⟩

end

end ExpressionTemplate

/-! ## Rules -/

namespace ExpressionClasses

/-- Rules that can be applied: the first groups of their patterns are for constants, the pattern itself is in none. -/
structure Applicable (r : Rule) : Prop where
  sound : r.Sound
  grouped : r.pattern.grouped = true
  ungrouped : r.pattern.m_matchGroup = 0

/-- What a rule makes of an expression has its value. -/
theorem applyRule {classes : List Expression} (hn : Numbered classes) {r : Rule} (hr : Applicable r) {expr : Expression}
    {groups : MatchGroups} (hmatch : r.pattern.matches classes expr [] = .ok (some groups)) {t : ExpressionTemplate}
    (ht : ExpressionTemplate.ofPattern groups (r.action (groupData groups 1) (groupData groups 2) (groupData groups 3)) = .ok t) :
    t.Below classes.length ∧ ∀ V, Respects V classes → ∀ v, expr.value V = some v → t.value V = some v := by
  have hmatched := Pattern.matched_of_matches r.pattern hr.grouped (fun h => absurd hr.ungrouped h) (fun _ _ he => by cases he) hmatch
  refine ⟨ExpressionTemplate.below_ofPattern (fun g e he => ?_) _ ht, fun V hV v hv => ?_⟩
  · obtain ⟨i, hi⟩ := List.mem_iff_getElem?.mp (hmatched.ok g e he).1
    rw [hn i e hi]
    exact (List.getElem?_eq_some_iff.mp hi).1
  · -- the values of the match groups
    let w : Nat → U256 := fun g => ((groups.find g).map fun e => V e.id).getD 0
    have hw : Grants V groups w := by
      intro g e he
      dsimp only [w]
      rw [he]
      rfl
    -- the action is given the values of the first groups
    have hdata : ∀ g, g ≤ 3 → g ≠ 0 → groupData groups g = w g := by
      intro g hle hne
      dsimp only [w]
      rw [groupData]
      cases he : groups.find g with
      | none => rfl
      | some e =>
        obtain ⟨hmem, hpush⟩ := hmatched.ok g e he
        exact (hV e hmem _ (itemValue_push (hpush hle hne) _)).symm
    rw [hdata 1 (by decide) (by decide), hdata 2 (by decide) (by decide), hdata 3 (by decide) (by decide)] at ht
    obtain ⟨v', hpattern, haction⟩ := hr.sound w
    have hgroups : ∀ g ∈ r.pattern.groups, w g = V (Pattern.idOf groups g) := by
      intro g hg
      obtain ⟨e, he⟩ := hmatched.found g hg
      rw [hw g e he, Pattern.idOf_agrees groups g e he]
    have hvv : v = v' := Pattern.value_of_fits hn hV r.pattern (hmatched.fits _ (Pattern.idOf_agrees groups)) hgroups
      (fun v' hv' => Option.some.inj (hv.symm.trans hv')) (fun h => absurd hr.ungrouped h) hpattern
    rw [hvv]
    exact ExpressionTemplate.value_ofPattern hw _ ht haction

theorem applyRules_value {classes : List Expression} (hn : Numbered classes) {expr : Expression} {rules : List Rule}
    (hrules : ∀ r ∈ rules, Applicable r) {t : ExpressionTemplate} (h : applyRules classes expr rules = .ok (some t)) :
    t.Below classes.length ∧ ∀ V, Respects V classes → ∀ v, expr.value V = some v → t.value V = some v := by
  induction rules with
  | nil => cases h
  | cons r rules ih =>
    rw [applyRules] at h
    obtain ⟨m, hm, h⟩ := bind_eq_ok.mp h
    cases m with
    | none => exact ih (fun r' hr' => hrules r' (List.mem_cons_of_mem _ hr')) h
    | some groups =>
      obtain ⟨t', ht', h⟩ := bind_eq_ok.mp h
      cases h
      exact applyRule hn (hrules r List.mem_cons_self) hm ht'

/-- A rule with the pattern of the rule before it is never applied. -/
theorem applyRules_shadowed (classes : List Expression) (expr : Expression) (rules : List Rule) (r : Rule)
    (action : U256 → U256 → U256 → Pattern) (rules' : List Rule) :
    applyRules classes expr (rules ++ r :: ⟨r.pattern, action⟩ :: rules') = applyRules classes expr (rules ++ r :: rules') := by
  induction rules with
  | nil =>
    rw [List.nil_append, List.nil_append, applyRules, applyRules, applyRules]
    cases hm : r.pattern.matches classes expr [] with
    | error e => rfl
    | ok m =>
      cases m with
      | none => rfl
      | some groups => rfl
  | cons r' rules ih =>
    rw [List.cons_append, List.cons_append, applyRules, applyRules]
    simp only [ih]

end ExpressionClasses

end Webthree
