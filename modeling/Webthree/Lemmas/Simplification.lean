import Webthree.Lemmas.ExpressionValues

/-!
# A few levels are enough

The rules move constants outwards, and no rule applies to the expression of a class. So what a rule makes of an expression is
simplified again a few times at most.
-/

namespace Webthree

open ExpressionClasses (Id)

namespace Pattern

mutual

/-- What an action makes of the classes of the groups. -/
def template (ν : Nat → Id) : Pattern → ExpressionTemplate
  | ⟨type, requireDataMatch, data, byte, arguments, g⟩ =>
    if g ≠ 0 then .id (ν g)
    else .item (toAssemblyItem ⟨type, requireDataMatch, data, byte, arguments, g⟩) (templates ν arguments)

/-- The templates that patterns stand for, under an assignment of the groups. -/
def templates (ν : Nat → Id) : List Pattern → List ExpressionTemplate
  | [] => []
  | p :: ps => p.template ν :: templates ν ps

end

end Pattern

namespace ExpressionTemplate

open Pattern

mutual

/-- A pattern whose groups are matched gives the template of the assignment. -/
theorem ofPattern_eq {ν : Nat → Id} {groups : MatchGroups} (hν : Agrees ν groups) : ∀ (p : Pattern),
    (∀ g ∈ p.groups, ∃ e, groups.find g = some e) → ofPattern groups p = .ok (p.template ν)
  | ⟨type, requireDataMatch, data, byte, arguments, g⟩, hg => by
    rw [Pattern.groups] at hg
    rw [ofPattern, template]
    by_cases hne : g ≠ 0
    · rw [if_pos hne, if_pos hne]
      obtain ⟨e, he⟩ := hg g (List.mem_append_left _ (by rw [if_neg hne]; exact List.mem_singleton_self g))
      rw [he, hν g e he]
      rfl
    · rw [if_neg hne, if_neg hne, ofPatterns_eq hν arguments fun g' hg' => hg g' (List.mem_append_right _ hg')]
      rfl

/-- The same for a list of patterns. -/
theorem ofPatterns_eq {ν : Nat → Id} {groups : MatchGroups} (hν : Agrees ν groups) : ∀ (ps : List Pattern),
    (∀ g ∈ allGroups ps, ∃ e, groups.find g = some e) → ofPatterns groups ps = .ok (templates ν ps)
  | [], _ => by
    rw [ofPatterns, templates]
    rfl
  | p :: ps, hg => by
    rw [allGroups] at hg
    rw [ofPatterns, templates, ofPattern_eq hν p fun g hg' => hg g (List.mem_append_left _ hg'), ok_bind,
      ofPatterns_eq hν ps fun g hg' => hg g (List.mem_append_right _ hg')]
    rfl

end

end ExpressionTemplate

namespace ExpressionClasses

open Pattern SemanticInformation

/-! ## Rules -/

/-- A rule of which the arguments are counted right, the first groups are for constants, and the action has groups of the pattern. -/
structure Rule.Formed (r : Rule) : Prop where
  formed : r.pattern.formed = true
  grouped : r.pattern.grouped = true
  ungrouped : r.pattern.m_matchGroup = 0
  action : ∀ a b c, ∀ g ∈ (r.action a b c).groups, g ∈ r.pattern.groups

/-- What a rule makes of an expression that fits its pattern. -/
def Makes (classes : List Expression) (r : Rule) (e : Expression) (t : ExpressionTemplate) : Prop :=
  ∃ ν a b c, r.pattern.Fits classes ν e ∧ t = (r.action a b c).template ν

/-- Rules never fail: one of them applies, or no expression fits. -/
theorem applyRules_cases {classes : List Expression} (hc : ∀ e ∈ classes, Formed classes.length e) {e : Expression}
    (he : Formed classes.length e) {rules : List Rule} (hrules : ∀ r ∈ rules, Rule.Formed r) :
    (applyRules classes e rules = .ok none ∧ ∀ r ∈ rules, ∀ ν, ¬ r.pattern.Fits classes ν e) ∨
    ∃ t, applyRules classes e rules = .ok (some t) ∧ ∃ r ∈ rules, Makes classes r e t := by
  induction rules with
  | nil => exact Or.inl ⟨rfl, fun r hr => absurd hr List.not_mem_nil⟩
  | cons r rules ih =>
    have hr := hrules r List.mem_cons_self
    obtain ⟨m, hm⟩ := matches_total hc r.pattern [] hr.formed he
    rw [applyRules, hm, ok_bind]
    cases m with
    | none =>
      rcases ih fun r' hr' => hrules r' (List.mem_cons_of_mem _ hr') with ⟨hnone, hfits⟩ | ⟨t, ht, r', hr', hmakes⟩
      · refine Or.inl ⟨hnone, fun r' hr' ν hν => ?_⟩
        rcases List.mem_cons.mp hr' with rfl | hr'
        · have hnil : Agrees ν [] := fun _ _ he => by cases he
          obtain ⟨groups, hgroups, _⟩ := matches_of_fits r'.pattern hν hnil
          rw [hm] at hgroups
          cases hgroups
        · exact hfits r' hr' ν hν
      · exact Or.inr ⟨t, ht, r', List.mem_cons_of_mem _ hr', hmakes⟩
    | some groups =>
      have hmatched := matched_of_matches r.pattern hr.grouped (fun h => absurd hr.ungrouped h) (fun _ _ he => by cases he) hm
      refine Or.inr ⟨_, ?_, r, List.mem_cons_self, idOf groups, groupData groups 1, groupData groups 2, groupData groups 3,
        hmatched.fits _ (idOf_agrees groups), rfl⟩
      dsimp only
      rw [ExpressionTemplate.ofPattern_eq (idOf_agrees groups) _ fun g hg => hmatched.found g (hr.action _ _ _ g hg)]
      rfl

/-- Rules that do not apply do not apply in a longer table. -/
theorem applyRules_append {classes : List Expression} (classes' : List Expression) {e : Expression} {rules : List Rule}
    (h : applyRules classes e rules = .ok none) : applyRules (classes ++ classes') e rules = .ok none := by
  induction rules with
  | nil => rfl
  | cons r rules ih =>
    rw [applyRules] at h ⊢
    obtain ⟨m, hm, h⟩ := bind_eq_ok.mp h
    rw [matches_append classes' r.pattern hm, ok_bind]
    cases m with
    | none => exact ih h
    | some groups =>
      obtain ⟨t, ht, h⟩ := bind_eq_ok.mp h
      cases h

/-! ## What the rules make -/

/-- The arithmetic rules give a constant. -/
theorem arithmetics_actions : ∀ r ∈ Rules.arithmetics, ∃ f : U256 → U256 → U256 → U256, r.action = fun a b c => value (f a b c) := by
  simp only [Rules.arithmetics, List.forall_mem_cons]
  and_intros
  all_goals first | exact ⟨_, rfl⟩ | exact fun _ h => absurd h List.not_mem_nil

/-- The invariant rules give a constant or one of the operands. -/
theorem invariants_actions : ∀ r ∈ Rules.invariants,
    (∃ v, r.action = fun _ _ _ => value v) ∨ r.action = fun _ _ _ => Rules.X := by
  simp only [Rules.invariants, List.forall_mem_cons]
  and_intros
  all_goals first | exact Or.inl ⟨_, rfl⟩ | exact Or.inr trivial | exact fun _ h => absurd h List.not_mem_nil

/-- The rules of double negation give one pattern. -/
theorem doubleNegation_actions : ∀ r ∈ Rules.doubleNegation, ∃ p, r.action = fun _ _ _ => p := by
  simp only [Rules.doubleNegation, List.map_cons, List.map_nil, List.cons_append, List.nil_append, List.forall_mem_cons]
  and_intros
  all_goals first | exact ⟨_, rfl⟩ | exact fun _ h => absurd h List.not_mem_nil

/-- Every rule belongs to one of the five groups. -/
theorem mem_rules {r : Rule} (h : r ∈ Rules.rules) : r ∈ Rules.arithmetics ∨ r ∈ Rules.invariants ∨ r ∈ Rules.doubleNegation ∨
    r ∈ Rules.associativeOperations ∨ r ∈ Rules.subtractions := by
  simp only [Rules.rules, List.mem_append] at h
  tauto

/-- The associative rules are those of five instructions. -/
theorem mem_associativeOperations {r : Rule} (h : r ∈ Rules.associativeOperations) :
    ∃ o f, o ∈ [Instruction.ADD, .MUL, .AND, .OR, .XOR] ∧ r ∈ Rules.associativeOperation o f := by
  obtain ⟨of, hof, hr⟩ := List.mem_flatMap.mp h
  refine ⟨of.1, of.2, ?_, hr⟩
  have hfst := List.mem_map_of_mem (f := Prod.fst) hof
  exact hfst

/-- A constant has no groups. -/
theorem groups_value (v : U256) : (value v).groups = [] := rfl

/-- The groups of an operation are those of its arguments. -/
theorem groups_op (i : Instruction) (args : List Pattern) : (op i args).groups = allGroups args := rfl

/-- The match groups of an action do not depend on the data. -/
theorem action_groups {r : Rule} (h : r ∈ Rules.rules) (a b c : U256) : (r.action a b c).groups = (r.action 0 0 0).groups := by
  rcases mem_rules h with h | h | h | h | h
  · obtain ⟨f, hf⟩ := arithmetics_actions r h
    rw [hf, groups_value, groups_value]
  · rcases invariants_actions r h with ⟨v, hv⟩ | hx
    · rw [hv]
    · rw [hx]
  · obtain ⟨p, hp⟩ := doubleNegation_actions r h
    rw [hp]
  · obtain ⟨o, f, _, h⟩ := mem_associativeOperations h
    simp only [Rules.associativeOperation, List.mem_cons, List.not_mem_nil, or_false] at h
    rcases h with rfl | rfl | rfl | rfl
    all_goals simp only [groups_op, allGroups, groups_value]
  · simp only [Rules.subtractions, List.mem_cons, List.not_mem_nil, or_false] at h
    rcases h with rfl | rfl | rfl | rfl | rfl
    all_goals simp only [groups_op, allGroups, groups_value]

/-- Every rule names only groups that it matches. -/
theorem rules_formed : ∀ r ∈ Rules.rules, Rule.Formed r := by
  have hshape : Rules.rules.all (fun r => r.pattern.formed && r.pattern.grouped && r.pattern.m_matchGroup == 0 &&
    (r.action 0 0 0).groups.all (r.pattern.groups.contains ·)) = true := by decide
  intro r hr
  have h := List.all_eq_true.mp hshape r hr
  simp only [Bool.and_eq_true, beq_iff_eq] at h
  obtain ⟨⟨⟨hformed, hgrouped⟩, hungrouped⟩, hgroups⟩ := h
  refine ⟨hformed, hgrouped, hungrouped, fun a b c g hg => ?_⟩
  rw [action_groups hr] at hg
  exact List.contains_iff_mem.mp (List.all_eq_true.mp hgroups g hg)

/-- The first rule that fits is applied. -/
theorem applyRules_cons {classes : List Expression} (hc : ∀ e ∈ classes, Formed classes.length e) {e : Expression}
    (he : Formed classes.length e) {r : Rule} (hr : Rule.Formed r) {rules : List Rule} {t : ExpressionTemplate}
    (h : applyRules classes e (r :: rules) = .ok (some t)) :
    Makes classes r e t ∨ (∀ ν, ¬ r.pattern.Fits classes ν e) ∧ applyRules classes e rules = .ok (some t) := by
  have hone : ∀ r' ∈ [r], Rule.Formed r' := fun r' hr' => List.mem_singleton.mp hr' ▸ hr
  rcases applyRules_cases hc he hone with ⟨hnone, hfits⟩ | ⟨t', ht', r', hr', hmakes⟩
  · refine Or.inr ⟨hfits r List.mem_cons_self, ?_⟩
    rw [applyRules] at h hnone
    obtain ⟨m, hm, hnone⟩ := bind_eq_ok.mp hnone
    rw [hm, ok_bind] at h
    cases m with
    | none => exact h
    | some groups =>
      obtain ⟨t', ht', hnone⟩ := bind_eq_ok.mp hnone
      cases hnone
  · refine Or.inl ?_
    rw [applyRules] at h ht'
    obtain ⟨m, hm, ht'⟩ := bind_eq_ok.mp ht'
    rw [hm, ok_bind] at h
    cases m with
    | none => cases ht'
    | some groups =>
      rw [h] at ht'
      cases ht'
      rw [List.mem_singleton.mp hr'] at hmakes
      exact hmakes

/-- The rules are tried one after the other. -/
theorem applyRules_append_rules {classes : List Expression} {e : Expression} {rules rules' : List Rule} {t : ExpressionTemplate}
    (h : applyRules classes e (rules ++ rules') = .ok (some t)) :
    applyRules classes e rules = .ok (some t) ∨ applyRules classes e rules' = .ok (some t) := by
  induction rules with
  | nil => exact Or.inr h
  | cons r rules ih =>
    rw [List.cons_append, applyRules] at h
    rw [applyRules]
    obtain ⟨m, hm, h⟩ := bind_eq_ok.mp h
    rw [hm, ok_bind]
    cases m with
    | none => exact ih h
    | some groups => exact Or.inl h

/-! ## Which expressions fit -/

/-- Any expression fits a group, which is its id. -/
theorem fits_anything {classes : List Expression} {ν : Nat → Id} {g : Nat} {e : Expression} :
    (anything (g + 1)).Fits classes ν e ↔ ν (g + 1) = e.id := by
  rw [anything, Fits]
  exact ⟨fun h => h.2.1 (Nat.succ_ne_zero g), fun h => ⟨rfl, fun _ => h, fun hne => absurd rfl hne⟩⟩

/-- A constant fits when it is a push. -/
theorem fits_constant {classes : List Expression} {ν : Nat → Id} {g : Nat} {e : Expression} :
    (constant (g + 1)).Fits classes ν e ↔ e.item.type = .Push ∧ ν (g + 1) = e.id := by
  rw [constant, Fits, matchesBaseItem_iff]
  refine ⟨fun h => ⟨?_, h.2.1 (Nat.succ_ne_zero g)⟩, fun h => ⟨Or.inr ⟨h.1.symm, fun hc => by cases hc⟩, fun _ => h.2, fun hne => absurd rfl hne⟩⟩
  rcases h.1 with hu | ⟨ht, _⟩
  · cases hu
  · exact ht.symm

/-- An operation fits when its instruction and its arguments do. -/
theorem fits_op {classes : List Expression} {ν : Nat → Id} {i : Instruction} {p : Pattern} {ps : List Pattern} {e : Expression} :
    (op i (p :: ps)).Fits classes ν e ↔ e.item = .ofInstruction i ∧ FitsAll classes ν (p :: ps) e.arguments := by
  have hfits : (op i (p :: ps)).Fits classes ν e ↔ (op i (p :: ps)).matchesBaseItem e.item = true ∧ (0 ≠ 0 → ν 0 = e.id) ∧
    (p :: ps ≠ [] → FitsAll classes ν (p :: ps) e.arguments) := Iff.rfl
  rw [hfits, matchesBaseItem_iff]
  refine ⟨fun h => ⟨?_, h.2.2 (List.cons_ne_nil _ _)⟩, fun h => ⟨Or.inr ⟨?_, fun _ => ?_⟩, fun hne => absurd rfl hne, fun _ => h.2⟩⟩
  · rcases h.1 with hu | ⟨ht, hd⟩
    · cases hu
    · exact (AssemblyItem.eq_of ht (hd rfl)).symm
  · rw [h.1]
    rfl
  · rw [h.1]
    rfl

/-- One argument fits one pattern. -/
theorem fitsAll_one {classes : List Expression} {ν : Nat → Id} {p : Pattern} {args : List Id} (h : FitsAll classes ν [p] args) :
    ∃ i e, args = [i] ∧ classes[i]? = some e ∧ p.Fits classes ν e := by
  rw [FitsAll] at h
  obtain ⟨i, is, e, rfl, hi, hp, hrest⟩ := h
  rw [FitsAll] at hrest
  exact ⟨i, e, by rw [hrest], hi, hp⟩

/-- Two arguments fit two patterns one by one. -/
theorem fitsAll_two {classes : List Expression} {ν : Nat → Id} {p q : Pattern} {args : List Id} :
    FitsAll classes ν [p, q] args ↔ ∃ i j e e', args = [i, j] ∧ classes[i]? = some e ∧ classes[j]? = some e' ∧
      p.Fits classes ν e ∧ q.Fits classes ν e' := by
  rw [FitsAll]
  constructor
  · rintro ⟨i, is, e, rfl, hi, hp, hrest⟩
    obtain ⟨j, e', rfl, hj, hq⟩ := fitsAll_one hrest
    exact ⟨i, j, e, e', rfl, hi, hj, hp, hq⟩
  · rintro ⟨i, j, e, e', rfl, hi, hj, hp, hq⟩
    refine ⟨i, [j], e, rfl, hi, hp, ?_⟩
    rw [FitsAll]
    refine ⟨j, [], e', rfl, hj, hq, ?_⟩
    rw [FitsAll]

/-- The class is that of a constant. -/
def IsConst (classes : List Expression) (i : Id) : Prop := ∃ e, classes[i]? = some e ∧ e.item.type = .Push

/-- The class is that of an operation on two classes. -/
def IsOp (classes : List Expression) (o : Instruction) (i x y : Id) : Prop :=
  ∃ e, classes[i]? = some e ∧ e.item = .ofInstruction o ∧ e.arguments = [x, y]

/-- The class is that of an operation on a class and a constant. -/
def Shell (classes : List Expression) (o : Instruction) (i x c : Id) : Prop :=
  IsConst classes c ∧ (IsOp classes o i x c ∨ IsOp classes o i c x)

/-- An operation on anything and a constant, in this order, is outside in the class. -/
theorem fits_right {classes : List Expression} (hn : Numbered classes) {ν : Nat → Id} {o : Instruction} {g g' : Nat} {i : Id} {e : Expression}
    (hi : classes[i]? = some e) : (op o [anything (g + 1), constant (g' + 1)]).Fits classes ν e ↔
      IsOp classes o i (ν (g + 1)) (ν (g' + 1)) ∧ IsConst classes (ν (g' + 1)) ∧ ν (g + 1) < classes.length := by
  rw [fits_op, fitsAll_two]
  constructor
  · rintro ⟨hitem, j, k, ej, ek, hargs, hj, hk, hX, hA⟩
    rw [fits_anything, hn j ej hj] at hX
    rw [fits_constant, hn k ek hk] at hA
    rw [hX, hA.2]
    exact ⟨⟨e, hi, hitem, hargs⟩, ⟨ek, hk, hA.1⟩, (List.getElem?_eq_some_iff.mp hj).1⟩
  · rintro ⟨⟨e', hi', hitem, hargs⟩, ⟨ek, hk, hp⟩, hlt⟩
    rw [hi] at hi'
    cases hi'
    refine ⟨hitem, ν (g + 1), ν (g' + 1), _, ek, hargs, List.getElem?_eq_getElem hlt, hk, ?_, ?_⟩
    · rw [fits_anything, hn _ _ (List.getElem?_eq_getElem hlt)]
    · rw [fits_constant, hn _ _ hk]
      exact ⟨hp, rfl⟩

/-- An operation with its constant in front fits when its operands are that constant and a class. -/
theorem fits_left {classes : List Expression} (hn : Numbered classes) {ν : Nat → Id} {o : Instruction} {g g' : Nat} {i : Id} {e : Expression}
    (hi : classes[i]? = some e) : (op o [constant (g' + 1), anything (g + 1)]).Fits classes ν e ↔
      IsOp classes o i (ν (g' + 1)) (ν (g + 1)) ∧ IsConst classes (ν (g' + 1)) ∧ ν (g + 1) < classes.length := by
  rw [fits_op, fitsAll_two]
  constructor
  · rintro ⟨hitem, j, k, ej, ek, hargs, hj, hk, hA, hX⟩
    rw [fits_anything, hn k ek hk] at hX
    rw [fits_constant, hn j ej hj] at hA
    rw [hX, hA.2]
    exact ⟨⟨e, hi, hitem, hargs⟩, ⟨ej, hj, hA.1⟩, (List.getElem?_eq_some_iff.mp hk).1⟩
  · rintro ⟨⟨e', hi', hitem, hargs⟩, ⟨ek, hk, hp⟩, hlt⟩
    rw [hi] at hi'
    cases hi'
    refine ⟨hitem, ν (g' + 1), ν (g + 1), ek, _, hargs, hk, List.getElem?_eq_getElem hlt, ?_, ?_⟩
    · rw [fits_constant, hn _ _ hk]
      exact ⟨hp, rfl⟩
    · rw [fits_anything, hn _ _ (List.getElem?_eq_getElem hlt)]

/-! ## What the rules make of an expression -/

/-- The item of a constant. -/
def push (v : U256) : AssemblyItem := (value v).toAssemblyItem

/-- The operations that constants are moved out of. -/
def associative : List Instruction := [.ADD, .MUL, .AND, .OR, .XOR]

/-- What the rules make of an expression. -/
inductive Shape (classes : List Expression) (e : Expression) : ExpressionTemplate → Prop
  | id (i : Id) : Shape classes e (.id i)
  | push (v : U256) : Shape classes e (.item (push v) [])
  | fold {o : Instruction} {x y z c : Id} (v : U256) (ho : o ∈ associative) (hitem : e.item = .ofInstruction o)
      (hargs : e.arguments = [x, y]) (hx : Shell classes o x z c) : Shape classes e (.item (.ofInstruction o) [.id z, .item (push v) []])
  | out {o : Instruction} {x y z c : Id} (ho : o ∈ associative) (hitem : e.item = .ofInstruction o) (hargs : e.arguments = [x, y])
      (hx : Shell classes o x z c) (hy : ¬ IsConst classes y) :
      Shape classes e (.item (.ofInstruction o) [.item (.ofInstruction o) [.id z, .id y], .id c])
  | negate {x y : Id} (v : U256) (hitem : e.item = .ofInstruction .SUB) (hargs : e.arguments = [x, y]) (hy : IsConst classes y) :
      Shape classes e (.item (.ofInstruction .ADD) [.id x, .item (push v) []])
  | left {x y z c : Id} (hitem : e.item = .ofInstruction .SUB) (hargs : e.arguments = [x, y]) (hx : Shell classes .ADD x z c) :
      Shape classes e (.item (.ofInstruction .ADD) [.item (.ofInstruction .SUB) [.id z, .id y], .id c])
  | right {x y z c : Id} (v : U256) (hitem : e.item = .ofInstruction .SUB) (hargs : e.arguments = [x, y])
      (hy : Shell classes .ADD y z c) :
      Shape classes e (.item (.ofInstruction .ADD) [.item (.ofInstruction .SUB) [.id x, .id z], .item (push v) []])
  | known {e' : Expression} (hitem : e.item = .ofInstruction .ISZERO) (he' : e' ∈ classes) :
      Shape classes e (.item e'.item (e'.arguments.map .id))

variable {classes : List Expression}

/-- An arithmetic rule makes a constant. -/
theorem arithmetics_shape {r : Rule} (hr : r ∈ Rules.arithmetics) {e : Expression} {t : ExpressionTemplate} (h : Makes classes r e t) :
    Shape classes e t := by
  obtain ⟨ν, a, b, c, _, rfl⟩ := h
  obtain ⟨f, hf⟩ := arithmetics_actions r hr
  rw [hf]
  exact Shape.push _

/-- An invariant rule makes a constant or one of the operands. -/
theorem invariants_shape {r : Rule} (hr : r ∈ Rules.invariants) {e : Expression} {t : ExpressionTemplate} (h : Makes classes r e t) :
    Shape classes e t := by
  obtain ⟨ν, a, b, c, _, rfl⟩ := h
  rcases invariants_actions r hr with ⟨v, hv⟩ | hx
  · rw [hv]
    exact Shape.push v
  · rw [hx]
    exact Shape.id _

/-- What fits a negation has an argument that fits the pattern of that. -/
theorem fits_unary {ν : Nat → Id} {i : Instruction} {p : Pattern} {e : Expression} (h : (op i [p]).Fits classes ν e) :
    e.item = .ofInstruction i ∧ ∃ e' ∈ classes, p.Fits classes ν e' := by
  obtain ⟨hitem, hall⟩ := fits_op.mp h
  obtain ⟨i, e', _, hi, hp⟩ := fitsAll_one hall
  exact ⟨hitem, e', List.mem_of_getElem? hi, hp⟩

/-- A rule of double negation makes an expression that is known. -/
theorem doubleNegation_shape (hn : Numbered classes) {r : Rule} (hr : r ∈ Rules.doubleNegation) {e : Expression} {t : ExpressionTemplate}
    (h : Makes classes r e t) : Shape classes e t := by
  obtain ⟨ν, a, b, c, hfits, rfl⟩ := h
  rcases List.mem_append.mp hr with hr | hr
  · obtain ⟨o, _, rfl⟩ := List.mem_map.mp hr
    obtain ⟨hitem, e₁, _, hfits₁⟩ := fits_unary hfits
    obtain ⟨_, e₂, he₂, hfits₂⟩ := fits_unary hfits₁
    obtain ⟨hitem₂, hall⟩ := fits_op.mp hfits₂
    obtain ⟨i, j, ei, ej, hargs, hi, hj, hX, hY⟩ := fitsAll_two.mp hall
    have hx : ν 4 = i := (fits_anything.mp hX).trans (hn i ei hi)
    have hy : ν 5 = j := (fits_anything.mp hY).trans (hn j ej hj)
    have hknown := Shape.known hitem he₂
    rw [hitem₂, hargs, ← hx, ← hy] at hknown
    exact hknown
  · cases List.mem_singleton.mp hr
    obtain ⟨hitem, e₁, _, hfits₁⟩ := fits_unary hfits
    obtain ⟨_, e₂, he₂, hfits₂⟩ := fits_unary hfits₁
    obtain ⟨hitem₂, hall⟩ := fits_op.mp hfits₂
    obtain ⟨i, ei, hargs, hi, hX⟩ := fitsAll_one hall
    have hx : ν 4 = i := (fits_anything.mp hX).trans (hn i ei hi)
    have hknown := Shape.known hitem he₂
    rw [hitem₂, hargs, ← hx] at hknown
    exact hknown

/-- The classes that an expression with two arguments has fit the patterns. -/
theorem fits_binary {ν : Nat → Id} {o : Instruction} {p q : Pattern} {e : Expression} :
    (op o [p, q]).Fits classes ν e ↔ e.item = .ofInstruction o ∧ ∃ i j ei ej, e.arguments = [i, j] ∧ classes[i]? = some ei ∧
      classes[j]? = some ej ∧ p.Fits classes ν ei ∧ q.Fits classes ν ej := by
  rw [fits_op, fitsAll_two]

/-- An associative rule folds two constants, or moves one out. -/
theorem associative_shape (hn : Numbered classes) (hc : ∀ e ∈ classes, Formed classes.length e) {e : Expression}
    (he : Formed classes.length e) {o : Instruction} {f : U256 → U256 → U256} (ho : o ∈ associative)
    (hf : ∀ r ∈ Rules.associativeOperation o f, Rule.Formed r) {t : ExpressionTemplate}
    (h : applyRules classes e (Rules.associativeOperation o f) = .ok (some t)) : Shape classes e t := by
  rw [Rules.associativeOperation] at h hf
  simp only [List.forall_mem_cons] at hf
  obtain ⟨hf₁, hf₂, hf₃, hf₄, _⟩ := hf
  rcases applyRules_cons hc he hf₁ h with ⟨ν, a, b, c, hfits, rfl⟩ | ⟨hno₁, h⟩
  · obtain ⟨hitem, i, j, ei, ej, hargs, hi, hj, hin, hB⟩ := fits_binary.mp hfits
    obtain ⟨hop, hconst, _⟩ := (fits_right hn hi).mp hin
    exact Shape.fold _ ho hitem hargs ⟨hconst, Or.inl hop⟩
  rcases applyRules_cons hc he hf₂ h with ⟨ν, a, b, c, hfits, rfl⟩ | ⟨hno₂, h⟩
  · obtain ⟨hitem, i, j, ei, ej, hargs, hi, hj, hin, hY⟩ := fits_binary.mp hfits
    obtain ⟨hop, hconst, hlt⟩ := (fits_right hn hi).mp hin
    have hy : ν 5 = j := (fits_anything.mp hY).trans (hn j ej hj)
    have hout : ¬ IsConst classes j := by
      rintro ⟨ej', hj', hp⟩
      rw [hj] at hj'
      cases hj'
      -- with a constant, the rule before it fits
      refine hno₁ (fun g => if g = 2 then j else ν g) (fits_binary.mpr ⟨hitem, i, j, ei, ej, hargs, hi, hj, ?_, ?_⟩)
      · exact (fits_right hn hi).mpr ⟨hop, hconst, hlt⟩
      · exact fits_constant.mpr ⟨hp, (hn j ej hj).symm⟩
    have hshape := Shape.out ho hitem hargs ⟨hconst, Or.inl hop⟩ hout
    rw [← hy] at hshape
    exact hshape
  rcases applyRules_cons hc he hf₃ h with ⟨ν, a, b, c, hfits, rfl⟩ | ⟨hno₃, h⟩
  · obtain ⟨hitem, i, j, ei, ej, hargs, hi, hj, hin, hB⟩ := fits_binary.mp hfits
    obtain ⟨hop, hconst, _⟩ := (fits_left hn hi).mp hin
    exact Shape.fold _ ho hitem hargs ⟨hconst, Or.inr hop⟩
  rcases applyRules_cons hc he hf₄ h with ⟨ν, a, b, c, hfits, rfl⟩ | ⟨hno₄, h⟩
  · obtain ⟨hitem, i, j, ei, ej, hargs, hi, hj, hin, hY⟩ := fits_binary.mp hfits
    obtain ⟨hop, hconst, hlt⟩ := (fits_left hn hi).mp hin
    have hy : ν 5 = j := (fits_anything.mp hY).trans (hn j ej hj)
    have hout : ¬ IsConst classes j := by
      rintro ⟨ej', hj', hp⟩
      rw [hj] at hj'
      cases hj'
      refine hno₃ (fun g => if g = 2 then j else ν g) (fits_binary.mpr ⟨hitem, i, j, ei, ej, hargs, hi, hj, ?_, ?_⟩)
      · exact (fits_left hn hi).mpr ⟨hop, hconst, hlt⟩
      · exact fits_constant.mpr ⟨hp, (hn j ej hj).symm⟩
    have hshape := Shape.out ho hitem hargs ⟨hconst, Or.inr hop⟩ hout
    rw [← hy] at hshape
    exact hshape
  cases h

/-- A rule of subtraction makes an addition, with a constant folded or moved out. -/
theorem subtractions_shape (hn : Numbered classes) {r : Rule} (hr : r ∈ Rules.subtractions) {e : Expression} {t : ExpressionTemplate}
    (h : Makes classes r e t) : Shape classes e t := by
  obtain ⟨ν, a, b, c, hfits, rfl⟩ := h
  simp only [Rules.subtractions, List.mem_cons, List.not_mem_nil, or_false] at hr
  rcases hr with rfl | rfl | rfl | rfl | rfl
  · obtain ⟨hitem, i, j, ei, ej, hargs, hi, hj, hX, hA⟩ := fits_binary.mp hfits
    have hx : ν 4 = i := (fits_anything.mp hX).trans (hn i ei hi)
    have hshape := Shape.negate (0 - a) hitem hargs ⟨ej, hj, (fits_constant.mp hA).1⟩
    rw [← hx] at hshape
    exact hshape
  · obtain ⟨hitem, i, j, ei, ej, hargs, hi, hj, hin, hY⟩ := fits_binary.mp hfits
    obtain ⟨hop, hconst, _⟩ := (fits_right hn hi).mp hin
    have hy : ν 5 = j := (fits_anything.mp hY).trans (hn j ej hj)
    have hshape := Shape.left hitem hargs ⟨hconst, Or.inl hop⟩
    rw [← hy] at hshape
    exact hshape
  · obtain ⟨hitem, i, j, ei, ej, hargs, hi, hj, hin, hY⟩ := fits_binary.mp hfits
    obtain ⟨hop, hconst, _⟩ := (fits_left hn hi).mp hin
    have hy : ν 5 = j := (fits_anything.mp hY).trans (hn j ej hj)
    have hshape := Shape.left hitem hargs ⟨hconst, Or.inr hop⟩
    rw [← hy] at hshape
    exact hshape
  · obtain ⟨hitem, i, j, ei, ej, hargs, hi, hj, hX, hin⟩ := fits_binary.mp hfits
    obtain ⟨hop, hconst, _⟩ := (fits_right hn hj).mp hin
    have hx : ν 4 = i := (fits_anything.mp hX).trans (hn i ei hi)
    have hshape := Shape.right (0 - a) hitem hargs ⟨hconst, Or.inl hop⟩
    rw [← hx] at hshape
    exact hshape
  · obtain ⟨hitem, i, j, ei, ej, hargs, hi, hj, hX, hin⟩ := fits_binary.mp hfits
    obtain ⟨hop, hconst, _⟩ := (fits_left hn hj).mp hin
    have hx : ν 4 = i := (fits_anything.mp hX).trans (hn i ei hi)
    have hshape := Shape.right (0 - a) hitem hargs ⟨hconst, Or.inr hop⟩
    rw [← hx] at hshape
    exact hshape

/-- What the rules make of an expression has one of the shapes. -/
theorem applyRules_shape (hn : Numbered classes) (hc : ∀ e ∈ classes, Formed classes.length e) {e : Expression}
    (he : Formed classes.length e) {t : ExpressionTemplate} (h : applyRules classes e Rules.rules = .ok (some t)) :
    Shape classes e t := by
  have hmakes : ∀ rules ⊆ Rules.rules, applyRules classes e rules = .ok (some t) → ∃ r ∈ rules, Makes classes r e t := by
    intro rules hsub h
    rcases applyRules_cases hc he fun r hr => rules_formed r (hsub hr) with ⟨hnone, _⟩ | ⟨t', ht', r, hr, hmakes⟩
    · rw [h] at hnone
      cases hnone
    · rw [h] at ht'
      cases ht'
      exact ⟨r, hr, hmakes⟩
  have hsub : ∀ r, r ∈ Rules.arithmetics ∨ r ∈ Rules.invariants ∨ r ∈ Rules.doubleNegation ∨ r ∈ Rules.associativeOperations ∨
      r ∈ Rules.subtractions → r ∈ Rules.rules := by
    intro r hr
    simp only [Rules.rules, List.mem_append]
    tauto
  rw [Rules.rules] at h
  rcases applyRules_append_rules h with h | h
  swap
  · obtain ⟨r, hr, hr'⟩ := hmakes _ (fun r hr => hsub r (by tauto)) h
    exact subtractions_shape hn hr hr'
  rcases applyRules_append_rules h with h | h
  swap
  · -- the rules for one operation after the other
    have hfamily : ∀ of ∈ ([(.ADD, (· + ·)), (.MUL, (· * ·)), (.AND, (· &&& ·)), (.OR, (· ||| ·)), (.XOR, (· ^^^ ·))] :
        List (Instruction × (U256 → U256 → U256))), of.1 ∈ associative ∧ ∀ r ∈ Rules.associativeOperation of.1 of.2, Rule.Formed r := by
      intro of hof
      refine ⟨List.mem_map_of_mem (f := Prod.fst) hof, fun r hr => rules_formed r (hsub r ?_)⟩
      exact Or.inr (Or.inr (Or.inr (Or.inl (List.mem_flatMap.mpr ⟨of, hof, hr⟩))))
    rw [Rules.associativeOperations] at h
    revert hfamily h
    generalize ([(.ADD, (· + ·)), (.MUL, (· * ·)), (.AND, (· &&& ·)), (.OR, (· ||| ·)), (.XOR, (· ^^^ ·))] :
        List (Instruction × (U256 → U256 → U256))) = families
    intro h hfamily
    induction families with
    | nil => cases h
    | cons of families ih =>
      rw [List.flatMap_cons] at h
      rcases applyRules_append_rules h with h | h
      · obtain ⟨ho, hf⟩ := hfamily of List.mem_cons_self
        exact associative_shape hn hc he ho hf h
      · exact ih h fun of' hof' => hfamily of' (List.mem_cons_of_mem _ hof')
  rcases applyRules_append_rules h with h | h
  swap
  · obtain ⟨r, hr, hr'⟩ := hmakes _ (fun r hr => hsub r (by tauto)) h
    exact doubleNegation_shape hn hr hr'
  rcases applyRules_append_rules h with h | h
  · obtain ⟨r, hr, hr'⟩ := hmakes _ (fun r hr => hsub r (by tauto)) h
    exact arithmetics_shape hr hr'
  · obtain ⟨r, hr, hr'⟩ := hmakes _ (fun r hr => hsub r (by tauto)) h
    exact invariants_shape hr hr'

end ExpressionClasses

end Webthree
