import Webthree.Lemmas.ExpressionClasses
import Webthree.Lib.EState
import Mathlib.Data.List.GetD
import Mathlib.Data.List.Permutation

/-!
# What find returns

What stays true of the classes while expressions are found: every expression has the value of its class, whatever the values of the
base classes are.
-/

namespace Webthree

open ExpressionClasses (Id)

namespace ExpressionClasses

open SemanticInformation

/-! ## Rules -/

/-- Every rule but those that compare an instruction with itself preserves what a template means. -/
theorem rules_applicable : ∀ r ∈ Rules.arithmetics.eraseIdx 21 ++ Rules.invariants ++ Rules.doubleNegation ++
    Rules.associativeOperations ++ Rules.subtractions, Applicable r := by
  have hshape : ∀ r ∈ Rules.rules, r.pattern.grouped = true ∧ r.pattern.m_matchGroup = 0 := by decide
  intro r hr
  have hmem : r ∈ Rules.rules := by
    simp only [Rules.rules, List.mem_append] at hr ⊢
    rcases hr with (((hr | hr) | hr) | hr) | hr
    · exact Or.inl (Or.inl (Or.inl (Or.inl (List.mem_of_mem_eraseIdx hr))))
    · exact Or.inl (Or.inl (Or.inl (Or.inr hr)))
    · exact Or.inl (Or.inl (Or.inr hr))
    · exact Or.inl (Or.inr hr)
    · exact Or.inr hr
  refine ⟨?_, (hshape r hmem).1, (hshape r hmem).2⟩
  simp only [List.mem_append] at hr
  rcases hr with (((hr | hr) | hr) | hr) | hr
  · exact Rules.arithmetics_sound r hr
  · exact Rules.invariants_sound r hr
  · exact Rules.doubleNegation_sound r hr
  · exact Rules.associativeOperations_sound r hr
  · exact Rules.subtractions_sound r hr

/-- The second rule for `MULMOD` is never applied. -/
theorem applyRules_rules (classes : List Expression) (expr : Expression) : applyRules classes expr Rules.rules =
    applyRules classes expr (Rules.arithmetics.eraseIdx 21 ++ Rules.invariants ++ Rules.doubleNegation ++
      Rules.associativeOperations ++ Rules.subtractions) := by
  have hshadowed := applyRules_shadowed classes expr (Rules.arithmetics.take 20)
    ⟨.op .MULMOD [Rules.A, Rules.B, Rules.C], fun a b c =>
      .value (if c = 0 then 0 else BitVec.ofNat 256 ((a.toNat * b.toNat) % c.toNat))⟩ (fun a b _ => .value (a * b))
    (Rules.arithmetics.drop 22 ++ Rules.invariants ++ Rules.doubleNegation ++ Rules.associativeOperations ++ Rules.subtractions)
  exact hshadowed

/-- A commutative operation has the same value for its arguments in any order. -/
theorem arith_perm {i : Instruction} {f : U256 → U256 → U256} (hi : operator i = some (.binary f)) (hf : ∀ a b, f a b = f b a)
    {args args' : List U256} (hperm : args.Perm args') : arith i args = arith i args' := by
  have hlength := hperm.length_eq
  rw [arith, arith, hi]
  rcases args with _ | ⟨a, _ | ⟨b, _ | ⟨c, args⟩⟩⟩
  · rw [List.nil_perm.mp hperm]
  · rw [← List.singleton_perm.mp hperm]
  · obtain ⟨a', b', rfl⟩ := List.length_eq_two.mp hlength.symm
    rcases List.pair_perm.mp hperm with h | h
    · rw [h]
    · rw [h]
      exact congrArg some (hf a b)
  · -- of three arguments or more nothing is made
    rcases args' with _ | ⟨a', _ | ⟨b', _ | ⟨c', args'⟩⟩⟩
    · cases hlength
    · cases hlength
    · cases hlength
    · rfl

/-- The value of a commutative instruction does not depend on the order of its arguments. -/
theorem itemValue_perm {item : AssemblyItem} (hc : isCommutativeOperation item = true) {args args' : List U256}
    (hperm : args.Perm args') : itemValue item args = itemValue item args' := by
  rw [isCommutativeOperation] at hc
  by_cases ho : item.type ≠ .Operation
  · rw [if_pos ho] at hc
    cases hc
  rw [if_neg ho] at hc
  rw [itemValue_operation (not_not.mp ho), itemValue_operation (not_not.mp ho)]
  split at hc
  case h_1 h => exact h ▸ arith_perm rfl (fun a b => BitVec.add_comm b a) hperm
  case h_2 h => exact h ▸ arith_perm rfl (fun a b => BitVec.mul_comm b a) hperm
  case h_3 h => exact h ▸ arith_perm rfl (fun a b => by simp only [eq_comm]) hperm
  case h_4 h => exact h ▸ arith_perm rfl (fun a b => BitVec.and_comm a b) hperm
  case h_5 h => exact h ▸ arith_perm rfl (fun a b => BitVec.or_comm a b) hperm
  case h_6 h => exact h ▸ arith_perm rfl (fun a b => BitVec.xor_comm a b) hperm
  case h_7 => cases hc

/-- What an expression is simplified to has its value. -/
theorem simplified_value {classes : List Expression} (hn : Numbered classes) {expr : Expression} {t : ExpressionTemplate}
    (h : simplified classes expr = .ok (some t)) :
    t.Below classes.length ∧ ∀ V, Respects V classes → ∀ v, expr.value V = some v → t.value V = some v := by
  rw [simplified] at h
  by_cases hd : expr.item.type ≠ .Operation ∨ (!isDeterministic expr.item) = true
  · rw [if_pos hd] at h
    cases h
  rw [if_neg hd] at h
  obtain ⟨m, hm, h⟩ := bind_eq_ok.mp h
  cases m with
  | some t' =>
    cases h
    rw [applyRules_rules] at hm
    exact applyRules_value hn rules_applicable hm
  | none =>
    dsimp only at h
    split at h
    case h_1 a b hargs hc =>
      rw [applyRules_rules] at h
      obtain ⟨hbelow, hvalue⟩ := applyRules_value hn rules_applicable h
      refine ⟨hbelow, fun V hV v hv => hvalue V hV v ?_⟩
      rw [← hv, Expression.value, Expression.value, hargs]
      exact itemValue_perm hc (List.Perm.swap _ _ _)
    case h_2 => cases h

/-! ## The classes -/

/-- The classes stand at their ids, the representatives have classes that were there before, and every expression that was ever
found has the value of its class. -/
structure Consistent (s : ExpressionClasses) : Prop where
  numbered : Numbered s.m_representatives
  before : ∀ e ∈ s.m_representatives, ∀ a ∈ e.arguments, a < e.id
  known : ∀ e ∈ s.m_expressions, e.id < s.m_representatives.length
  value : ∀ e ∈ s.m_expressions, ∀ V, Respects V s.m_representatives → ∀ v, e.value V = some v → V e.id = v

/-- Classes are only added. -/
def Extends (s s' : ExpressionClasses) : Prop := s.m_representatives <+: s'.m_representatives

/-- A table extends itself. -/
theorem Extends.refl (s : ExpressionClasses) : Extends s s := List.prefix_refl _

/-- Extensions of tables compose. -/
theorem Extends.trans {s s' s'' : ExpressionClasses} (h : Extends s s') (h' : Extends s' s'') : Extends s s'' := List.IsPrefix.trans h h'

/-- An extension has at least as many classes. -/
theorem Extends.le {s s' : ExpressionClasses} (h : Extends s s') : s.m_representatives.length ≤ s'.m_representatives.length :=
  List.IsPrefix.length_le h

/-- A valuation that respects the larger table respects the smaller one. -/
theorem Extends.respects {s s' : ExpressionClasses} (h : Extends s s') {V : Id → U256} (hV : Respects V s'.m_representatives) :
    Respects V s.m_representatives := fun e he => hV e (List.IsPrefix.subset h he)

/-- What can be said of a computation on the classes: they stay consistent, classes are only added, and of what is returned `P`
is true. -/
def Keeps {α : Type} (m : M α) (s : ExpressionClasses) (P : α → ExpressionClasses → Prop) : Prop :=
  Runs m s (fun a s' => Consistent s' ∧ Extends s s' ∧ P a s') fun _ s' => Consistent s' ∧ Extends s s'

/-- What two computations keep, they keep one after the other. -/
theorem Keeps.bind {α β : Type} {m : M α} {f : α → M β} {s : ExpressionClasses} {P : α → ExpressionClasses → Prop}
    {Q : β → ExpressionClasses → Prop} (h : Keeps m s P) (hf : ∀ a s', Consistent s' → Extends s s' → P a s' → Keeps (f a) s' Q) :
    Keeps (m >>= f) s Q := by
  rw [Keeps, runs_bind]
  refine Runs.mono h (fun a s' ha => ?_) fun _ _ he => he
  exact Runs.mono (hf a s' ha.1 ha.2.1 ha.2.2) (fun b s'' hb => ⟨hb.1, ha.2.1.trans hb.2.1, hb.2.2⟩)
    fun _ s'' he => ⟨he.1, ha.2.1.trans he.2⟩

/-- To return a value keeps the table. -/
theorem Keeps.pure {α : Type} {a : α} {s : ExpressionClasses} (hs : Consistent s) {P : α → ExpressionClasses → Prop} (h : P a s) :
    Keeps (Pure.pure a) s P := ⟨hs, Extends.refl s, h⟩

/-- The class has the value of the item on the values of the arguments. -/
def Denotes (item : AssemblyItem) (arguments : List Id) (i : Id) (s : ExpressionClasses) : Prop :=
  i < s.m_representatives.length ∧
    ∀ V, Respects V s.m_representatives → ∀ v, itemValue item (arguments.map V) = some v → V i = v

/-- What the rebuilt expressions are found with. -/
def Finds (find : AssemblyItem → List Id → M Id) : Prop := ∀ s item arguments, Consistent s →
  (∀ a ∈ arguments, a < s.m_representatives.length) → Keeps (find item arguments) s (Denotes item arguments)

mutual

/-- What is rebuilt has the value of the template. -/
theorem rebuildExpression_keeps {find : AssemblyItem → List Id → M Id} (hfind : Finds find) : ∀ (t : ExpressionTemplate)
    {s : ExpressionClasses}, Consistent s → t.Below s.m_representatives.length → Keeps (rebuildExpression find t) s fun i s' =>
      i < s'.m_representatives.length ∧ ∀ V, Respects V s'.m_representatives → ∀ v, t.value V = some v → V i = v
  | .id i, s, hs, ht => by
    rw [rebuildExpression]
    refine Keeps.pure hs ⟨ht, fun V _ v hv => ?_⟩
    rw [ExpressionTemplate.value] at hv
    exact Option.some.inj hv
  | .item item arguments, s, hs, ht => by
    rw [rebuildExpression]
    refine (rebuildExpressions_keeps hfind arguments hs ht).bind fun is s₁ hs₁ _ his => ?_
    refine Runs.mono (hfind s₁ item is hs₁ his.1) (fun i s₂ hi => ⟨hi.1, hi.2.1, hi.2.2.1, fun V hV v hv => ?_⟩) fun _ _ he => he
    refine hi.2.2.2 V hV v ?_
    rw [ExpressionTemplate.value] at hv
    by_cases hp : item.type = .Push
    · rw [if_pos hp] at hv
      rw [itemValue_push hp, hv]
    · rw [if_neg hp] at hv
      obtain ⟨vs, hvs, hv⟩ := Option.bind_eq_some_iff.mp hv
      rw [his.2 V (hi.2.1.respects hV) vs hvs, hv]

/-- Rebuilding a list of templates finds ids of the values that the templates have. -/
theorem rebuildExpressions_keeps {find : AssemblyItem → List Id → M Id} (hfind : Finds find) : ∀ (ts : List ExpressionTemplate)
    {s : ExpressionClasses}, Consistent s → ExpressionTemplate.AllBelow s.m_representatives.length ts →
    Keeps (rebuildExpressions find ts) s fun is s' => (∀ i ∈ is, i < s'.m_representatives.length) ∧
      ∀ V, Respects V s'.m_representatives → ∀ vs, ExpressionTemplate.values V ts = some vs → is.map V = vs
  | [], s, hs, _ => by
    rw [rebuildExpressions]
    refine Keeps.pure hs ⟨fun i hi => absurd hi List.not_mem_nil, fun V _ vs hvs => ?_⟩
    rw [ExpressionTemplate.values] at hvs
    exact Option.some.inj hvs
  | t :: ts, s, hs, ht => by
    rw [rebuildExpressions]
    refine (rebuildExpression_keeps hfind t hs ht.1).bind fun i s₁ hs₁ he₁ hi => ?_
    refine (rebuildExpressions_keeps hfind ts hs₁ (ExpressionTemplate.allBelow_mono he₁.le ts ht.2)).bind fun is s₂ hs₂ he₂ his => ?_
    refine Keeps.pure hs₂ ⟨fun j hj => ?_, fun V hV vs hvs => ?_⟩
    · rcases List.mem_cons.mp hj with rfl | hj
      · exact lt_of_lt_of_le hi.1 he₂.le
      · exact his.1 j hj
    · rw [ExpressionTemplate.values] at hvs
      obtain ⟨v, hv, hvs⟩ := Option.bind_eq_some_iff.mp hvs
      obtain ⟨vs', hvs', rfl⟩ := Option.map_eq_some_iff.mp hvs
      rw [List.map_cons, hi.2 V (he₂.respects hV) v hv, his.2 V hV vs' hvs']

end

/-! ## Finding -/

/-- To remember an expression adds no class. -/
@[simp]
theorem insert_representatives (e : Expression) (s : ExpressionClasses) : (insert e s).m_representatives = s.m_representatives := by
  rw [insert]
  by_cases h : s.m_expressions.any e.same = true
  · rw [if_pos h]
  · rw [if_neg h]

/-- An expression that is remembered is the new one or an old one. -/
theorem mem_insert {e e' : Expression} {s : ExpressionClasses} (h : e' ∈ (insert e s).m_expressions) : e' = e ∨ e' ∈ s.m_expressions := by
  rw [insert] at h
  by_cases ha : s.m_expressions.any e.same = true
  · rw [if_pos ha] at h
    exact Or.inr h
  · rw [if_neg ha] at h
    exact List.mem_cons.mp h

/-- To remember an expression keeps the table consistent, when its id has the value of the expression. -/
theorem Consistent.insert {s : ExpressionClasses} (hs : Consistent s) {e : Expression} (hid : e.id < s.m_representatives.length)
    (hvalue : ∀ V, Respects V s.m_representatives → ∀ v, e.value V = some v → V e.id = v) : Consistent (insert e s) := by
  refine ⟨?_, ?_, fun e' he' => ?_, fun e' he' V hV => ?_⟩
  · rw [insert_representatives]
    exact hs.numbered
  · rw [insert_representatives]
    exact hs.before
  · rw [insert_representatives]
    rcases mem_insert he' with rfl | he'
    · exact hid
    · exact hs.known e' he'
  · rw [insert_representatives] at hV
    rcases mem_insert he' with rfl | he'
    · exact hvalue V hV
    · exact hs.value e' he' V hV

/-- A class is added for an expression. -/
def represent (e : Expression) (s : ExpressionClasses) : ExpressionClasses :=
  { s with m_representatives := s.m_representatives ++ [{ e with id := s.m_representatives.length }] }

/-- A new class extends the table. -/
theorem extends_represent (e : Expression) (s : ExpressionClasses) : Extends s (represent e s) := List.prefix_append _ _

/-- A new class is one more. -/
theorem length_represent (e : Expression) (s : ExpressionClasses) :
    (represent e s).m_representatives.length = s.m_representatives.length + 1 := by
  rw [represent, List.length_append, List.length_singleton]

/-- A new class keeps the table consistent, when its arguments are classes. -/
theorem Consistent.represent {s : ExpressionClasses} (hs : Consistent s) {e : Expression}
    (he : ∀ a ∈ e.arguments, a < s.m_representatives.length) : Consistent (represent e s) := by
  refine ⟨fun i e' hi => ?_, fun e' he' a ha => ?_, fun e' he' => ?_, fun e' he' V hV => ?_⟩
  · rw [ExpressionClasses.represent, List.getElem?_append] at hi
    by_cases hlt : i < s.m_representatives.length
    · rw [if_pos hlt] at hi
      exact hs.numbered i e' hi
    · rw [if_neg hlt] at hi
      obtain ⟨h0, hi⟩ := List.getElem?_eq_some_iff.mp hi
      have hzero : i - s.m_representatives.length = 0 := Nat.lt_one_iff.mp h0
      have hlast : i = s.m_representatives.length := by omega
      simp only [hzero, List.getElem_cons_zero] at hi
      rw [hlast, ← hi]
  · rcases List.mem_append.mp he' with he' | he'
    · exact hs.before e' he' a ha
    · rw [List.mem_singleton.mp he'] at ha ⊢
      exact he a ha
  · exact lt_of_lt_of_le (hs.known e' he') (extends_represent e s).le
  · exact hs.value e' he' V ((extends_represent e s).respects hV)

/-- The value of a new class is that of its expression. -/
theorem respects_represent {s : ExpressionClasses} {e : Expression} {V : Id → U256} (hV : Respects V (represent e s).m_representatives) {v : U256}
    (hv : e.value V = some v) : V s.m_representatives.length = v :=
  hV { e with id := s.m_representatives.length } (List.mem_append_right _ List.mem_cons_self) v hv

/-- A computation that does not touch the table ends as its result says. -/
theorem runs_lift {α : Type} (r : Except OptimizerError α) (s : ExpressionClasses) {Q : α → ExpressionClasses → Prop}
    {E : OptimizerError → ExpressionClasses → Prop} : Runs (lift r) s Q E ↔ (∀ a, r = .ok a → Q a s) ∧ ∀ e, r = .error e → E e s := by
  cases r with
  | ok a => simp [lift]
  | error e => simp [lift]

/-- What a rule makes of an expression has the value of that expression. -/
theorem tryToSimplify_keeps {find : AssemblyItem → List Id → M Id} (hfind : Finds find) {e : Expression} {s : ExpressionClasses}
    (hs : Consistent s) : Keeps (tryToSimplify find e) s fun r s' => ∀ i, r = some i → i < s'.m_representatives.length ∧
      ∀ V, Respects V s'.m_representatives → ∀ v, e.value V = some v → V i = v := by
  rw [tryToSimplify, Keeps, runs_bind, runs_get, runs_bind, runs_lift]
  refine ⟨fun r hr => ?_, fun _ _ => ⟨hs, Extends.refl s⟩⟩
  cases r with
  | none => exact ⟨hs, Extends.refl s, fun i hi => by cases hi⟩
  | some t =>
    obtain ⟨hbelow, hvalue⟩ := simplified_value hs.numbered hr
    refine (rebuildExpression_keeps hfind t hs hbelow).bind fun i s' hs' he hi => ?_
    refine Keeps.pure hs' fun j hj => ?_
    cases hj
    exact ⟨hi.1, fun V hV v hv => hi.2 V hV v (hvalue V (he.respects hV) v hv)⟩

/-- The arguments in the order in which they are looked for. -/
def ordered (item : AssemblyItem) (arguments : List Id) : List Id :=
  if isCommutativeOperation item then arguments.insertionSort (· ≤ ·) else arguments

/-- The arguments are only put in another order. -/
theorem ordered_perm (item : AssemblyItem) (arguments : List Id) : (ordered item arguments).Perm arguments := by
  rw [ordered]
  by_cases hc : isCommutativeOperation item = true
  · rw [if_pos hc]
    exact List.perm_insertionSort _ _
  · rw [if_neg hc]

/-- That order does not change the value of the item. -/
theorem itemValue_ordered (item : AssemblyItem) (arguments : List Id) (V : Id → U256) :
    itemValue item ((ordered item arguments).map V) = itemValue item (arguments.map V) := by
  by_cases hc : isCommutativeOperation item = true
  · exact itemValue_perm hc ((ordered_perm item arguments).map V)
  · rw [ordered, if_neg hc]

/-- What is found is the same. -/
theorem found_same {s : ExpressionClasses} {item : AssemblyItem} {exp e : Expression}
    (h : (if isDeterministic item then s.m_expressions.find? exp.same else none) = some e) :
    e ∈ s.m_expressions ∧ exp.item = e.item ∧ exp.arguments = e.arguments := by
  by_cases hd : isDeterministic item = true
  · rw [if_pos hd] at h
    have hsame : exp.same e = true := List.find?_some h
    obtain ⟨hitem, harguments, _⟩ := of_decide_eq_true hsame
    exact ⟨List.mem_of_find?_eq_some h, hitem, harguments⟩
  · rw [if_neg hd] at h
    cases h

/-- `find` keeps the table consistent and returns a class of the value asked for. -/
theorem find_keeps (n : Nat) {s : ExpressionClasses} {item : AssemblyItem} {arguments : List Id} {sequenceNumber : Nat}
    (hs : Consistent s) (hargs : ∀ a ∈ arguments, a < s.m_representatives.length) :
    Keeps (find n item arguments sequenceNumber) s (Denotes item arguments) := by
  induction n generalizing s item arguments sequenceNumber with
  | zero => exact ⟨hs, Extends.refl s⟩
  | succ n ih =>
    have hfinds : Finds fun item arguments => find n item arguments 0 := fun s item arguments hs hargs => ih hs hargs
    have hordered : ∀ a ∈ ordered item arguments, a < s.m_representatives.length :=
      fun a ha => hargs a ((ordered_perm item arguments).mem_iff.mp ha)
    rw [find, ← ordered]
    set exp : Expression := ⟨0, item, ordered item arguments, sequenceNumber⟩ with hexp
    have hvalue : ∀ V, exp.value V = itemValue item (arguments.map V) := fun V => itemValue_ordered item arguments V
    rw [Keeps, runs_bind, runs_get]
    dsimp only
    generalize he : (if isDeterministic item then s.m_expressions.find? exp.same else none) = found
    cases found with
    | some e =>
      obtain ⟨hmem, hitem, harguments⟩ := found_same he
      refine ⟨hs, Extends.refl s, hs.known e hmem, fun V hV v hv => hs.value e hmem V hV v ?_⟩
      rw [Expression.value, ← hitem, ← harguments, ← hv]
      exact hvalue V
    | none =>
      refine (tryToSimplify_keeps hfinds hs).bind fun r s₁ hs₁ he₁ hr => ?_
      rw [Keeps, runs_bind, runs_get]
      split
      case h_1 i hi =>
        obtain ⟨rfl, _⟩ := Option.filter_eq_some_iff.mp hi
        obtain ⟨hlt, hval⟩ := hr i rfl
        have hval' := fun V hV v hv => hval V hV v ((hvalue V).trans hv)
        rw [runs_bind, runs_modify]
        refine ⟨hs₁.insert hlt hval, ?_, ?_, ?_⟩
        · exact List.IsPrefix.trans (Extends.refl s₁) (by rw [insert_representatives])
        · rw [insert_representatives]
          exact hlt
        · rw [insert_representatives]
          exact hval'
      case h_2 =>
        have hrep : Consistent (represent exp s₁) := hs₁.represent fun a ha => lt_of_lt_of_le (hordered a ha) he₁.le
        rw [runs_bind, runs_modify, runs_bind, runs_modify]
        have hlt : s₁.m_representatives.length < (represent exp s₁).m_representatives.length := by
          rw [length_represent]
          omega
        refine ⟨hrep.insert hlt fun V hV v hv => respects_represent hV hv, ?_, ?_, ?_⟩
        · rw [Extends, insert_representatives]
          exact extends_represent exp s₁
        · rw [insert_representatives]
          exact hlt
        · rw [insert_representatives]
          exact fun V hV v hv => respects_represent hV ((hvalue V).trans hv)

/-- A class of its own keeps the table consistent. -/
theorem newClass_keeps {s : ExpressionClasses} (hs : Consistent s) :
    Keeps newClass s fun i s' => i < s'.m_representatives.length := by
  rw [newClass, Keeps, runs_bind, runs_get]
  dsimp only
  rw [runs_bind, runs_modify, runs_bind, runs_modify]
  set exp : Expression := ⟨s.m_representatives.length,
    ⟨.UndefinedItem, (1 <<< 255) + BitVec.ofNat 256 s.m_representatives.length, fun h => by cases h⟩, [], 0⟩ with hexp
  have hrep : Consistent (represent exp s) := hs.represent fun a ha => absurd ha List.not_mem_nil
  have hlt : s.m_representatives.length < (represent exp s).m_representatives.length := by
    rw [length_represent]
    omega
  refine ⟨hrep.insert hlt fun V hV v hv => respects_represent hV hv, ?_, ?_⟩
  · rw [Extends, insert_representatives]
    exact extends_represent exp s
  · rw [insert_representatives]
    exact hlt

/-! ## Values for the classes -/

/-- One more value. -/
def addValue (β : Id → U256) (vs : List U256) (e : Expression) : List U256 :=
  vs ++ [(e.value fun i => vs.getD i 0).getD (β e.id)]

/-- The values of the classes, where those of the base classes are given. -/
def values (β : Id → U256) (classes : List Expression) : List U256 := classes.foldl (addValue β) []

/-- The value of a class. -/
def valueOf (β : Id → U256) (classes : List Expression) (i : Id) : U256 := (values β classes).getD i 0

/-- The values of a longer table extend those of the shorter one. -/
theorem values_concat (β : Id → U256) (classes : List Expression) (e : Expression) :
    values β (classes ++ [e]) = addValue β (values β classes) e := by
  rw [values, List.foldl_append]
  rfl

/-- Every class has a value. -/
theorem length_values (β : Id → U256) (classes : List Expression) : (values β classes).length = classes.length := by
  induction classes using List.reverseRecOn with
  | nil => rfl
  | append_singleton classes e ih =>
    rw [values_concat, addValue, List.length_append, List.length_append, ih]
    rfl

/-- The value of a class does not change when classes are added. -/
theorem valueOf_append (β : Id → U256) (classes classes' : List Expression) {i : Id} (hi : i < classes.length) :
    valueOf β (classes ++ classes') i = valueOf β classes i := by
  induction classes' using List.reverseRecOn with
  | nil => rw [List.append_nil]
  | append_singleton classes' e ih =>
    rw [← ih, ← List.append_assoc, valueOf, values_concat, addValue, List.getD_append]
    · rfl
    · rw [length_values, List.length_append]
      exact lt_of_lt_of_le hi (Nat.le_add_right _ _)

/-- A class keeps its value when the table grows. -/
theorem Extends.valueOf_eq {s s' : ExpressionClasses} (h : Extends s s') (β : Id → U256) {i : Id} (hi : i < s.m_representatives.length) :
    valueOf β s'.m_representatives i = valueOf β s.m_representatives i := by
  obtain ⟨classes, hclasses⟩ := h
  rw [← hclasses, valueOf_append β _ _ hi]

/-- A class has the value of its expression, and the given value if that has none. -/
theorem valueOf_id {β : Id → U256} {classes : List Expression} (hn : Numbered classes)
    (hb : ∀ e ∈ classes, ∀ a ∈ e.arguments, a < e.id) {e : Expression} (he : e ∈ classes) :
    valueOf β classes e.id = (e.value (valueOf β classes)).getD (β e.id) := by
  obtain ⟨i, hi⟩ := List.mem_iff_getElem?.mp he
  obtain ⟨hlt, hget⟩ := List.getElem?_eq_some_iff.mp hi
  have hid : e.id = i := hn i e hi
  -- the classes up to that of the expression decide its value
  have hsplit : classes = classes.take i ++ [e] ++ classes.drop (i + 1) := by
    rw [List.append_assoc, List.singleton_append, ← hget, ← List.drop_eq_getElem_cons hlt, List.take_append_drop]
  have hlength : (classes.take i).length = i := List.length_take_of_le hlt.le
  have harguments : e.arguments.map (valueOf β classes) = e.arguments.map (valueOf β (classes.take i)) := by
    refine List.map_congr_left fun a ha => ?_
    have hlt : a < (classes.take i).length := by
      rw [hlength, ← hid]
      exact hb e he a ha
    rw [hsplit, List.append_assoc, valueOf_append β _ _ hlt, List.take_append_of_le_length hlength.ge, List.take_take, min_self]
  have hvalue : e.value (valueOf β classes) = e.value (valueOf β (classes.take i)) := by
    rw [Expression.value, Expression.value, harguments]
  have hi' : i < (classes.take i ++ [e]).length := by
    rw [List.length_append, hlength]
    exact Nat.lt_succ_self i
  rw [hvalue, hid]
  conv_lhs => rw [hsplit, valueOf_append β _ _ hi']
  rw [valueOf, values_concat, addValue, List.getD_append_right _ _ _ _ (by rw [length_values, hlength]), length_values, hlength, Nat.sub_self,
    hid]
  rfl

/-- The values of a consistent table respect it. -/
theorem Consistent.respects {s : ExpressionClasses} (hs : Consistent s) (β : Id → U256) :
    Respects (valueOf β s.m_representatives) s.m_representatives := by
  intro e he v hv
  rw [valueOf_id hs.numbered hs.before he, hv]
  rfl

end ExpressionClasses

end Webthree
