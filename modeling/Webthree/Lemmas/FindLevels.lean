import Webthree.Lemmas.Simplification

/-!
# Finding returns

The classes that `find` makes are settled: no rule applies to their expressions. From this, level by level, every call returns.
-/

namespace Webthree

open ExpressionClasses (Id)

namespace ExpressionClasses

open Pattern SemanticInformation

/-! ## Simplifying once -/

/-- The orders of the arguments that the rules are tried for. -/
def Turned (e e' : Expression) : Prop :=
  e' = e ∨ isCommutativeOperation e.item = true ∧ ∃ a b, e.arguments = [a, b] ∧ e' = { e with arguments := [b, a] }

/-- An expression stays formed when it is turned. -/
theorem Turned.formed {n : Nat} {e e' : Expression} (h : Turned e e') (he : Formed n e) : Formed n e' := by
  rcases h with rfl | ⟨_, a, b, hargs, rfl⟩
  · exact he
  · refine ⟨fun k hk => ?_, fun c hc => he.below c ?_⟩
    · rw [← he.arity k hk, hargs]
      rfl
    · rw [hargs]
      exact (List.Perm.swap a b []).mem_iff.mp hc

/-- Simplifying never fails: no rule is for the expression, or what is made of it has one of the shapes. -/
theorem simplified_cases {classes : List Expression} (hn : Numbered classes) (hc : ∀ e ∈ classes, Formed classes.length e)
    {e : Expression} (he : Formed classes.length e) :
    (simplified classes e = .ok none ∧ (e.item.type = .Operation → isDeterministic e.item = true →
      ∀ e', Turned e e' → ∀ r ∈ Rules.rules, ∀ ν, ¬ r.pattern.Fits classes ν e')) ∨
    ∃ t, simplified classes e = .ok (some t) ∧ ∃ e', Turned e e' ∧ Shape classes e' t := by
  rw [simplified]
  by_cases hd : e.item.type ≠ .Operation ∨ (!isDeterministic e.item) = true
  · rw [if_pos hd]
    refine Or.inl ⟨rfl, fun ht hdet => ?_⟩
    rcases hd with hd | hd
    · exact absurd ht hd
    · rw [hdet] at hd
      cases hd
  rw [if_neg hd]
  rcases applyRules_cases hc he rules_formed with ⟨hnone, hfits⟩ | ⟨t, ht, _⟩
  case inr =>
    rw [ht, ok_bind]
    exact Or.inr ⟨t, rfl, e, Or.inl rfl, applyRules_shape hn hc he ht⟩
  rw [hnone, ok_bind]
  dsimp only
  split
  case h_1 a b hargs hcomm =>
    have hturned : Turned e { e with arguments := [b, a] } := Or.inr ⟨hcomm, a, b, hargs, rfl⟩
    rcases applyRules_cases hc (hturned.formed he) rules_formed with ⟨hnone', hfits'⟩ | ⟨t, ht, _⟩
    · refine Or.inl ⟨hnone', fun _ _ e' he' => ?_⟩
      rcases he' with rfl | ⟨_, a', b', hargs', rfl⟩
      · exact hfits
      · rw [hargs] at hargs'
        cases hargs'
        exact hfits'
    · exact Or.inr ⟨t, ht, _, hturned, applyRules_shape hn hc (hturned.formed he) ht⟩
  case h_2 hno =>
    refine Or.inl ⟨rfl, fun _ _ e' he' => ?_⟩
    rcases he' with rfl | ⟨hcomm, a, b, hargs, _⟩
    · exact hfits
    · exact absurd hcomm (hno a b hargs)

/-- What is not simplified is not so among more classes either. -/
theorem simplified_append {classes : List Expression} (classes' : List Expression) {e : Expression}
    (h : simplified classes e = .ok none) : simplified (classes ++ classes') e = .ok none := by
  rw [simplified] at h ⊢
  by_cases hd : e.item.type ≠ .Operation ∨ (!isDeterministic e.item) = true
  · rw [if_pos hd]
    rfl
  rw [if_neg hd] at h ⊢
  obtain ⟨m, hm, h⟩ := bind_eq_ok.mp h
  cases m with
  | some t => cases h
  | none =>
    rw [applyRules_append classes' hm, ok_bind]
    dsimp only at h ⊢
    split
    case h_1 a b hargs hcomm =>
      rw [hargs, hcomm] at h
      exact applyRules_append classes' h
    case h_2 => rfl

/-! ## Settled classes -/

/-- The expressions of the classes are counted and ordered right, and cannot be simplified. -/
structure Simple (s : ExpressionClasses) : Prop where
  arity : ∀ e ∈ s.m_representatives, ∀ k, e.item.arity = some k → e.arguments.length = k
  inOrder : ∀ e ∈ s.m_representatives, ordered e.item e.arguments = e.arguments
  simple : ∀ e ∈ s.m_representatives, simplified s.m_representatives { e with id := 0 } = .ok none
  pushes : ∀ e ∈ s.m_expressions, e.item.type = .Push → IsConst s.m_representatives e.id

structure Settled (s : ExpressionClasses) : Prop extends Consistent s, Simple s

/-- In settled classes all expressions are formed. -/
theorem Settled.formed {s : ExpressionClasses} (hs : Settled s) :
    ∀ e ∈ s.m_representatives, Formed s.m_representatives.length e := by
  intro e he
  obtain ⟨i, hi⟩ := List.mem_iff_getElem?.mp he
  have hlt := (List.getElem?_eq_some_iff.mp hi).1
  rw [← hs.numbered i e hi] at hlt
  exact ⟨hs.arity e he, fun a ha => lt_trans (hs.before e he a ha) hlt⟩

/-- There is no constant outside in the class. -/
def Core (classes : List Expression) (o : Instruction) (i : Id) : Prop := ∀ x c, ¬ Shell classes o i x c

/-- A constant is a core. -/
theorem IsConst.core {classes : List Expression} {o : Instruction} {i : Id} (h : IsConst classes i) : Core classes o i := by
  obtain ⟨e, hi, hp⟩ := h
  rintro x c ⟨_, ⟨e', hi', hitem, _⟩ | ⟨e', hi', hitem, _⟩⟩
  all_goals
    rw [hi] at hi'
    cases hi'
    rw [hitem] at hp
    cases hp

theorem associative_rules {o : Instruction} (ho : o ∈ associative) :
    isCommutativeOperation (.ofInstruction o) = true ∧ isDeterministic (.ofInstruction o) = true ∧
      ∃ f, ∀ r ∈ Rules.associativeOperation o f, r ∈ Rules.rules := by
  have hitem : ∀ o ∈ associative, isCommutativeOperation (.ofInstruction o) = true ∧ isDeterministic (.ofInstruction o) = true := by
    decide
  refine ⟨(hitem o ho).1, (hitem o ho).2, ?_⟩
  obtain ⟨of, hof, rfl⟩ := List.mem_map.mp (show o ∈ ([(.ADD, (· + ·)), (.MUL, (· * ·)), (.AND, (· &&& ·)), (.OR, (· ||| ·)),
    (.XOR, (· ^^^ ·))] : List (Instruction × (U256 → U256 → U256))).map Prod.fst from ho)
  refine ⟨of.2, fun r hr => ?_⟩
  have hmem : r ∈ Rules.associativeOperations := List.mem_flatMap.mpr ⟨of, hof, hr⟩
  simp only [Rules.rules, List.mem_append]
  tauto

/-- A rule fits an associative operation on a class that has a constant outside. -/
theorem fits_of_shell {classes : List Expression} (hn : Numbered classes) {o : Instruction} (ho : o ∈ associative) {e : Expression}
    {x y z c : Id} (hitem : e.item = .ofInstruction o) (hargs : e.arguments = [x, y]) (hy : y < classes.length) (hz : z < classes.length)
    (h : Shell classes o x z c) : ∃ r ∈ Rules.rules, ∃ ν, r.pattern.Fits classes ν e := by
  obtain ⟨_, _, f, hrules⟩ := associative_rules ho
  obtain ⟨hconst, hop⟩ := h
  let ν : Nat → Id := fun g => if g = 1 then c else if g = 4 then z else y
  have hey := List.getElem?_eq_getElem hy
  have hY : (anything 5).Fits classes ν classes[y] := fits_anything.mpr (hn y _ hey).symm
  rw [Rules.associativeOperation] at hrules
  rcases hop with hop | hop
  · obtain ⟨ex, hx, hop'⟩ := hop
    refine ⟨_, hrules _ (List.mem_cons_of_mem _ List.mem_cons_self), ν, fits_binary.mpr ⟨hitem, x, y, ex, classes[y], hargs, hx, hey, ?_, hY⟩⟩
    exact (fits_right hn hx).mpr ⟨⟨ex, hx, hop'⟩, hconst, hz⟩
  · obtain ⟨ex, hx, hop'⟩ := hop
    refine ⟨_, hrules _ (List.mem_cons_of_mem _ (List.mem_cons_of_mem _ (List.mem_cons_of_mem _ List.mem_cons_self))), ν,
      fits_binary.mpr ⟨hitem, x, y, ex, classes[y], hargs, hx, hey, ?_, hY⟩⟩
    exact (fits_left hn hx).mpr ⟨⟨ex, hx, hop'⟩, hconst, hz⟩

/-- The class of what a constant is outside of. -/
theorem Shell.lt {classes : List Expression} (hc : ∀ e ∈ classes, Formed classes.length e) {o : Instruction} {i x c : Id}
    (h : Shell classes o i x c) : x < classes.length := by
  obtain ⟨_, ⟨e, hi, _, hargs⟩ | ⟨e, hi, _, hargs⟩⟩ := h
  · exact (hc e (List.mem_of_getElem? hi)).below x (by rw [hargs]; exact List.mem_cons_self)
  · exact (hc e (List.mem_of_getElem? hi)).below x (by rw [hargs]; exact List.mem_cons_of_mem _ List.mem_cons_self)

/-- The expressions of the associative operations have no such arguments. -/
theorem Settled.core {s : ExpressionClasses} (hs : Settled s) {o : Instruction} (ho : o ∈ associative) {i x y : Id}
    (h : IsOp s.m_representatives o i x y) : Core s.m_representatives o x ∧ Core s.m_representatives o y := by
  obtain ⟨e, hi, hitem, hargs⟩ := h
  have he := List.mem_of_getElem? hi
  obtain ⟨hcomm, hdet, _⟩ := associative_rules ho
  have hformed := hs.formed e he
  have hx : x < s.m_representatives.length := hformed.below x (by rw [hargs]; exact List.mem_cons_self)
  have hy : y < s.m_representatives.length := hformed.below y (by rw [hargs]; exact List.mem_cons_of_mem _ List.mem_cons_self)
  -- no rule fits the expression in either order
  have hno : ∀ e', Turned { e with id := 0 } e' → ∀ r ∈ Rules.rules, ∀ ν, ¬ r.pattern.Fits s.m_representatives ν e' := by
    rcases simplified_cases hs.numbered hs.formed (e := { e with id := 0 }) ⟨hformed.arity, hformed.below⟩ with ⟨_, hno⟩ | ⟨t, ht, _⟩
    · exact hno (by rw [hitem]; rfl) (by rw [hitem]; exact hdet)
    · rw [hs.simple e he] at ht
      cases ht
  constructor
  · intro z c hshell
    obtain ⟨r, hr, ν, hfits⟩ := fits_of_shell hs.numbered ho (e := { e with id := 0 }) hitem hargs hy (hshell.lt hs.formed) hshell
    exact hno _ (Or.inl rfl) r hr ν hfits
  · intro z c hshell
    obtain ⟨r, hr, ν, hfits⟩ := fits_of_shell hs.numbered ho (e := { e with id := 0, arguments := [y, x] }) hitem rfl hx
      (hshell.lt hs.formed) hshell
    exact hno _ (Or.inr ⟨by rw [hitem]; exact hcomm, x, y, hargs, rfl⟩) r hr ν hfits

/-! ## Computations that return -/

/-- The computation returns, the classes are settled then and only more, and of what is returned `P` is true. -/
def Returns {α : Type} (m : M α) (s : ExpressionClasses) (P : α → ExpressionClasses → Prop) : Prop :=
  Runs m s (fun a s' => Settled s' ∧ Extends s s' ∧ P a s') fun _ _ => False

theorem Returns.bind {α β : Type} {m : M α} {f : α → M β} {s : ExpressionClasses} {P : α → ExpressionClasses → Prop}
    {Q : β → ExpressionClasses → Prop} (h : Returns m s P)
    (hf : ∀ a s', Settled s' → Extends s s' → P a s' → Returns (f a) s' Q) : Returns (m >>= f) s Q := by
  rw [Returns, runs_bind]
  refine Runs.mono h (fun a s' ha => ?_) fun _ _ he => he
  exact Runs.mono (hf a s' ha.1 ha.2.1 ha.2.2) (fun b s'' hb => ⟨hb.1, ha.2.1.trans hb.2.1, hb.2.2⟩) fun _ _ he => he

theorem Returns.pure {α : Type} {a : α} {s : ExpressionClasses} (hs : Settled s) {P : α → ExpressionClasses → Prop} (h : P a s) :
    Returns (Pure.pure a) s P := ⟨hs, Extends.refl s, h⟩

theorem Returns.mono {α : Type} {m : M α} {s : ExpressionClasses} {P Q : α → ExpressionClasses → Prop} (h : Returns m s P)
    (hPQ : ∀ a s', P a s' → Q a s') : Returns m s Q :=
  Runs.mono h (fun a s' ha => ⟨ha.1, ha.2.1, hPQ a s' ha.2.2⟩) fun _ _ he => he

theorem ordered_ordered (item : AssemblyItem) (arguments : List Id) :
    ordered item (ordered item arguments) = ordered item arguments := by
  rw [ordered, ordered]
  by_cases hc : isCommutativeOperation item = true
  · rw [if_pos hc, if_pos hc]
    exact (List.pairwise_insertionSort _ _).insertionSort_eq
  · rw [if_neg hc, if_neg hc]

theorem IsConst.append {classes : List Expression} {i : Id} (h : IsConst classes i) (classes' : List Expression) :
    IsConst (classes ++ classes') i := by
  obtain ⟨e, hi, hp⟩ := h
  exact ⟨e, by rw [List.getElem?_append_left (List.getElem?_eq_some_iff.mp hi).1, hi], hp⟩

/-- A class that is added for an expression that no rule is for. -/
theorem Simple.represent {s : ExpressionClasses} (hs : Simple s) {item : AssemblyItem} {arguments : List Id} {sequenceNumber : Nat}
    (harity : ∀ k, item.arity = some k → arguments.length = k)
    (hsimple : simplified s.m_representatives ⟨0, item, ordered item arguments, sequenceNumber⟩ = .ok none) :
    Simple (insert ⟨s.m_representatives.length, item, ordered item arguments, sequenceNumber⟩
      (represent ⟨0, item, ordered item arguments, sequenceNumber⟩ s)) := by
  refine ⟨fun e he => ?_, fun e he => ?_, fun e he => ?_, fun e he hp => ?_⟩
  · rw [insert_representatives] at he
    rcases List.mem_append.mp he with he | he
    · exact hs.arity e he
    · rw [List.mem_singleton.mp he]
      exact fun k hk => (ordered_perm item arguments).length_eq.trans (harity k hk)
  · rw [insert_representatives] at he
    rcases List.mem_append.mp he with he | he
    · exact hs.inOrder e he
    · rw [List.mem_singleton.mp he]
      exact ordered_ordered item arguments
  · rw [insert_representatives] at he ⊢
    rcases List.mem_append.mp he with he | he
    · exact simplified_append _ (hs.simple e he)
    · rw [List.mem_singleton.mp he]
      exact simplified_append _ hsimple
  · rw [insert_representatives]
    rcases mem_insert he with rfl | he
    · exact ⟨_, List.getElem?_concat_length, hp⟩
    · exact (hs.pushes e he hp).append _

/-- A call returns if what the rules make of the expression is rebuilt. -/
theorem find_returns {n : Nat} {s : ExpressionClasses} {item : AssemblyItem} {arguments : List Id} {sequenceNumber : Nat}
    (hs : Settled s) (hargs : ∀ a ∈ arguments, a < s.m_representatives.length) (harity : ∀ k, item.arity = some k → arguments.length = k)
    (hrebuild : ∀ t, simplified s.m_representatives ⟨0, item, ordered item arguments, sequenceNumber⟩ = .ok (some t) →
      ∀ e', Turned ⟨0, item, ordered item arguments, sequenceNumber⟩ e' → Shape s.m_representatives e' t →
      Returns (rebuildExpression (fun item arguments => find n item arguments 0) t) s fun _ _ => True) :
    Returns (find (n + 1) item arguments sequenceNumber) s (Denotes item arguments) := by
  have hkeeps : Keeps (find (n + 1) item arguments sequenceNumber) s (Denotes item arguments) := find_keeps _ hs.toConsistent hargs
  suffices hsimple : Runs (find (n + 1) item arguments sequenceNumber) s (fun _ s' => Simple s') fun _ _ => False by
    refine (Runs.and hkeeps hsimple).mono (fun i s' h => ?_) fun _ _ h => h.2
    exact ⟨⟨h.1.1, h.2⟩, h.1.2.1, h.1.2.2⟩
  have hfinds : Finds fun item arguments => find n item arguments 0 := fun s item arguments hs hargs => find_keeps n hs hargs
  have hformed : Formed s.m_representatives.length ⟨0, item, ordered item arguments, sequenceNumber⟩ :=
    ⟨fun k hk => (ordered_perm item arguments).length_eq.trans (harity k hk),
      fun a ha => hargs a ((ordered_perm item arguments).mem_iff.mp ha)⟩
  rw [find, ← ordered, runs_bind, runs_get]
  dsimp only
  generalize (if isDeterministic item then s.m_expressions.find? (Expression.same ⟨0, item, ordered item arguments, sequenceNumber⟩)
    else none) = found
  cases found with
  | some e => exact hs.toSimple
  | none =>
    dsimp only
    rw [runs_bind, tryToSimplify, runs_bind, runs_get, runs_bind, runs_lift]
    rcases simplified_cases hs.numbered hs.formed hformed with ⟨hnone, _⟩ | ⟨t, ht, e', hturned, hshape⟩
    · rw [hnone]
      refine ⟨fun r hr => ?_, fun e he => by cases he⟩
      cases hr
      exact hs.toSimple.represent harity hnone
    · refine ⟨fun r hr => ?_, fun e he => by rw [ht] at he; cases he⟩
      have hsome := hr
      rw [ht] at hr
      cases hr
      have hbelow := (simplified_value hs.numbered ht).1
      rw [runs_bind]
      refine (Runs.and (hrebuild t ht e' hturned hshape) (rebuildExpression_keeps hfinds t hs.toConsistent hbelow)).mono
        (fun i s₁ h => ?_) fun _ _ h => h.1
      obtain ⟨⟨hs₁, _, _⟩, _, _, hi, _⟩ := h
      rw [runs_pure, runs_bind, runs_get]
      rw [Option.filter_some, if_pos (decide_eq_true hi)]
      refine ⟨?_, ?_, ?_, fun e he hp => ?_⟩
      · rw [insert_representatives]
        exact hs₁.arity
      · rw [insert_representatives]
        exact hs₁.inOrder
      · rw [insert_representatives]
        exact hs₁.simple
      · rw [insert_representatives]
        rcases mem_insert he with rfl | he
        · -- no rule is for a constant
          rw [simplified, if_pos (Or.inl (by rw [hp]; decide))] at hsome
          cases hsome
        · exact hs₁.pushes e he hp

/-! ## Rebuilding -/

/-- There is such a class. -/
def Below (i : Id) (s : ExpressionClasses) : Prop := i < s.m_representatives.length

theorem returns_id {find : AssemblyItem → List Id → M Id} {s : ExpressionClasses} (hs : Settled s) (i : Id) :
    Returns (rebuildExpression find (.id i)) s fun j _ => j = i := by
  rw [rebuildExpression]
  exact Returns.pure hs rfl

theorem rebuildExpressions_ids (find : AssemblyItem → List Id → M Id) (is : List Id) :
    rebuildExpressions find (is.map .id) = pure is := by
  induction is with
  | nil =>
    rw [List.map_nil, rebuildExpressions]
  | cons i is ih =>
    rw [List.map_cons, rebuildExpressions, rebuildExpression, ih]
    rfl

/-- Of classes, the item is found. -/
theorem rebuild_ids (find : AssemblyItem → List Id → M Id) (item : AssemblyItem) (is : List Id) :
    rebuildExpression find (.item item (is.map .id)) = find item is := by
  rw [rebuildExpression, rebuildExpressions_ids]
  rfl

/-- The arguments are rebuilt one after the other. -/
theorem returns_binary {find : AssemblyItem → List Id → M Id} {s : ExpressionClasses} {item : AssemblyItem} {t t' : ExpressionTemplate}
    {P : Id → ExpressionClasses → Prop} {Q : Id → Id → ExpressionClasses → Prop} {R : Id → ExpressionClasses → Prop}
    (ht : Returns (rebuildExpression find t) s P)
    (ht' : ∀ i s₁, Settled s₁ → Extends s s₁ → P i s₁ → Returns (rebuildExpression find t') s₁ (Q i))
    (hfind : ∀ i j s₁, Settled s₁ → Extends s s₁ → Q i j s₁ → Returns (find item [i, j]) s₁ R) :
    Returns (rebuildExpression find (.item item [t, t'])) s R := by
  have hargs : Returns (rebuildExpressions find [t, t']) s fun is s₁ => ∃ i j, is = [i, j] ∧ Q i j s₁ := by
    rw [rebuildExpressions]
    refine ht.bind fun i s₁ hs₁ he₁ hi => ?_
    rw [rebuildExpressions, rebuildExpressions]
    refine Returns.bind (P := fun is s₂ => ∃ j, is = [j] ∧ Q i j s₂) ?_ fun is s₂ hs₂ he₂ his => ?_
    · refine (ht' i s₁ hs₁ he₁ hi).bind fun j s₂ hs₂ he₂ hj => ?_
      exact Returns.pure hs₂ ⟨j, rfl, hj⟩
    · obtain ⟨j, rfl, hj⟩ := his
      exact Returns.pure hs₂ ⟨i, j, rfl, hj⟩
  rw [rebuildExpression]
  refine hargs.bind fun is s₁ hs₁ he₁ his => ?_
  obtain ⟨i, j, rfl, hQ⟩ := his
  exact hfind i j s₁ hs₁ he₁ hQ

/-- No rule is for a constant. -/
theorem find_push_returns {n : Nat} {s : ExpressionClasses} (hs : Settled s) {item : AssemblyItem} (hp : item.type = .Push)
    {arguments : List Id} (hargs : ∀ a ∈ arguments, a < s.m_representatives.length) {sequenceNumber : Nat} :
    Returns (find (n + 1) item arguments sequenceNumber) s fun j s' => Below j s' ∧ IsConst s'.m_representatives j := by
  have hkeeps : Keeps (find (n + 1) item arguments sequenceNumber) s (Denotes item arguments) := find_keeps _ hs.toConsistent hargs
  suffices hsimple : Runs (find (n + 1) item arguments sequenceNumber) s (fun j s' => Simple s' ∧ IsConst s'.m_representatives j)
      fun _ _ => False by
    refine (Runs.and hkeeps hsimple).mono (fun i s' h => ?_) fun _ _ h => h.2
    exact ⟨⟨h.1.1, h.2.1⟩, h.1.2.1, h.1.2.2.1, h.2.2⟩
  have hsimple : simplified s.m_representatives ⟨0, item, ordered item arguments, sequenceNumber⟩ = .ok none := by
    rw [simplified, if_pos (Or.inl (by rw [hp]; decide))]
    rfl
  rw [find, ← ordered, runs_bind, runs_get]
  dsimp only
  generalize he : (if isDeterministic item then
    s.m_expressions.find? (Expression.same ⟨0, item, ordered item arguments, sequenceNumber⟩) else none) = found
  cases found with
  | some e =>
    obtain ⟨hmem, hsame⟩ := found_same he
    exact ⟨hs.toSimple, hs.pushes e hmem (by rw [← hsame.1]; exact hp)⟩
  | none =>
    dsimp only
    rw [runs_bind, tryToSimplify, runs_bind, runs_get, runs_bind, runs_lift, hsimple]
    refine ⟨fun r hr => ?_, fun e he => by cases he⟩
    cases hr
    refine ⟨hs.toSimple.represent (fun k hk => ?_) hsimple, ?_⟩
    · rw [AssemblyItem.arity, if_neg (by rw [hp]; decide)] at hk
      cases hk
    · rw [insert_representatives]
      exact ⟨_, List.getElem?_concat_length, hp⟩

theorem push_returns {n : Nat} {s : ExpressionClasses} (hs : Settled s) (v : U256) :
    Returns (rebuildExpression (fun item arguments => find (n + 1) item arguments 0) (.item (push v) [])) s fun j s' =>
      Below j s' ∧ IsConst s'.m_representatives j := by
  rw [rebuildExpression, rebuildExpressions]
  exact find_push_returns hs rfl fun a ha => absurd ha List.not_mem_nil

/-! ## Levels -/

theorem Extends.getElem? {s s' : ExpressionClasses} (h : Extends s s') {i : Id} (hi : i < s.m_representatives.length) :
    s'.m_representatives[i]? = s.m_representatives[i]? := by
  obtain ⟨classes, hclasses⟩ := h
  rw [← hclasses, List.getElem?_append_left hi]

theorem Extends.isConst {s s' : ExpressionClasses} (h : Extends s s') {i : Id} (hi : i < s.m_representatives.length) :
    IsConst s'.m_representatives i ↔ IsConst s.m_representatives i := by
  rw [IsConst, IsConst, h.getElem? hi]

/-- A class keeps having no constant outside. -/
theorem Core.extends {s s' : ExpressionClasses} (hs : Settled s) (h : Extends s s') {o : Instruction} {i : Id}
    (hi : i < s.m_representatives.length) (hcore : Core s.m_representatives o i) : Core s'.m_representatives o i := by
  rintro x c ⟨hconst, hop⟩
  rw [IsOp, IsOp, h.getElem? hi] at hop
  have hc : c < s.m_representatives.length := by
    rcases hop with ⟨e, he, _, hargs⟩ | ⟨e, he, _, hargs⟩
    · exact (hs.formed e (List.mem_of_getElem? he)).below c (by rw [hargs]; exact List.mem_cons_of_mem _ List.mem_cons_self)
    · exact (hs.formed e (List.mem_of_getElem? he)).below c (by rw [hargs]; exact List.mem_cons_self)
  exact hcore x c ⟨(h.isConst hc).mp hconst, hop⟩

theorem IsConst.lt {classes : List Expression} {i : Id} (h : IsConst classes i) : i < classes.length := by
  obtain ⟨e, hi, _⟩ := h
  exact (List.getElem?_eq_some_iff.mp hi).1

/-- What a constant is outside of has none outside. -/
theorem Settled.shell_core {s : ExpressionClasses} (hs : Settled s) {o : Instruction} (ho : o ∈ associative) {i x c : Id}
    (h : Shell s.m_representatives o i x c) : Core s.m_representatives o x := by
  rcases h.2 with hop | hop
  · exact (hs.core ho hop).1
  · exact (hs.core ho hop).2

/-- One of the two orders of two arguments. -/
def Swap (x y x' y' : Id) : Prop := x' = x ∧ y' = y ∨ x' = y ∧ y' = x

theorem ordered_two (item : AssemblyItem) (x y : Id) :
    ∃ x' y', ordered item [x, y] = [x', y'] ∧ Swap x y x' y' ∧ (isCommutativeOperation item = false → x' = x ∧ y' = y) := by
  have hperm := (ordered_perm item [x, y]).symm
  rcases List.pair_perm.mp hperm with h | h
  · exact ⟨x, y, h, Or.inl ⟨rfl, rfl⟩, fun _ => ⟨rfl, rfl⟩⟩
  · refine ⟨y, x, h, Or.inr ⟨rfl, rfl⟩, fun hc => ?_⟩
    rw [ordered, if_neg (by rw [hc]; exact Bool.false_ne_true)] at h
    cases h
    exact ⟨rfl, rfl⟩

/-- What has two arguments has two when it is turned. -/
theorem turned_two {item : AssemblyItem} {x y : Id} {sequenceNumber : Nat} {e' : Expression}
    (h : Turned ⟨0, item, ordered item [x, y], sequenceNumber⟩ e') : e'.item = item ∧ ∃ x' y', e'.arguments = [x', y'] ∧
      Swap x y x' y' ∧ (isCommutativeOperation item = false → x' = x ∧ y' = y) := by
  obtain ⟨x', y', hordered, hswap, hcomm⟩ := ordered_two item x y
  rcases h with rfl | ⟨hc, a, b, hargs, rfl⟩
  · exact ⟨rfl, x', y', hordered, hswap, hcomm⟩
  · rw [hordered] at hargs
    cases hargs
    refine ⟨rfl, y', x', rfl, ?_, fun hc' => by rw [hc] at hc'; cases hc'⟩
    rcases hswap with ⟨rfl, rfl⟩ | ⟨rfl, rfl⟩
    · exact Or.inr ⟨rfl, rfl⟩
    · exact Or.inl ⟨rfl, rfl⟩

/-- Associative operations are neither differences nor negations, and have two arguments. -/
theorem operation_items : ∀ o ∈ associative, AssemblyItem.ofInstruction o ≠ .ofInstruction .SUB ∧
    AssemblyItem.ofInstruction o ≠ .ofInstruction .ISZERO ∧ (AssemblyItem.ofInstruction o).arity = some 2 ∧
    ∀ o' ∈ associative, AssemblyItem.ofInstruction o = .ofInstruction o' → o' = o := by decide

/-- An expression found with two classes. -/
abbrev findTwo (n : Nat) (o : Instruction) (x y : Id) (sequenceNumber : Nat) : M Id := find n (.ofInstruction o) [x, y] sequenceNumber

/-- What is rebuilt with so many levels. -/
abbrev rebuild (n : Nat) (t : ExpressionTemplate) : M Id := rebuildExpression (fun item arguments => find n item arguments 0) t

/-- Two classes are two. -/
theorem below_two {s : ExpressionClasses} {x y : Id} (hx : Below x s) (hy : Below y s) : ∀ a ∈ [x, y], a < s.m_representatives.length := by
  intro a ha
  simp only [List.mem_cons, List.not_mem_nil, or_false] at ha
  rcases ha with rfl | rfl
  · exact hx
  · exact hy

/-- An associative operation returns if what is made of it when a constant is outside of an argument is rebuilt. -/
theorem associative_find {n : Nat} {s : ExpressionClasses} (hs : Settled s) {o : Instruction} (ho : o ∈ associative) {x y : Id}
    (hx : Below x s) (hy : Below y s) {sequenceNumber : Nat}
    (hfold : ∀ x' y' z c v, Swap x y x' y' → Shell s.m_representatives o x' z c →
      Returns (rebuild (n + 1) (.item (.ofInstruction o) [.id z, .item (push v) []])) s fun _ _ => True)
    (hout : ∀ x' y' z c, Swap x y x' y' → Shell s.m_representatives o x' z c → ¬ IsConst s.m_representatives y' →
      Returns (rebuild (n + 1) (.item (.ofInstruction o) [.item (.ofInstruction o) [.id z, .id y'], .id c])) s fun _ _ => True) :
    Returns (findTwo (n + 2) o x y sequenceNumber) s Below := by
  obtain ⟨hsub, hiszero, harity, hinj⟩ := operation_items o ho
  refine Returns.mono (find_returns hs (below_two hx hy) (fun k hk => ?_) fun t _ e' hturned hshape => ?_) fun i s' h => h.1
  · rw [harity] at hk
    cases hk
    rfl
  obtain ⟨hitem', x', y', hargs', hswap, _⟩ := turned_two hturned
  cases hshape with
  | id i => exact (returns_id hs i).mono fun _ _ _ => trivial
  | push v => exact (push_returns hs v).mono fun _ _ _ => trivial
  | fold v ho' hitem hargs hshell =>
    cases hinj _ ho' (hitem'.symm.trans hitem)
    rw [hargs'] at hargs
    cases hargs
    exact hfold x' y' _ _ v hswap hshell
  | out ho' hitem hargs hshell hconst =>
    cases hinj _ ho' (hitem'.symm.trans hitem)
    rw [hargs'] at hargs
    cases hargs
    exact hout x' y' _ _ hswap hshell hconst
  | negate v hitem => exact absurd (hitem'.symm.trans hitem) hsub
  | left hitem => exact absurd (hitem'.symm.trans hitem) hsub
  | right v hitem => exact absurd (hitem'.symm.trans hitem) hsub
  | known hitem => exact absurd (hitem'.symm.trans hitem) hiszero

/-- With no constants outside of the arguments. -/
theorem core_returns {n : Nat} {s : ExpressionClasses} (hs : Settled s) {o : Instruction} (ho : o ∈ associative) {x y : Id}
    (hx : Below x s) (hy : Below y s) (hcx : Core s.m_representatives o x) (hcy : Core s.m_representatives o y) {sequenceNumber : Nat} :
    Returns (findTwo (n + 2) o x y sequenceNumber) s Below := by
  have hno : ∀ x' y' z c, Swap x y x' y' → ¬ Shell s.m_representatives o x' z c := by
    rintro x' y' z c (⟨rfl, rfl⟩ | ⟨rfl, rfl⟩) hshell
    · exact hcx z c hshell
    · exact hcy z c hshell
  exact associative_find hs ho hx hy (fun x' y' z c _ hswap hshell => absurd hshell (hno x' y' z c hswap))
    fun x' y' z c hswap hshell => absurd hshell (hno x' y' z c hswap)

/-- Two constants outside of a class are one. -/
theorem fold_returns {n : Nat} {s : ExpressionClasses} (hs : Settled s) {o : Instruction} (ho : o ∈ associative) {i z c : Id}
    (h : Shell s.m_representatives o i z c) (v : U256) :
    Returns (rebuild (n + 2) (.item (.ofInstruction o) [.id z, .item (push v) []])) s Below := by
  have hz : Below z s := h.lt hs.formed
  refine returns_binary (Q := fun i j s₁ => i = z ∧ Below j s₁ ∧ IsConst s₁.m_representatives j) (returns_id hs z)
    (fun i s₁ hs₁ _ hi => ?_) fun i j s₁ hs₁ he₁ hij => ?_
  · exact (push_returns hs₁ v).mono fun j s₂ hj => ⟨hi, hj⟩
  · obtain ⟨rfl, hj, hconst⟩ := hij
    exact core_returns hs₁ ho (lt_of_lt_of_le hz he₁.le) hj ((hs.shell_core ho h).extends hs he₁ hz) hconst.core

/-- With a constant as the second argument. -/
theorem constant_returns {n : Nat} {s : ExpressionClasses} (hs : Settled s) {o : Instruction} (ho : o ∈ associative) {x c : Id}
    (hx : Below x s) (hc : IsConst s.m_representatives c) {sequenceNumber : Nat} :
    Returns (findTwo (n + 3) o x c sequenceNumber) s Below := by
  refine associative_find hs ho hx hc.lt (fun x' y' z c' v _ hshell => ?_) fun x' y' z c' hswap hshell hconst => ?_
  · exact (fold_returns hs ho hshell v).mono fun _ _ _ => trivial
  · rcases hswap with ⟨rfl, rfl⟩ | ⟨rfl, rfl⟩
    · exact absurd hc hconst
    · exact absurd hshell (hc.core z c')

/-- A constant is moved outside. -/
theorem out_returns {n : Nat} {s : ExpressionClasses} {o o' : Instruction} (ho : o ∈ associative) {z y c : Id}
    (hc : IsConst s.m_representatives c) (h : Returns (findTwo (n + 3) o' z y 0) s Below) :
    Returns (rebuild (n + 3) (.item (.ofInstruction o) [.item (.ofInstruction o') [.id z, .id y], .id c])) s Below := by
  refine returns_binary (P := Below) (Q := fun i j s₁ => Below i s₁ ∧ j = c) ?_ (fun i s₁ hs₁ _ hi => ?_) fun i j s₁ hs₁ he₁ hij => ?_
  · exact (rebuild_ids _ _ [z, y]).symm ▸ h
  · rw [rebuildExpression]
    exact Returns.pure hs₁ ⟨hi, rfl⟩
  · obtain ⟨hi, rfl⟩ := hij
    exact constant_returns hs₁ ho hi ((he₁.isConst hc.lt).mpr hc)

/-- A new constant is moved outside. -/
theorem outPush_returns {n : Nat} {s : ExpressionClasses} {o o' : Instruction} (ho : o ∈ associative) {z y : Id} (v : U256)
    (h : Returns (findTwo (n + 3) o' z y 0) s Below) :
    Returns (rebuild (n + 3) (.item (.ofInstruction o) [.item (.ofInstruction o') [.id z, .id y], .item (push v) []])) s Below := by
  refine returns_binary (P := Below) (Q := fun i j s₁ => Below i s₁ ∧ IsConst s₁.m_representatives j) ?_ (fun i s₁ hs₁ _ hi => ?_)
    fun i j s₁ hs₁ _ hij => ?_
  · exact (rebuild_ids _ _ [z, y]).symm ▸ h
  · refine Runs.mono (push_returns (n := n + 2) hs₁ v) (fun j s₂ hj => ?_) fun _ _ he => he
    exact ⟨hj.1, hj.2.1, lt_of_lt_of_le hi hj.2.1.le, hj.2.2.2⟩
  · exact constant_returns hs₁ ho hij.1 hij.2

/-- With a constant outside of one argument at most. -/
theorem half_returns {n : Nat} {s : ExpressionClasses} (hs : Settled s) {o : Instruction} (ho : o ∈ associative) {x y : Id}
    (hx : Below x s) (hy : Below y s) (h : Core s.m_representatives o x ∨ Core s.m_representatives o y) {sequenceNumber : Nat} :
    Returns (findTwo (n + 4) o x y sequenceNumber) s Below := by
  refine associative_find hs ho hx hy (fun x' y' z c v _ hshell => ?_) fun x' y' z c hswap hshell _ => ?_
  · exact (fold_returns hs ho hshell v).mono fun _ _ _ => trivial
  · -- the other argument has no constant outside
    have hother : Below y' s ∧ Core s.m_representatives o y' := by
      rcases hswap with ⟨rfl, rfl⟩ | ⟨rfl, rfl⟩
      · exact ⟨hy, h.resolve_left fun hc => hc z c hshell⟩
      · exact ⟨hx, h.resolve_right fun hc => hc z c hshell⟩
    exact (out_returns ho hshell.1 (core_returns hs ho (hshell.lt hs.formed) hother.1 (hs.shell_core ho hshell) hother.2)).mono
      fun _ _ _ => trivial

/-- The associative operations return. -/
theorem associative_returns {n : Nat} {s : ExpressionClasses} (hs : Settled s) {o : Instruction} (ho : o ∈ associative) {x y : Id}
    (hx : Below x s) (hy : Below y s) {sequenceNumber : Nat} : Returns (findTwo (n + 5) o x y sequenceNumber) s Below := by
  refine associative_find hs ho hx hy (fun x' y' z c v _ hshell => ?_) fun x' y' z c hswap hshell _ => ?_
  · exact (fold_returns hs ho hshell v).mono fun _ _ _ => trivial
  · have hy' : Below y' s := by
      rcases hswap with ⟨rfl, rfl⟩ | ⟨rfl, rfl⟩
      · exact hy
      · exact hx
    exact (out_returns (n := n + 1) ho hshell.1
      (half_returns hs ho (hshell.lt hs.formed) hy' (Or.inl (hs.shell_core ho hshell)))).mono fun _ _ _ => trivial

/-! ## Subtractions -/

/-- `ADD` is one of the associative operations. -/
theorem add_associative : Instruction.ADD ∈ associative := by decide

/-- A subtraction returns if what is made of it when a constant is outside of an argument is rebuilt. -/
theorem subtraction_find {n : Nat} {s : ExpressionClasses} (hs : Settled s) {x y : Id} (hx : Below x s) (hy : Below y s)
    {sequenceNumber : Nat}
    (hleft : ∀ z c, Shell s.m_representatives .ADD x z c → Returns (findTwo (n + 3) .SUB z y 0) s Below)
    (hright : ∀ z c, Shell s.m_representatives .ADD y z c → Returns (findTwo (n + 3) .SUB x z 0) s Below) :
    Returns (findTwo (n + 4) .SUB x y sequenceNumber) s Below := by
  refine Returns.mono (find_returns hs (below_two hx hy) (fun k hk => ?_) fun t _ e' hturned hshape => ?_) fun i s' h => h.1
  · cases hk
    rfl
  obtain ⟨hitem', x', y', hargs', _, hcomm⟩ := turned_two hturned
  obtain ⟨rfl, rfl⟩ := hcomm (by decide)
  cases hshape with
  | id i => exact (returns_id hs i).mono fun _ _ _ => trivial
  | push v => exact (push_returns hs v).mono fun _ _ _ => trivial
  | fold v ho hitem => exact absurd (hitem.symm.trans hitem') (operation_items _ ho).1
  | out ho hitem => exact absurd (hitem.symm.trans hitem') (operation_items _ ho).1
  | negate v hitem hargs =>
    rw [hargs'] at hargs
    cases hargs
    refine Returns.mono (P := Below) ?_ fun _ _ _ => trivial
    refine returns_binary (Q := fun i j s₁ => i = x' ∧ IsConst s₁.m_representatives j) (returns_id hs x')
      (fun i s₁ hs₁ _ hi => ?_) fun i j s₁ hs₁ he₁ hij => ?_
    · exact (push_returns hs₁ v).mono fun j s₂ hj => ⟨hi, hj.2⟩
    · obtain ⟨rfl, hconst⟩ := hij
      exact constant_returns hs₁ add_associative (lt_of_lt_of_le hx he₁.le) hconst
  | left hitem hargs hshell =>
    rw [hargs'] at hargs
    cases hargs
    exact (out_returns add_associative hshell.1 (hleft _ _ hshell)).mono fun _ _ _ => trivial
  | right v hitem hargs hshell =>
    rw [hargs'] at hargs
    cases hargs
    exact (outPush_returns add_associative v (hright _ _ hshell)).mono fun _ _ _ => trivial
  | known hitem => exact absurd (hitem'.symm.trans hitem) (by decide)

/-- With no constants outside of the arguments. -/
theorem subtractionCore_returns {n : Nat} {s : ExpressionClasses} (hs : Settled s) {x y : Id} (hx : Below x s) (hy : Below y s)
    (hcx : Core s.m_representatives .ADD x) (hcy : Core s.m_representatives .ADD y) {sequenceNumber : Nat} :
    Returns (findTwo (n + 4) .SUB x y sequenceNumber) s Below :=
  subtraction_find hs hx hy (fun z c h => absurd h (hcx z c)) fun z c h => absurd h (hcy z c)

/-- With a constant outside of one argument at most. -/
theorem subtractionHalf_returns {n : Nat} {s : ExpressionClasses} (hs : Settled s) {x y : Id} (hx : Below x s) (hy : Below y s)
    (h : Core s.m_representatives .ADD x ∨ Core s.m_representatives .ADD y) {sequenceNumber : Nat} :
    Returns (findTwo (n + 5) .SUB x y sequenceNumber) s Below := by
  refine subtraction_find hs hx hy (fun z c hshell => ?_) fun z c hshell => ?_
  · exact subtractionCore_returns hs (hshell.lt hs.formed) hy (hs.shell_core add_associative hshell)
      (h.resolve_left fun hc => hc z c hshell)
  · exact subtractionCore_returns hs hx (hshell.lt hs.formed) (h.resolve_right fun hc => hc z c hshell)
      (hs.shell_core add_associative hshell)

/-- A difference is found. -/
theorem subtraction_returns {n : Nat} {s : ExpressionClasses} (hs : Settled s) {x y : Id} (hx : Below x s) (hy : Below y s)
    {sequenceNumber : Nat} : Returns (findTwo (n + 6) .SUB x y sequenceNumber) s Below := by
  refine subtraction_find hs hx hy (fun z c hshell => ?_) fun z c hshell => ?_
  · exact subtractionHalf_returns hs (hshell.lt hs.formed) hy (Or.inl (hs.shell_core add_associative hshell))
  · exact subtractionHalf_returns hs hx (hshell.lt hs.formed) (Or.inr (hs.shell_core add_associative hshell))

/-! ## Every item -/

/-- Only the item and the arguments of an expression are matched with a pattern in no group. -/
theorem matches_congr {classes : List Expression} {p : Pattern} (hp : p.m_matchGroup = 0) {e e' : Expression} (hitem : e.item = e'.item)
    (hargs : e.arguments = e'.arguments) (groups : MatchGroups) : p.matches classes e groups = p.matches classes e' groups := by
  obtain ⟨type, requireDataMatch, data, byte, arguments, g⟩ := p
  cases hp
  rw [matches_eq, matches_eq, hitem, hargs]
  rfl

/-- Rules look at nothing but the item and the arguments. -/
theorem applyRules_congr {classes : List Expression} {e e' : Expression} (hitem : e.item = e'.item) (hargs : e.arguments = e'.arguments)
    {rules : List Rule} (hrules : ∀ r ∈ rules, Rule.Formed r) : applyRules classes e rules = applyRules classes e' rules := by
  induction rules with
  | nil => rfl
  | cons r rules ih =>
    rw [applyRules, applyRules, matches_congr (hrules r List.mem_cons_self).ungrouped hitem hargs,
      ih fun r' hr' => hrules r' (List.mem_cons_of_mem _ hr')]

/-- What is simplified depends on nothing but the item and the arguments. -/
theorem simplified_congr {classes : List Expression} {e e' : Expression} (hitem : e.item = e'.item)
    (hargs : e.arguments = e'.arguments) : simplified classes e = simplified classes e' := by
  obtain ⟨i, item, arguments, k⟩ := e
  obtain ⟨i', item', arguments', k'⟩ := e'
  cases hitem
  cases hargs
  have hrules : ∀ args, applyRules classes ⟨i, item, args, k⟩ Rules.rules = applyRules classes ⟨i', item, args, k'⟩ Rules.rules := by
    intro args
    refine applyRules_congr ?_ ?_ rules_formed
    · rfl
    · rfl
  rw [simplified, simplified]
  by_cases hd : item.type ≠ .Operation ∨ (!isDeterministic item) = true
  · rw [if_pos hd, if_pos hd]
  rw [if_neg hd, if_neg hd, hrules]
  cases applyRules classes ⟨i', item, arguments, k'⟩ Rules.rules with
  | error e => rw [error_bind, error_bind]
  | ok m =>
    rw [ok_bind, ok_bind]
    cases m with
    | some t => rfl
    | none =>
      dsimp only
      split
      · exact hrules _
      · rfl

/-- What a class has the expression of is not simplified again. -/
theorem known_returns {n : Nat} {s : ExpressionClasses} (hs : Settled s) {e : Expression} (he : e ∈ s.m_representatives)
    {sequenceNumber : Nat} : Returns (find (n + 1) e.item e.arguments sequenceNumber) s (Denotes e.item e.arguments) := by
  refine find_returns hs (hs.formed e he).below (hs.arity e he) fun t ht _ _ _ => ?_
  have hsame : simplified s.m_representatives ⟨0, e.item, e.arguments, sequenceNumber⟩ =
    simplified s.m_representatives { e with id := 0 } := simplified_congr rfl rfl
  rw [hs.inOrder e he, hsame, hs.simple e he] at ht
  cases ht

/-- An operation on two classes of which constants are moved out. -/
def Moving (item : AssemblyItem) (arguments : List Id) : Prop :=
  ∃ o x y, item = .ofInstruction o ∧ arguments = [x, y] ∧ (o ∈ associative ∨ o = .SUB)

/-- An expression that moves constants does so when it is turned. -/
theorem moving_of_turned {item : AssemblyItem} {arguments : List Id} {sequenceNumber : Nat} {e' : Expression}
    (h : Turned ⟨0, item, ordered item arguments, sequenceNumber⟩ e') {o : Instruction} {x y : Id} (hitem : e'.item = .ofInstruction o)
    (hargs : e'.arguments = [x, y]) (ho : o ∈ associative ∨ o = .SUB) : Moving item arguments := by
  have hturned : e'.item = item ∧ e'.arguments.Perm arguments := by
    rcases h with rfl | ⟨_, a, b, hab, rfl⟩
    · exact ⟨rfl, ordered_perm item arguments⟩
    · refine ⟨rfl, (List.Perm.swap a b []).trans ?_⟩
      rw [← hab]
      exact ordered_perm item arguments
  obtain ⟨hitem', hperm⟩ := hturned
  rw [hargs] at hperm
  rcases List.pair_perm.mp hperm with h | h
  · exact ⟨o, x, y, hitem'.symm.trans hitem, h, ho⟩
  · exact ⟨o, y, x, hitem'.symm.trans hitem, h, ho⟩

/-- An expression that moves constants is found. -/
theorem moving_returns {n : Nat} {s : ExpressionClasses} (hs : Settled s) {item : AssemblyItem} {arguments : List Id}
    {sequenceNumber : Nat} (hargs : ∀ a ∈ arguments, a < s.m_representatives.length) (h : Moving item arguments) :
    Returns (find (n + 6) item arguments sequenceNumber) s fun _ _ => True := by
  obtain ⟨o, x, y, rfl, rfl, ho⟩ := h
  have hx : Below x s := hargs x List.mem_cons_self
  have hy : Below y s := hargs y (List.mem_cons_of_mem _ List.mem_cons_self)
  rcases ho with ho | rfl
  · exact (associative_returns (n := n + 1) hs ho hx hy).mono fun _ _ _ => trivial
  · exact (subtraction_returns hs hx hy).mono fun _ _ _ => trivial

/-- Six levels are enough. -/
theorem six_levels {n : Nat} {s : ExpressionClasses} (hs : Settled s) {item : AssemblyItem} {arguments : List Id} {sequenceNumber : Nat}
    (hargs : ∀ a ∈ arguments, a < s.m_representatives.length) (harity : ∀ k, item.arity = some k → arguments.length = k) :
    Returns (find (n + 6) item arguments sequenceNumber) s (Denotes item arguments) := by
  by_cases hmoving : Moving item arguments
  · have hkeeps : Keeps (find (n + 6) item arguments sequenceNumber) s (Denotes item arguments) := find_keeps _ hs.toConsistent hargs
    refine (Runs.and (moving_returns hs hargs hmoving) hkeeps).mono (fun i s' h => ?_) fun _ _ h => h.1
    exact ⟨h.1.1, h.1.2.1, h.2.2.2⟩
  · refine find_returns hs hargs harity fun t _ e' hturned hshape => ?_
    cases hshape with
    | id i => exact (returns_id hs i).mono fun _ _ _ => trivial
    | push v => exact (push_returns hs v).mono fun _ _ _ => trivial
    | fold v ho hitem hargs' => exact absurd (moving_of_turned hturned hitem hargs' (Or.inl ho)) hmoving
    | out ho hitem hargs' => exact absurd (moving_of_turned hturned hitem hargs' (Or.inl ho)) hmoving
    | negate v hitem hargs' => exact absurd (moving_of_turned hturned hitem hargs' (Or.inr rfl)) hmoving
    | left hitem hargs' => exact absurd (moving_of_turned hturned hitem hargs' (Or.inr rfl)) hmoving
    | right v hitem hargs' => exact absurd (moving_of_turned hturned hitem hargs' (Or.inr rfl)) hmoving
    | known _ he' =>
      rw [rebuild_ids]
      exact (known_returns hs he').mono fun _ _ _ => trivial

end ExpressionClasses

end Webthree
