import Webthree.Lemmas.FindLevels

/-!
# Calls within calls

`find` calls itself while it rebuilds what a rule makes of an expression. However many levels it is given, it ends in the same way
unless they run out, and they run out on a chain of as many calls.
-/

namespace Webthree

open ExpressionClasses (Id)

namespace ExpressionClasses

open Pattern SemanticInformation

/-! ## More levels -/

mutual

theorem rebuildExpression_refines {find find' : AssemblyItem → List Id → M Id}
    (hfind : ∀ item arguments, Refines .tooDeep (find item arguments) (find' item arguments)) : ∀ t, Refines .tooDeep (rebuildExpression find t) (rebuildExpression find' t)
  | .id i => by
    rw [rebuildExpression, rebuildExpression]
    exact .refl _
  | .item item arguments => by
    rw [rebuildExpression, rebuildExpression]
    exact (rebuildExpressions_refines hfind arguments).bind fun is => hfind item is

theorem rebuildExpressions_refines {find find' : AssemblyItem → List Id → M Id}
    (hfind : ∀ item arguments, Refines .tooDeep (find item arguments) (find' item arguments)) : ∀ ts, Refines .tooDeep (rebuildExpressions find ts) (rebuildExpressions find' ts)
  | [] => by
    rw [rebuildExpressions, rebuildExpressions]
    exact .refl _
  | t :: ts => by
    rw [rebuildExpressions, rebuildExpressions]
    exact (rebuildExpression_refines hfind t).bind fun i => (rebuildExpressions_refines hfind ts).bind fun is => .refl _

end

theorem find_succ (n : Nat) (item : AssemblyItem) (arguments : List Id) (sequenceNumber : Nat) :
    Refines .tooDeep (find n item arguments sequenceNumber) (find (n + 1) item arguments sequenceNumber) := by
  induction n generalizing item arguments sequenceNumber with
  | zero => exact fun s => .inl rfl
  | succ n ih =>
    have hrebuild := rebuildExpression_refines fun item arguments => ih item arguments 0
    rw [find, find]
    refine (Refines.refl _).bind fun s => ?_
    dsimp only
    split
    · exact .refl _
    · refine Refines.bind ?_ fun id => .refl _
      rw [tryToSimplify, tryToSimplify]
      refine (Refines.refl _).bind fun s' => (Refines.refl _).bind fun t => ?_
      cases t with
      | none => exact .refl _
      | some t => exact (hrebuild t).bind fun i => .refl _

/-! ## Wrong numbers of arguments -/

/-- Every rule is for an instruction with as many arguments as its pattern. -/
theorem rule_arity : ∀ r ∈ Rules.rules, r.pattern.m_type = .Operation ∧ r.pattern.m_requireDataMatch = true ∧
    r.pattern.m_matchGroup = 0 ∧ r.pattern.m_arguments.length ≠ 0 ∧
    r.pattern.toAssemblyItem.arity = some r.pattern.m_arguments.length := by
  decide

/-- Every instruction that is known by its arguments has a rule. -/
theorem rule_of_byte : ∀ b : Fin 256, (operator (Instruction.ofByte (UInt8.ofNat b.val))).isSome = true →
    ∃ r ∈ Rules.rules, r.pattern.m_data.toNat = b.val := by
  decide +kernel

theorem rule_of_arity {item : AssemblyItem} {k : Nat} (hk : item.arity = some k) :
    ∃ r ∈ Rules.rules, r.pattern.matchesBaseItem item = true := by
  rw [AssemblyItem.arity] at hk
  by_cases ht : item.type = .Operation
  · rw [if_pos ht] at hk
    obtain ⟨o, ho, -⟩ := Option.map_eq_some_iff.mp hk
    have hsome : (operator (Instruction.ofByte (UInt8.ofNat item.data.toNat))).isSome = true := Option.isSome_of_mem ho
    obtain ⟨r, hr, hdata⟩ := rule_of_byte ⟨item.data.toNat, item.byte ht⟩ hsome
    exact ⟨r, hr, matchesBaseItem_iff.mpr (.inr ⟨(rule_arity r hr).1.trans ht.symm, fun _ => BitVec.eq_of_toNat_eq hdata⟩)⟩
  · rw [if_neg ht] at hk
    cases hk

/-- The first rule for the instruction asserts the number of the arguments. -/
theorem applyRules_mismatch {classes : List Expression} {e : Expression} {k : Nat} (hk : e.item.arity = some k)
    (hcount : e.arguments.length ≠ k) {rules : List Rule} (hrules : ∀ r ∈ rules, r ∈ Rules.rules)
    (hsome : ∃ r ∈ rules, r.pattern.matchesBaseItem e.item = true) : applyRules classes e rules = .error .OptimizerException := by
  induction rules with
  | nil =>
    obtain ⟨r, hr, -⟩ := hsome
    exact absurd hr List.not_mem_nil
  | cons r rules ih =>
    obtain ⟨⟨type, requireDataMatch, data, byte, arguments, g⟩, action⟩ := r
    obtain ⟨htype, hdata, hgroup, hne, harity⟩ := rule_arity _ (hrules _ List.mem_cons_self)
    dsimp only at htype hdata hgroup hne harity
    subst htype hdata hgroup
    rw [applyRules]
    dsimp only
    by_cases hbase : matchesBaseItem ⟨.Operation, true, data, byte, arguments, 0⟩ e.item = true
    · have hitem : toAssemblyItem ⟨.Operation, true, data, byte, arguments, 0⟩ = e.item := by
        rcases matchesBaseItem_iff.mp hbase with h | ⟨h, hd⟩
        · cases h
        · exact toAssemblyItem_eq h (hd rfl)
      rw [hitem, hk] at harity
      have hlength : e.arguments.length ≠ arguments.length := Option.some.inj harity ▸ hcount
      rw [matches_eq, hbase, if_neg (by simp), setGroup, if_pos rfl]
      dsimp only
      rw [if_pos ⟨hne, hlength⟩]
      rfl
    · rw [matches_eq, if_pos (by simpa using hbase)]
      refine ih (fun r' hr' => hrules r' (List.mem_cons_of_mem _ hr')) ?_
      obtain ⟨r', hr', hbase'⟩ := hsome
      rcases List.mem_cons.mp hr' with rfl | hr'
      · exact absurd hbase' hbase
      · exact ⟨r', hr', hbase'⟩

theorem deterministic_of_arity {item : AssemblyItem} {k : Nat} (hk : item.arity = some k) :
    item.type = .Operation ∧ isDeterministic item = true := by
  rw [AssemblyItem.arity] at hk
  by_cases ht : item.type = .Operation
  · rw [if_pos ht] at hk
    obtain ⟨o, ho, -⟩ := Option.map_eq_some_iff.mp hk
    refine ⟨ht, ?_⟩
    rw [isDeterministic, if_neg (not_not.mpr ht)]
    generalize item.instruction = i at ho
    cases i <;> first | rfl | cases ho
  · rw [if_neg ht] at hk
    cases hk

/-- With a wrong number of arguments a call throws unless the expression is known, and changes nothing. -/
theorem find_mismatch {n : Nat} {s : ExpressionClasses} (hs : Settled s) {item : AssemblyItem} {arguments : List Id} {sequenceNumber k : Nat}
    (hk : item.arity = some k) (hcount : arguments.length ≠ k) :
    find (n + 1) item arguments sequenceNumber s = .error .OptimizerException s ∨
      ∃ i, find (n + 1) item arguments sequenceNumber s = .ok i s ∧ i < s.m_representatives.length := by
  obtain ⟨ht, hd⟩ := deterministic_of_arity hk
  have hlength : (ordered item arguments).length ≠ k := (ordered_perm item arguments).length_eq.trans_ne hcount
  have hthrows : simplified s.m_representatives ⟨0, item, ordered item arguments, sequenceNumber⟩ = .error .OptimizerException := by
    rw [simplified, if_neg (by simp [ht, hd]), applyRules_mismatch hk hlength (fun _ hr => hr) (rule_of_arity hk), error_bind]
  rw [find, ← ordered]
  simp only [bind, EStateM.bind, get, getThe, MonadStateOf.get, estate_get, if_pos hd]
  cases hfound : s.m_expressions.find? (Expression.same ⟨0, item, ordered item arguments, sequenceNumber⟩) with
  | some e => exact .inr ⟨e.id, rfl, hs.known e (List.mem_of_find?_eq_some hfound)⟩
  | none =>
    left
    simp only [tryToSimplify, bind, EStateM.bind, get, getThe, MonadStateOf.get, estate_get, hthrows]
    rfl

/-! ## Calls -/

/-- A call of `find`. -/
structure Call where
  classes : ExpressionClasses
  item : AssemblyItem
  arguments : List Id
  sequenceNumber : Nat

/-- How the call ends that is given so many levels. -/
def Call.run (c : Call) (n : Nat) : EStateM.Result OptimizerError ExpressionClasses Id :=
  ExpressionClasses.find n c.item c.arguments c.sequenceNumber c.classes

/-- The expression that is looked for. -/
def Call.expression (c : Call) : Expression := ⟨0, c.item, ordered c.item c.arguments, c.sequenceNumber⟩

mutual

/-- Rebuilding an expression gets to the call. What is rebuilt before it returns, with levels enough. -/
inductive Rebuilds : ExpressionTemplate → ExpressionClasses → Call → Prop
  | here {item ts s is s' n} : rebuildExpressions (fun item arguments => find n item arguments 0) ts s = .ok is s' →
      Rebuilds (.item item ts) s ⟨s', item, is, 0⟩
  | argument {item ts s c} : RebuildsOne ts s c → Rebuilds (.item item ts) s c

/-- Rebuilding the arguments gets to the call. -/
inductive RebuildsOne : List ExpressionTemplate → ExpressionClasses → Call → Prop
  | head {t ts s c} : Rebuilds t s c → RebuildsOne (t :: ts) s c
  | tail {t ts s i s' c n} : rebuildExpression (fun item arguments => find n item arguments 0) t s = .ok i s' → RebuildsOne ts s' c →
      RebuildsOne (t :: ts) s c

end

/-- The second call is made by the first: the expression is not known, and is rewritten to something of which the call rebuilds a part. -/
def Nested (c c' : Call) : Prop :=
  (isDeterministic c.item = true → c.classes.m_expressions.find? c.expression.same = none) ∧
    ∃ t, simplified c.classes.m_representatives c.expression = .ok (some t) ∧ Rebuilds t c.classes c'

/-! ## Levels that run out -/

mutual

theorem Rebuilds.cutOff {n : Nat} : ∀ {t s c}, Rebuilds t s c → raised (c.run n) = some .tooDeep →
    raised (rebuildExpression (fun item arguments => find n item arguments 0) t s) = some .tooDeep
  | .item item ts, s, _, .here hargs, h => by
    rw [rebuildExpression]
    rcases levels_ok (fun k => rebuildExpressions_refines (fun item arguments => find_succ k item arguments 0) ts) hargs with hs | hs
    · exact raised_bind _ hs
    · rw [raised_bind_of_ok _ hs]
      exact h
  | .item item ts, s, c, .argument hone, h => by
    rw [rebuildExpression]
    exact raised_bind _ (hone.cutOff h)

theorem RebuildsOne.cutOff {n : Nat} : ∀ {ts s c}, RebuildsOne ts s c → raised (c.run n) = some .tooDeep →
    raised (rebuildExpressions (fun item arguments => find n item arguments 0) ts s) = some .tooDeep
  | t :: ts, s, c, .head hhead, h => by
    rw [rebuildExpressions]
    exact raised_bind _ (hhead.cutOff h)
  | t :: ts, s, c, .tail ht htail, h => by
    rw [rebuildExpressions]
    rcases levels_ok (fun k => rebuildExpression_refines (fun item arguments => find_succ k item arguments 0) t) ht with hs | hs
    · exact raised_bind _ hs
    · rw [raised_bind_of_ok _ hs]
      exact raised_bind _ (htail.cutOff h)

end

/-- A call is cut off if one that it makes is cut off with one level less. -/
theorem Nested.cutOff {c c' : Call} (h : Nested c c') {n : Nat} (hc : raised (c'.run n) = some .tooDeep) :
    raised (c.run (n + 1)) = some .tooDeep := by
  obtain ⟨hnew, t, ht, hrebuilds⟩ := h
  have hfound : (if isDeterministic c.item then c.classes.m_expressions.find? c.expression.same else none) = none := by
    split
    · next hd => exact hnew hd
    · rfl
  rw [Call.expression] at hfound ht
  have hget : (get : M ExpressionClasses) c.classes = .ok c.classes c.classes := rfl
  have hlift : lift (simplified c.classes.m_representatives ⟨0, c.item, ordered c.item c.arguments, c.sequenceNumber⟩) c.classes =
      .ok (some t) c.classes := by
    rw [ht]
    rfl
  rw [Call.run, find, ← ordered, raised_bind_of_ok _ hget]
  dsimp only
  rw [hfound]
  refine raised_bind _ ?_
  rw [tryToSimplify, raised_bind_of_ok _ hget, raised_bind_of_ok _ hlift]
  exact raised_bind _ (hrebuilds.cutOff hc)

/-- A chain of calls takes as many levels. -/
theorem chain_cutOff {c : Call} {calls : List Call} (h : List.IsChain Nested (c :: calls)) : raised (c.run calls.length) = some .tooDeep := by
  induction calls generalizing c with
  | nil => rfl
  | cons c' calls ih =>
    obtain ⟨hnested, hrest⟩ := List.isChain_cons_cons.mp h
    exact hnested.cutOff (ih hrest)

end ExpressionClasses

end Webthree
