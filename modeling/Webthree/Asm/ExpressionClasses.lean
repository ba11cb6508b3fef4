import Webthree.Asm.Rules
import Webthree.Lib.EState
import Webthree.Lib.Table
import Mathlib.Data.List.Sort

/-!
# Expression classes

`ExpressionClasses`: classes of equivalent expressions, each with the first expression that was found for it. An expression always
has an item here, and whether an item is copied is left out. The recursion of `find` is given so many levels.
-/

namespace Webthree

/-- The number of a class. -/
abbrev ExpressionClasses.Id := Nat

open ExpressionClasses (Id)

structure Expression where
  id : Id
  item : AssemblyItem
  arguments : List Id
  /-- Storage modification sequence, only used for storage and memory operations. -/
  sequenceNumber : Nat
deriving DecidableEq, Repr

/-- The same tuple of (item->type(), item->data(), arguments, sequenceNumber). -/
def Expression.same (e e' : Expression) : Bool :=
  e.item = e'.item ∧ e.arguments = e'.arguments ∧ e.sequenceNumber = e'.sequenceNumber

structure ExpressionClasses where
  /-- Expression equivalence class representatives - we only store one item of an equivalence. -/
  m_representatives : List Expression
  /-- All expression ever encountered. -/
  m_expressions : List Expression
deriving Repr

inductive OptimizerError where
  | OptimizerException
  | InvalidDeposit
  /-- `at` does not find the class. -/
  | out_of_range
  /-- The recursion goes deeper than it is given levels. -/
  | tooDeep
deriving DecidableEq, Repr

/-! ## Matching -/

/-- `m_matchGroups` -/
abbrev MatchGroups := Assoc Nat Expression

mutual

/-- `Pattern::matches`, with the match groups if it does. -/
def Pattern.matches (classes : List Expression) : Pattern → Expression → MatchGroups → Except OptimizerError (Option MatchGroups)
  | ⟨type, requireDataMatch, data, byte, arguments, matchGroup⟩, expr, groups =>
    if !Pattern.matchesBaseItem ⟨type, requireDataMatch, data, byte, arguments, matchGroup⟩ expr.item then return none
    else
      match (if matchGroup = 0 then some groups
        else
          match groups.find matchGroup with
          | none => some (groups.set matchGroup expr)
          | some e => if e.id ≠ expr.id then none else some groups) with
      | none => return none
      | some groups =>
        if arguments.length ≠ 0 ∧ expr.arguments.length ≠ arguments.length then throw .OptimizerException
        else matchesAll classes arguments expr.arguments groups

/-- The loop over the arguments. -/
def Pattern.matchesAll (classes : List Expression) : List Pattern → List Id → MatchGroups → Except OptimizerError (Option MatchGroups)
  | [], _, groups => return some groups
  | _ :: _, [], _ => throw .OptimizerException
  | p :: ps, a :: as, groups =>
    match classes[a]? with
    | none => throw .out_of_range
    | some expr => do
      match ← p.matches classes expr groups with
      | none => return none
      | some groups => matchesAll classes ps as groups

end

/-! ## Templates -/

/-- Template for a new expression that can be built from matched patterns. -/
inductive ExpressionTemplate where
  | id (id : Id)
  | item (item : AssemblyItem) (arguments : List ExpressionTemplate)

mutual

def ExpressionTemplate.ofPattern (groups : MatchGroups) : Pattern → Except OptimizerError ExpressionTemplate
  | ⟨type, requireDataMatch, data, byte, arguments, matchGroup⟩ =>
    if matchGroup ≠ 0 then
      match groups.find matchGroup with
      | none => throw .OptimizerException
      | some e => return .id e.id
    else do
      let arguments' ← ofPatterns groups arguments
      return .item (Pattern.toAssemblyItem ⟨type, requireDataMatch, data, byte, arguments, matchGroup⟩) arguments'

def ExpressionTemplate.ofPatterns (groups : MatchGroups) : List Pattern → Except OptimizerError (List ExpressionTemplate)
  | [] => return []
  | p :: ps => do
    let t ← ofPattern groups p
    let ts ← ofPatterns groups ps
    return t :: ts

end

/-! ## Classes -/

namespace ExpressionClasses

open SemanticInformation

/-- A computation on the classes. -/
abbrev M := EStateM OptimizerError ExpressionClasses

/-- What fails is thrown. -/
def lift {α : Type} : Except OptimizerError α → M α
  | .ok a => pure a
  | .error e => throw e

/-- `representative` -/
def representative (i : Id) : M Expression := do
  match (← get).m_representatives[i]? with
  | none => throw .out_of_range
  | some e => return e

/-- The data of the expression in a match group. An action only asks for groups that its pattern has. -/
def groupData (groups : MatchGroups) (group : Nat) : U256 :=
  match groups.find group with
  | none => 0
  | some e => e.item.data

/-- The loop over the rules: what the first rule that matches makes of the expression. -/
def applyRules (classes : List Expression) (expr : Expression) : List Rule → Except OptimizerError (Option ExpressionTemplate)
  | [] => return none
  | rule :: rules => do
    match ← rule.pattern.matches classes expr [] with
    | none => applyRules classes expr rules
    | some groups =>
      let template ← ExpressionTemplate.ofPattern groups (rule.action (groupData groups 1) (groupData groups 2) (groupData groups 3))
      return some template

/-- Both runs, the second one with the arguments of a commutative operation swapped. -/
def simplified (classes : List Expression) (expr : Expression) : Except OptimizerError (Option ExpressionTemplate) := do
  if expr.item.type ≠ .Operation ∨ !isDeterministic expr.item then return none
  else
    match ← applyRules classes expr Rules.rules with
    | some template => return some template
    | none =>
      match expr.arguments, isCommutativeOperation expr.item with
      | [a, b], true => applyRules classes { expr with arguments := [b, a] } Rules.rules
      | _, _ => return none

mutual

/-- `rebuildExpression`, where new expressions are found with `find`. -/
def rebuildExpression (find : AssemblyItem → List Id → M Id) : ExpressionTemplate → M Id
  | .id i => return i
  | .item item arguments => do
    let arguments ← rebuildExpressions find arguments
    find item arguments

/-- The loop over the arguments. -/
def rebuildExpressions (find : AssemblyItem → List Id → M Id) : List ExpressionTemplate → M (List Id)
  | [] => return []
  | t :: ts => do
    let i ← rebuildExpression find t
    let is ← rebuildExpressions find ts
    return i :: is

end

/-- `tryToSimplify` -/
def tryToSimplify (find : AssemblyItem → List Id → M Id) (expr : Expression) : M (Option Id) := do
  match ← lift (simplified (← get).m_representatives expr) with
  | none => return none
  | some template =>
    let i ← rebuildExpression find template
    return some i

/-- `m_expressions.insert` -/
def insert (exp : Expression) (s : ExpressionClasses) : ExpressionClasses :=
  if s.m_expressions.any exp.same then s else { s with m_expressions := exp :: s.m_expressions }

/-- `find`, which may recurse as often. -/
def find : Nat → AssemblyItem → List Id → Nat → M Id
  | 0, _, _, _ => throw .tooDeep
  | n + 1, item, arguments, sequenceNumber => do
    let arguments := if isCommutativeOperation item then arguments.insertionSort (· ≤ ·) else arguments
    let exp : Expression := ⟨0, item, arguments, sequenceNumber⟩
    let expressions := (← get).m_expressions
    match (if isDeterministic item then expressions.find? exp.same else none) with
    | some e => return e.id
    | none =>
      let id ← tryToSimplify (fun item arguments => find n item arguments 0) exp
      let size := (← get).m_representatives.length
      match id.filter (· < size) with
      | some id =>
        modify (insert { exp with id })
        return id
      | none =>
        modify fun s => { s with m_representatives := s.m_representatives ++ [{ exp with id := size }] }
        modify (insert { exp with id := size })
        return size

def newClass : M Id := do
  let size := (← get).m_representatives.length
  let exp : Expression := ⟨size, ⟨.UndefinedItem, (1 <<< 255) + BitVec.ofNat 256 size, nofun⟩, [], 0⟩
  modify fun s => { s with m_representatives := s.m_representatives ++ [exp] }
  modify (insert exp)
  return size

/-! ## Knowledge -/

/-- The value if the given class is known to be a constant. -/
def knownConstant (c : Id) : M (Option U256) := do
  let e ← representative c
  return if (Pattern.constant 1).matchesBaseItem e.item then some e.item.data else none

/-- Whether the value of the class is known to be nonzero. -/
def knownNonZero (n : Nat) (c : Id) : M Bool := do
  let i ← find n (.ofInstruction .ISZERO) [c] 0
  let e ← representative i
  return (Pattern.value 0).matchesBaseItem e.item

def knownToBeDifferent (n : Nat) (a b : Id) : M Bool := do
  let d ← find n (.ofInstruction .SUB) [a, b] 0
  knownNonZero n d

def knownToBeDifferentBy32 (n : Nat) (a b : Id) : M Bool := do
  let d ← find n (.ofInstruction .SUB) [a, b] 0
  -- forbidden interval is ["-31", 31]
  match ← knownConstant d with
  | none => return false
  | some v => return v + 31 > 62

end ExpressionClasses

end Webthree
