import Mathlib.Algebra.GroupWithZero.Nat
import Mathlib.Data.Finset.Basic
import Mathlib.Data.List.Dedup
import Mathlib.Logic.Function.Basic
import Mathlib.Tactic.Common

/-!
# The order of base contracts

`NameAndTypeResolver::linearizeBaseContracts` and `cThreeMerge`. A contract is known by its definition; of a name in its list of bases
only the definition is kept that it refers to, if that is one of a contract.
-/

namespace Webthree

namespace Libsolidity

/-- What the resolver throws. -/
inductive ResolverError where
  /-- "Contract expected.", at a name in the list of bases. -/
  | ContractExpected (base : Nat)
  /-- "Definition of base has to precede definition of derived contract", at a name in the list of bases. -/
  | DefinitionOfBaseHasToPrecede (base : Nat)
  /-- "Linearization of inheritance graph impossible", at the contract. -/
  | LinearizationImpossible
  /-- An assertion fails. -/
  | InternalCompilerError
deriving DecidableEq, Repr

namespace Resolver

variable {C : Type} [DecidableEq C]

/-- Whether the candidate appears only as first element of the lists. -/
def appearsOnlyAtHead (candidate : C) : (toMerge : List (List C)) → Except ResolverError Bool
  | [] => pure true
  | [] :: _ => throw .InternalCompilerError
  | (_ :: behind) :: rest => if candidate ∈ behind then pure false else appearsOnlyAtHead candidate rest

/-- The loop of `nextCandidate` over the lists. -/
def firstCandidate (toMerge : List (List C)) : List (List C) → Except ResolverError (Option C)
  | [] => pure none
  | [] :: _ => throw .InternalCompilerError
  | (front :: _) :: rest => do
    if ← appearsOnlyAtHead front toMerge then pure (some front)
    else firstCandidate toMerge rest

/-- The next candidate to append to the linearized list, or none. -/
def nextCandidate (toMerge : List (List C)) : Except ResolverError (Option C) := firstCandidate toMerge toMerge

/-- Removes the given contract from all lists, and the lists that are empty then. -/
def removeCandidate (candidate : C) : (toMerge : List (List C)) → List (List C)
  | [] => []
  | bases :: rest =>
    if bases.filter (· ≠ candidate) = [] then removeCandidate candidate rest
    else bases.filter (· ≠ candidate) :: removeCandidate candidate rest

/-- How many entries there are in the lists. -/
def entries (toMerge : List (List C)) : Nat := (toMerge.map List.length).sum

omit [DecidableEq C] in
theorem entries_cons (bases : List C) (rest : List (List C)) : entries (bases :: rest) = bases.length + entries rest := by
  rw [entries, List.map_cons, List.sum_cons, entries]

theorem entries_removeCandidate_cons (candidate : C) (bases : List C) (rest : List (List C)) :
    entries (removeCandidate candidate (bases :: rest)) =
      (bases.filter (· ≠ candidate)).length + entries (removeCandidate candidate rest) := by
  rw [removeCandidate]
  split
  · rename_i hempty
    rw [hempty, List.length_nil, Nat.zero_add]
  · rw [entries_cons]

theorem entries_removeCandidate_le (candidate : C) (toMerge : List (List C)) :
    entries (removeCandidate candidate toMerge) ≤ entries toMerge := by
  induction toMerge with
  | nil => exact Nat.le_refl _
  | cons bases rest ih =>
    rw [entries_removeCandidate_cons, entries_cons]
    exact Nat.add_le_add (List.length_filter_le _ _) ih

theorem entries_removeCandidate_lt {candidate : C} {toMerge : List (List C)} (h : ∃ bases ∈ toMerge, candidate ∈ bases) :
    entries (removeCandidate candidate toMerge) < entries toMerge := by
  induction toMerge with
  | nil => simp at h
  | cons bases rest ih =>
    rw [entries_removeCandidate_cons, entries_cons]
    by_cases hin : candidate ∈ bases
    · have hlt : (bases.filter (· ≠ candidate)).length < bases.length :=
        List.length_filter_lt_length_iff_exists.mpr ⟨candidate, hin, by simp⟩
      exact Nat.add_lt_add_of_lt_of_le hlt (entries_removeCandidate_le candidate rest)
    · obtain ⟨bases', hbases', hin'⟩ := h
      rcases List.mem_cons.mp hbases' with rfl | hbases'
      · exact absurd hin' hin
      · exact Nat.add_lt_add_of_le_of_lt (List.length_filter_le _ _) (ih ⟨bases', hbases', hin'⟩)

/-- A candidate is the first one of a list. -/
theorem firstCandidate_some {toMerge lists : List (List C)} {candidate : C} (h : firstCandidate toMerge lists = .ok (some candidate)) :
    appearsOnlyAtHead candidate toMerge = .ok true ∧ ∃ behind, candidate :: behind ∈ lists := by
  induction lists with
  | nil => cases h
  | cons bases rest ih =>
    cases bases with
    | nil => cases h
    | cons front behind =>
      rw [firstCandidate] at h
      cases hfront : appearsOnlyAtHead front toMerge with
      | error e =>
        rw [hfront] at h
        cases h
      | ok b =>
        rw [hfront] at h
        cases b with
        | true =>
          cases h
          exact ⟨hfront, behind, List.mem_cons_self⟩
        | false =>
          obtain ⟨honly, behind', hin⟩ := ih h
          exact ⟨honly, behind', List.mem_cons_of_mem _ hin⟩

/-- The loop of `cThreeMerge`: every round takes a contract out of the lists. -/
def mergeLoop (toMerge : List (List C)) (result : List C) : Except ResolverError (List C) :=
  if toMerge = [] then pure result
  else match _hnext : nextCandidate toMerge with
    | .error e => .error e
    | .ok none => pure []
    | .ok (some candidate) => mergeLoop (removeCandidate candidate toMerge) (result ++ [candidate])
termination_by entries toMerge
decreasing_by
  obtain ⟨-, behind, hin⟩ := firstCandidate_some _hnext
  exact entries_removeCandidate_lt ⟨_, hin, List.mem_cons_self⟩

/-- `cThreeMerge`: no contract if the lists cannot be merged. -/
def cThreeMerge (toMerge : List (List C)) : Except ResolverError (List C) := mergeLoop (toMerge.filter (· ≠ [])) []

/-- The annotations of the contracts that are written here. -/
structure Annotations (C : Type) where
  linearizedBaseContracts : C → List C
  contractDependencies : C → Finset C

/-- The loop over the list of bases: the lists to linearize but for the last one, and the last one, of direct bases. -/
def collectBases (A : Annotations C) : (baseContracts : List (Option C)) → (base : Nat) → (input : List (List C)) → (back : List C) →
    Except ResolverError (List (List C) × List C)
  | [], _, input, back => pure (input, back)
  | none :: _, i, _, _ => throw (.ContractExpected i)
  | some base :: rest, i, input, back =>
    -- a base that is mentioned later comes first
    if A.linearizedBaseContracts base = [] then throw (.DefinitionOfBaseHasToPrecede i)
    else collectBases A rest (i + 1) (A.linearizedBaseContracts base :: input) (base :: back)

/-- What is written about a contract. -/
def annotate (A : Annotations C) (contract : C) (result : List C) : Annotations C where
  linearizedBaseContracts := Function.update A.linearizedBaseContracts contract result
  contractDependencies :=
    Function.update A.contractDependencies contract (A.contractDependencies contract ∪ result.tail.toFinset)

/-- `linearizeBaseContracts` -/
def linearizeBaseContracts (baseContracts : C → List (Option C)) (A : Annotations C) (contract : C) :
    Except ResolverError (Annotations C) := do
  let (input, back) ← collectBases A (baseContracts contract) 0 [] []
  let result ← cThreeMerge (input ++ [contract :: back])
  if result = [] then throw .LinearizationImpossible
  else pure (annotate A contract result)

/-- A contract is resolved; nothing is written if that fails. -/
def resolve (baseContracts : C → List (Option C)) (A : Annotations C) (contract : C) : Annotations C :=
  match linearizeBaseContracts baseContracts A contract with
  | .ok A' => A'
  | .error _ => A

/-- No contract is resolved yet. -/
def unresolved : Annotations C := { linearizedBaseContracts := fun _ => [], contractDependencies := fun _ => ∅ }

end Resolver

end Libsolidity

end Webthree
