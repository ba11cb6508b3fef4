import Webthree.Theorems.ExpressionClasses
import Webthree.Asm.KnownState
import Webthree.Lib.ByteMemory

/-!
# Runs of known states

Constants and other pushes, hashes and words of the memory are never simplified: the class that is found for one of them is the
class of that very expression.

A known state is fed items, reset and reduced to common knowledge. Beside it goes a history of what that means for the machine:
the moments between the items, each with the sequence number that the known state has then and what was done to the memory since
the moment before, and the hashes that were computed. A machine gives values to the classes and a memory to every moment. It is
consistent with a history if the memory changes as the items say, and the words and hashes that were found for a sequence number
are those of the memory of its moments. The addresses of the memory go round: what reaches over the last one the machine cannot
pay for.
-/

namespace Webthree

open ExpressionClasses (Id)

/-! ## Items that no rule is for -/

/-- No rule is for such an item: it is no arithmetic, comparison or bit instruction. -/
def AssemblyItem.Plain (item : AssemblyItem) : Prop := item.type ≠ .Operation ∨ operator item.instruction = none

namespace ExpressionClasses

open SemanticInformation

theorem applyRules_of_heads {classes : List Expression} {expr : Expression} {rules : List Rule}
    (h : ∀ r ∈ rules, r.pattern.matchesBaseItem expr.item = false) : applyRules classes expr rules = .ok none := by
  induction rules with
  | nil => rfl
  | cons r rules ih =>
    have hmatch : r.pattern.matches classes expr [] = .ok none := by
      obtain ⟨⟨type, requireDataMatch, data, byte, arguments, matchGroup⟩, action⟩ := r
      rw [Pattern.matches, if_pos]
      · rfl
      · simpa using h _ List.mem_cons_self
    rw [applyRules, hmatch, ok_bind]
    exact ih fun r' hr' => h r' (List.mem_cons_of_mem _ hr')

theorem isCommutativeOperation_plain {item : AssemblyItem} (h : item.Plain) : isCommutativeOperation item = false := by
  rw [isCommutativeOperation]
  split
  · rfl
  · rename_i ht
    have hnone := h.resolve_left ht
    cases hi : item.instruction with
    | ADD | MUL | EQ | AND | OR | XOR =>
      rw [hi] at hnone
      cases hnone
    | _ => rfl

/-- The heads of the rules are other instructions. -/
theorem not_matches_plain {item : AssemblyItem} (h : item.Plain) {r : Rule} (hr : r ∈ Rules.rules) : r.pattern.matchesBaseItem item = false := by
  have hheads : ∀ r ∈ Rules.rules, r.pattern.m_type = .Operation ∧ r.pattern.m_requireDataMatch = true ∧
      (operator r.pattern.toAssemblyItem.instruction).isSome = true := by decide
  obtain ⟨ht, hd, ho⟩ := hheads r hr
  rw [Bool.eq_false_iff]
  intro hmatches
  obtain ⟨hitem, hdata⟩ := (Pattern.matchesBaseItem_iff.mp hmatches).resolve_left (by rw [ht]; decide)
  have hitem' : r.pattern.toAssemblyItem = item := AssemblyItem.eq_of hitem (hdata hd)
  rw [hitem', h.resolve_left fun hne => hne (hitem.symm.trans ht)] at ho
  cases ho

theorem simplified_plain (classes : List Expression) {expr : Expression} (h : expr.item.Plain) : simplified classes expr = .ok none := by
  rw [simplified]
  by_cases hd : expr.item.type ≠ .Operation ∨ (!isDeterministic expr.item) = true
  · rw [if_pos hd]
    rfl
  rw [if_neg hd]
  rw [applyRules_of_heads fun r hr => not_matches_plain h hr, ok_bind, isCommutativeOperation_plain h]
  cases expr.arguments with
  | nil => rfl
  | cons a as =>
    cases as with
    | nil => rfl
    | cons b as => cases as <;> rfl

theorem ordered_plain {item : AssemblyItem} (h : item.Plain) (arguments : List Id) : ordered item arguments = arguments := by
  rw [ordered, if_neg]
  rw [isCommutativeOperation_plain h]
  exact Bool.false_ne_true

/-- The expressions of plain items are those of their classes. -/
def Exact (s : ExpressionClasses) : Prop := ∀ e ∈ s.m_expressions, e.item.Plain → s.m_representatives[e.id]? = some e

theorem Exact.insert {s : ExpressionClasses} (hs : Exact s) {e : Expression} (he : e.item.Plain → s.m_representatives[e.id]? = some e) :
    Exact (insert e s) := by
  intro e' he' hplain
  rw [insert_representatives]
  rcases mem_insert he' with rfl | he'
  · exact he hplain
  · exact hs e' he' hplain

theorem Exact.represent {s : ExpressionClasses} (hs : Exact s) (e : Expression) : Exact (represent e s) := by
  intro e' he' hplain
  have hold := hs e' he' hplain
  rw [ExpressionClasses.represent, List.getElem?_append_left (List.getElem?_eq_some_iff.mp hold).1, hold]

theorem getElem?_represent (e : Expression) (s : ExpressionClasses) :
    (represent e s).m_representatives[s.m_representatives.length]? = some { e with id := s.m_representatives.length } :=
  List.getElem?_concat_length

mutual

theorem rebuildExpression_exact {find : AssemblyItem → List Id → M Id} (hfind : ∀ item arguments, Maintains Exact (find item arguments)) :
    ∀ t : ExpressionTemplate, Maintains Exact (rebuildExpression find t)
  | .id i => by
    rw [rebuildExpression]
    exact .pure i
  | .item item arguments => by
    rw [rebuildExpression]
    exact (rebuildExpressions_exact hfind arguments).bind fun as => hfind item as

theorem rebuildExpressions_exact {find : AssemblyItem → List Id → M Id} (hfind : ∀ item arguments, Maintains Exact (find item arguments)) :
    ∀ ts : List ExpressionTemplate, Maintains Exact (rebuildExpressions find ts)
  | [] => by
    rw [rebuildExpressions]
    exact .pure []
  | t :: ts => by
    rw [rebuildExpressions]
    exact (rebuildExpression_exact hfind t).bind fun i => (rebuildExpressions_exact hfind ts).bind fun is => .pure (i :: is)

end

/-- What simplifying does: nothing for a plain item. -/
theorem tryToSimplify_exact {find : AssemblyItem → List Id → M Id} (hfind : ∀ item arguments, Maintains Exact (find item arguments))
    (expr : Expression) {s : ExpressionClasses} (hs : Exact s) :
    Runs (tryToSimplify find expr) s (fun r s' => Exact s' ∧ (expr.item.Plain → r = none ∧ s' = s)) fun _ s' => Exact s' := by
  rw [tryToSimplify, runs_bind, runs_get, runs_bind, runs_lift]
  refine ⟨fun r hr => ?_, fun _ _ => hs⟩
  cases r with
  | none => exact ⟨hs, fun _ => ⟨rfl, rfl⟩⟩
  | some t =>
    dsimp only
    rw [runs_bind]
    refine (rebuildExpression_exact hfind t s hs).mono (fun i s' hs' => ⟨hs', fun hplain => ?_⟩) fun _ _ h => h
    rw [simplified_plain _ hplain] at hr
    cases hr

/-- What is found for a plain item, and that the other classes stay. -/
theorem find_exact (n : Nat) (item : AssemblyItem) (arguments : List Id) (sequenceNumber : Nat) {s : ExpressionClasses} (hs : Exact s) :
    Runs (find n item arguments sequenceNumber) s (fun i s' => Exact s' ∧
      (item.Plain → s'.m_representatives[i]? = some ⟨i, item, arguments, sequenceNumber⟩)) fun _ s' => Exact s' := by
  induction n generalizing s item arguments sequenceNumber with
  | zero => exact hs
  | succ n ih =>
    have hfind : ∀ item arguments, Maintains Exact (find n item arguments 0) := by
      intro item arguments s hs
      exact (ih item arguments 0 hs).mono (fun _ _ h => h.1) fun _ _ h => h
    rw [find, ← ordered, runs_bind, runs_get]
    dsimp only
    generalize he : (if isDeterministic item then
      s.m_expressions.find? (Expression.same ⟨0, item, ordered item arguments, sequenceNumber⟩) else none) = found
    cases found with
    | some e =>
      refine ⟨hs, fun hplain => ?_⟩
      by_cases hd : isDeterministic item = true
      case neg =>
        rw [if_neg hd] at he
        cases he
      rw [if_pos hd] at he
      have hsame : Expression.same ⟨0, item, ordered item arguments, sequenceNumber⟩ e = true := List.find?_some he
      obtain ⟨hitem, harguments, hsequence⟩ := of_decide_eq_true hsame
      dsimp only at hitem harguments hsequence
      rw [ordered_plain hplain] at harguments
      rw [hs e (List.mem_of_find?_eq_some he) (hitem ▸ hplain), hitem, harguments, hsequence]
    | none =>
      dsimp only
      rw [runs_bind]
      refine (tryToSimplify_exact hfind _ hs).mono (fun r s₁ hr => ?_) fun _ _ h => h
      obtain ⟨hs₁, hnone⟩ := hr
      rw [runs_bind, runs_get]
      split
      case h_1 i hi =>
        have hnot : ¬ item.Plain := by
          intro hplain
          rw [(hnone hplain).1] at hi
          cases hi
        rw [runs_bind, runs_modify]
        exact ⟨hs₁.insert fun hplain => absurd hplain hnot, fun hplain => absurd hplain hnot⟩
      case h_2 =>
        rw [runs_bind, runs_modify, runs_bind, runs_modify]
        have hclass := getElem?_represent ⟨0, item, ordered item arguments, sequenceNumber⟩ s₁
        refine ⟨(hs₁.represent ⟨0, item, ordered item arguments, sequenceNumber⟩).insert fun _ => hclass, fun hplain => ?_⟩
        rw [insert_representatives]
        rw [ordered_plain hplain] at hclass ⊢
        exact hclass

theorem newClass_exact : Maintains Exact newClass := by
  intro s hs
  rw [newClass, runs_bind, runs_get]
  dsimp only
  rw [runs_bind, runs_modify, runs_bind, runs_modify]
  exact (hs.represent ⟨s.m_representatives.length,
    ⟨.UndefinedItem, (1 <<< 255) + BitVec.ofNat 256 s.m_representatives.length, fun h => by cases h⟩, [], 0⟩).insert fun _ => getElem?_represent _ s

theorem Reached.exact {s : ExpressionClasses} (hs : Reached s) : Exact s := by
  induction hs with
  | start => exact fun e he => absurd he List.not_mem_nil
  | find _ _ _ _ hfind ih => exact ((find_exact _ _ _ _ ih).of_ok hfind).1
  | newClass _ hnew ih => exact Runs.of_ok (newClass_exact _ ih) hnew

end ExpressionClasses

/-! ## Runs of known states -/

open ExpressionClasses (Id Reached Extends valueOf)

namespace KnownState

open SemanticInformation

/-! ## Histories -/

/-- What is done to the memory. -/
inductive Effect where
  | keeps
  | stores (slot value : Id)
  | changes
deriving DecidableEq, Repr

structure Moment where
  sequenceNumber : Nat
  /-- What was done to the memory since the moment before. -/
  effect : Effect
deriving DecidableEq, Repr

/-- A hash that was computed: the classes of the operands, the words that were loaded if the length is short, the class that was
given, and the moment. -/
structure Hashing where
  start : Id
  length : Id
  words : Option (List Id)
  result : Id
  moment : Nat
deriving DecidableEq, Repr

structure History where
  moments : List Moment
  hashings : List Hashing
deriving DecidableEq, Repr

namespace History

/-- The history of a new known state. -/
def start : History := ⟨[⟨1, .changes⟩], []⟩

/-- The number of the last moment. -/
def now (h : History) : Nat := h.moments.length - 1

/-- One more moment. -/
def next (h : History) (sequenceNumber : Nat) (effect : Effect) (hashings : List Hashing) : History :=
  ⟨h.moments ++ [⟨sequenceNumber, effect⟩], h.hashings ++ hashings⟩

end History

/-! ## Machines -/

/-- The word at an address. -/
def word (m : ByteMemory 256) (a : U256) : U256 := BitVec.ofNat 256 (fromBigEndian (m.read a 32))

/-- The memory after `MSTORE`. -/
def storeWord (m : ByteMemory 256) (a v : U256) : ByteMemory 256 := m.write a (H256.ofU256 v).bytes

/-- How the memory may change where the classes have values. -/
def Effect.Holds (V : Id → U256) (m m' : ByteMemory 256) : Effect → Prop
  | .keeps => m' = m
  | .stores slot value => m' = storeWord m (V slot) (V value)
  | .changes => True

/-- Values for the base classes, and the memory at every moment. -/
structure Machine where
  base : Id → U256
  memory : Nat → ByteMemory 256

/-- The value of a class. -/
def Machine.value (μ : Machine) (s : ExpressionClasses) (i : Id) : U256 := valueOf μ.base s.m_representatives i

/-- The bytes that are hashed. -/
def Machine.hashed (μ : Machine) (s : ExpressionClasses) (o : Hashing) : Bytes :=
  (μ.memory o.moment).read (μ.value s o.start) (μ.value s o.length).toNat

structure Consistent (sha3 : Bytes → U256) (μ : Machine) (s : ExpressionClasses) (h : History) : Prop where
  effects : ∀ t x, h.moments[t + 1]? = some x → x.effect.Holds (μ.value s) (μ.memory t) (μ.memory (t + 1))
  loads : ∀ e ∈ s.m_representatives, e.item = .ofInstruction .MLOAD → ∀ a, e.arguments = [a] →
    ∀ t x, h.moments[t]? = some x → x.sequenceNumber = e.sequenceNumber → μ.value s e.id = word (μ.memory t) (μ.value s a)
  hashes : ∀ e ∈ s.m_representatives, e.item = .ofInstruction .SHA3 → ∀ a l, e.arguments = [a, l] →
    ∀ t x, h.moments[t]? = some x → x.sequenceNumber = e.sequenceNumber →
      μ.value s e.id = sha3 ((μ.memory t).read (μ.value s a) (μ.value s l).toNat)

/-- Two hashes have the same class only if they hash the same bytes, as many of them, in every consistent machine. -/
def Distinguishes (sha3 : Bytes → U256) (s : ExpressionClasses) (h : History) : Prop :=
  ∀ o ∈ h.hashings, ∀ o' ∈ h.hashings, o.result = o'.result → ∀ μ, Consistent sha3 μ s h → μ.hashed s o = μ.hashed s o'

/-! ## Runs -/

section

variable (sha3 : Bytes → U256) (n : Nat)

/-- The words that are loaded if the length is short. -/
def shortWords (σ : KnownState) (start length : Id) (s : ExpressionClasses) : Option (List Id) :=
  match shortLength length s with
  | .ok (some l) s =>
    match loadWords n start (offsets l) σ s with
    | .ok (words, _) _ => some words
    | .error _ _ => none
  | _ => none

/-- What an item that is fed does to the memory, and the hash that it computes. -/
def observed (item : AssemblyItem) (σ : KnownState) (s : ExpressionClasses) (moment : Nat) : Option (Effect × List Hashing) :=
  if item.type ≠ .Operation then some (.keeps, [])
  else
    match item.instruction with
    | .MSTORE =>
      match stackArguments n σ.m_stackHeight 2 σ s with
      | .ok ([slot, value], _) _ => some (.stores slot value, [])
      | _ => none
    | .SHA3 =>
      match stackArguments n σ.m_stackHeight 2 σ s with
      | .ok ([start, length], σ) s =>
        match applySha3 sha3 n σ start length s with
        | .ok (v, _) _ => some (.keeps, [⟨start, length, shortWords n σ start length s, v, moment⟩])
        | .error _ _ => none
      | _ => none
    | instruction => some (if invalidatesMemory instruction then .changes else .keeps, [])

/-- The constant that a class is. -/
def constantOf (s : ExpressionClasses) (i : Id) : Option U256 :=
  match s.m_representatives[i]? with
  | none => none
  | some e => if e.item.type = .Push then some e.item.data else none

/-- The bytes that are hashed where the words are known constants. -/
def knownData (s : ExpressionClasses) (o : Hashing) : Option Bytes :=
  match o.words, constantOf s o.length with
  | some words, some l =>
    let constants := words.map (constantOf s)
    if constants.all Option.isSome then some (dataOf constants.reduceOption l) else none
  | _, _ => none

/-- The known constants that are hashed have different hashes. -/
def Collisionless (s : ExpressionClasses) (h : History) : Prop :=
  ∀ o ∈ h.hashings, ∀ o' ∈ h.hashings, ∀ d ∈ knownData s o, ∀ d' ∈ knownData s o', sha3 d = sha3 d' → d = d'

/-- A hash that is taken over for the words was computed before, for as many bytes of them. -/
def SameLength (σ : KnownState) (s : ExpressionClasses) (h : History) (o : Hashing) : Prop :=
  ∀ words ∈ o.words, ∀ v ∈ σ.m_knownSha3Hashes.find words, ∃ o' ∈ h.hashings, o'.words = some words ∧ o'.result = v ∧
    constantOf s o'.length = constantOf s o.length

/-- The known states after any calls, with their histories, where `careful` says whether every step meets the condition. The classes
may be used by others in between, and where two states are reduced to their common knowledge, the machine may come from either. -/
inductive Run (careful : Bool) : ExpressionClasses → KnownState → History → Prop
  | start {s : ExpressionClasses} : Reached s → Run careful s {} .start
  | others {s s' : ExpressionClasses} {σ : KnownState} {h : History} :
      Run careful s σ h → Reached s' → Extends s s' → Run careful s' σ h
  | feedItem {s s' : ExpressionClasses} {σ σ' : KnownState} {h : History} {item : AssemblyItem} {op : Option StoreOperation}
      {effect : Effect} {hashings : List Hashing} : Run careful s σ h → observed sha3 n item σ s h.now = some (effect, hashings) →
      feedItem sha3 n item σ s = .ok (op, σ') s' → (careful = true → ∀ o ∈ hashings, SameLength σ s' h o) →
      Run careful s' σ' (h.next σ'.m_sequenceNumber effect hashings)
  | resetStorage {s : ExpressionClasses} {σ : KnownState} {h : History} : Run careful s σ h → Run careful s σ.resetStorage h
  | resetMemory {s : ExpressionClasses} {σ : KnownState} {h : History} : Run careful s σ h → Run careful s σ.resetMemory h
  | resetStack {s : ExpressionClasses} {σ : KnownState} {h : History} : Run careful s σ h → Run careful s σ.resetStack h
  | stackElement {s s' : ExpressionClasses} {σ σ' : KnownState} {h : History} {stackHeight : Int} {c : Id} :
      Run careful s σ h → stackElement n σ stackHeight s = .ok (c, σ') s' → Run careful s' σ' h
  | clearTagUnions {s : ExpressionClasses} {σ : KnownState} {h : History} : Run careful s σ h → Run careful s σ.clearTagUnions h
  | reduce {s s' : ExpressionClasses} {σ σ' other : KnownState} {h h' : History} {combine : Bool} :
      Run careful s σ h → Run careful s other h' → reduceToCommonKnowledge σ other combine s = .ok σ' s' →
      Run careful s' σ' (h.next σ'.m_sequenceNumber .keeps [])
  | joined {s s' : ExpressionClasses} {σ σ' other : KnownState} {h h' : History} {combine : Bool} :
      Run careful s σ h → Run careful s other h' → reduceToCommonKnowledge σ other combine s = .ok σ' s' →
      (careful = true → other.m_sequenceNumber ≤ σ'.m_sequenceNumber) → Run careful s' σ' (h'.next σ'.m_sequenceNumber .keeps [])

end

end KnownState

end Webthree
