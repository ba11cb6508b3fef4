import Webthree.Lemmas.FindCalls

/-!
# Expression classes

Whatever expressions are found and whatever values the base classes are given, a class has the value that the machine computes for
its instruction, and classes that are known to be different have different values.
-/

namespace Webthree

open ExpressionClasses (Id)

namespace ExpressionClasses

open Pattern SemanticInformation

/-- How often `find` may have to recurse. -/
def levels : Nat := 6

/-- The classes after any calls of `find` and `newClass`. The arguments are classes, and as many as the instruction takes; this is
asserted where a pattern is matched. -/
inductive Reached : ExpressionClasses → Prop
  | start : Reached ⟨[], []⟩
  | find {s s' : ExpressionClasses} {n : Nat} {item : AssemblyItem} {arguments : List Id} {sequenceNumber : Nat} {i : Id} :
      Reached s → levels ≤ n → (∀ a ∈ arguments, a < s.m_representatives.length) →
      (∀ k, item.arity = some k → arguments.length = k) → find n item arguments sequenceNumber s = .ok i s' → Reached s'
  | newClass {s s' : ExpressionClasses} {i : Id} : Reached s → newClass s = .ok i s' → Reached s'

theorem settled_start : Settled ⟨[], []⟩ where
  numbered := fun i e h => by cases h
  before := fun e h => absurd h List.not_mem_nil
  known := fun e h => absurd h List.not_mem_nil
  value := fun e h => absurd h List.not_mem_nil
  arity := fun e h => absurd h List.not_mem_nil
  inOrder := fun e h => absurd h List.not_mem_nil
  simple := fun e h => absurd h List.not_mem_nil
  pushes := fun e h => absurd h List.not_mem_nil

theorem newClass_returns {s : ExpressionClasses} (hs : Settled s) : Returns newClass s Below := by
  have hkeeps := newClass_keeps hs.toConsistent
  suffices hsimple : Runs newClass s (fun _ s' => Simple s') fun _ _ => False by
    refine (Runs.and hkeeps hsimple).mono (fun i s' h => ?_) fun _ _ h => h.2
    exact ⟨⟨h.1.1, h.2⟩, h.1.2.1, h.1.2.2⟩
  have harity : ∀ k, AssemblyItem.arity
      ⟨.UndefinedItem, (1 <<< 255) + BitVec.ofNat 256 s.m_representatives.length, fun h => by cases h⟩ = some k →
      ([] : List Id).length = k := fun k hk => by cases hk
  exact hs.toSimple.represent harity rfl

theorem find_settled {n : Nat} (hn : levels ≤ n) {s : ExpressionClasses} (hs : Settled s) {item : AssemblyItem} {arguments : List Id}
    (hargs : ∀ a ∈ arguments, a < s.m_representatives.length) (harity : ∀ k, item.arity = some k → arguments.length = k)
    (sequenceNumber : Nat) : Returns (find n item arguments sequenceNumber) s (Denotes item arguments) := by
  obtain ⟨k, rfl⟩ := Nat.exists_eq_add_of_le' hn
  exact six_levels hs hargs harity

theorem Reached.settled {s : ExpressionClasses} (hs : Reached s) : Settled s := by
  induction hs with
  | start => exact settled_start
  | find _ hn hargs harity hfind ih => exact ((find_settled hn ih hargs harity _).of_ok hfind).1
  | newClass _ hnew ih => exact ((newClass_returns ih).of_ok hnew).1

/-! ## What is known -/

/-- A class has the value of the instruction on the values of the arguments. -/
theorem find_value {s : ExpressionClasses} (hs : Reached s) {n : Nat} (hn : levels ≤ n) {item : AssemblyItem} {arguments : List Id}
    (hargs : ∀ a ∈ arguments, a < s.m_representatives.length) (harity : ∀ k, item.arity = some k → arguments.length = k)
    (sequenceNumber : Nat) : ∃ i s', find n item arguments sequenceNumber s = .ok i s' ∧ Reached s' ∧ Extends s s' ∧
      i < s'.m_representatives.length ∧ ∀ β v, itemValue item (arguments.map (valueOf β s'.m_representatives)) = some v →
        valueOf β s'.m_representatives i = v := by
  obtain ⟨i, s', hfind, hs', hextends, hi, hvalue⟩ := (find_settled hn hs.settled hargs harity sequenceNumber).exists_ok
  exact ⟨i, s', hfind, hs.find hn hargs harity hfind, hextends, hi, fun β => hvalue _ (hs'.respects β)⟩

theorem representative_eq {s : ExpressionClasses} {i : Id} (hi : i < s.m_representatives.length) :
    ∃ e, representative i s = .ok e s ∧ e ∈ s.m_representatives ∧ s.m_representatives[i]? = some e := by
  refine ⟨s.m_representatives[i], ?_, List.getElem_mem hi, List.getElem?_eq_getElem hi⟩
  simp only [representative, get, getThe, MonadStateOf.get, estate_get, bind, EStateM.bind, List.getElem?_eq_getElem hi]
  rfl

/-- A class of which the expression is a constant has its value. -/
theorem valueOf_constant {s : ExpressionClasses} (hs : Reached s) {i : Id} {e : Expression} (hi : s.m_representatives[i]? = some e)
    (hp : e.item.type = .Push) (β : Id → U256) : valueOf β s.m_representatives i = e.item.data := by
  rw [← hs.settled.numbered i e hi]
  exact hs.settled.respects β e (List.mem_of_getElem? hi) _ (itemValue_push hp _)

theorem itemValue_ofInstruction {o : Instruction} (ho : (operator o).isSome = true) (args : List U256) :
    itemValue (.ofInstruction o) args = arith o args := by
  rw [itemValue_operation rfl, instruction_ofInstruction ho]

/-- A subtraction is found, and has the value of the difference. -/
theorem find_difference {s : ExpressionClasses} (hs : Reached s) {n : Nat} (hn : levels ≤ n) {a b : Id} (ha : a < s.m_representatives.length)
    (hb : b < s.m_representatives.length) : ∃ d s', find n (.ofInstruction .SUB) [a, b] 0 s = .ok d s' ∧ Reached s' ∧ Extends s s' ∧
      d < s'.m_representatives.length ∧ ∀ β, valueOf β s'.m_representatives d =
        valueOf β s.m_representatives a - valueOf β s.m_representatives b := by
  have harity : ∀ k, (AssemblyItem.ofInstruction .SUB).arity = some k → [a, b].length = k := fun k hk => by cases hk; rfl
  obtain ⟨d, s', hfind, hs', hextends, hd, hvalue⟩ := find_value hs hn (below_two ha hb) harity 0
  refine ⟨d, s', hfind, hs', hextends, hd, fun β => hvalue β _ ?_⟩
  rw [List.map_cons, List.map_cons, hextends.valueOf_eq β ha, hextends.valueOf_eq β hb]
  exact itemValue_ofInstruction rfl _

theorem knownNonZero_value {s : ExpressionClasses} (hs : Reached s) {n : Nat} (hn : levels ≤ n) {c : Id}
    (hc : c < s.m_representatives.length) : ∃ r s', knownNonZero n c s = .ok r s' ∧ Reached s' ∧
      (r = true → ∀ β, valueOf β s.m_representatives c ≠ 0) := by
  have hbelow : ∀ a ∈ [c], a < s.m_representatives.length := fun a ha => List.mem_singleton.mp ha ▸ hc
  have harity : ∀ k, (AssemblyItem.ofInstruction .ISZERO).arity = some k → [c].length = k := fun k hk => by cases hk; rfl
  obtain ⟨i, s', hfind, hs', hextends, hi, hvalue⟩ := find_value hs hn hbelow harity 0
  obtain ⟨e, hrep, _, he⟩ := representative_eq hi
  refine ⟨(Pattern.value 0).matchesBaseItem e.item, s', ?_, hs', fun hr β hzero => ?_⟩
  · rw [knownNonZero]
    exact bind_eq_result_ok.mpr ⟨i, s', hfind, bind_eq_result_ok.mpr ⟨e, s', hrep, rfl⟩⟩
  · -- the class is that of the constant 0, and has the value of the comparison
    obtain ⟨ht, hd⟩ := (matchesBaseItem_iff.mp hr).resolve_left (by decide)
    have hconst := valueOf_constant hs' he ht.symm β
    have hflag := hvalue β (VM.flag (valueOf β s'.m_representatives c = 0)) (itemValue_ofInstruction rfl _)
    rw [hextends.valueOf_eq β hc, hzero] at hflag
    rw [hconst, ← hd rfl] at hflag
    exact absurd hflag (by decide)

theorem knownToBeDifferent_value {s : ExpressionClasses} (hs : Reached s) {n : Nat} (hn : levels ≤ n) {a b : Id}
    (ha : a < s.m_representatives.length) (hb : b < s.m_representatives.length) : ∃ r s', knownToBeDifferent n a b s = .ok r s' ∧
      Reached s' ∧ (r = true → ∀ β, valueOf β s.m_representatives a ≠ valueOf β s.m_representatives b) := by
  obtain ⟨d, s₁, hfind, hs₁, _, hd, hvalue⟩ := find_difference hs hn ha hb
  obtain ⟨r, s', hknown, hs', hr⟩ := knownNonZero_value hs₁ hn hd
  refine ⟨r, s', ?_, hs', fun htrue β heq => hr htrue β ?_⟩
  · rw [knownToBeDifferent]
    exact bind_eq_result_ok.mpr ⟨d, s₁, hfind, hknown⟩
  · rw [hvalue, heq]
    exact BitVec.sub_self _

/-- Outside of the interval, the difference is large in both directions. -/
theorem far_apart {x y : U256} (h : x - y + 31 > 62) : 32 ≤ (x - y).toNat ∧ 32 ≤ (y - x).toNat := by
  bv_omega

theorem knownToBeDifferentBy32_value {s : ExpressionClasses} (hs : Reached s) {n : Nat} (hn : levels ≤ n) {a b : Id}
    (ha : a < s.m_representatives.length) (hb : b < s.m_representatives.length) : ∃ r s', knownToBeDifferentBy32 n a b s = .ok r s' ∧
      Reached s' ∧ (r = true → ∀ β, 32 ≤ (valueOf β s.m_representatives a - valueOf β s.m_representatives b).toNat ∧
        32 ≤ (valueOf β s.m_representatives b - valueOf β s.m_representatives a).toNat) := by
  obtain ⟨d, s', hfind, hs', _, hd, hvalue⟩ := find_difference hs hn ha hb
  obtain ⟨e, hrep, _, he⟩ := representative_eq hd
  by_cases hp : (Pattern.constant 1).matchesBaseItem e.item = true
  · refine ⟨decide (e.item.data + 31 > 62), s', ?_, hs', fun htrue β => ?_⟩
    · rw [knownToBeDifferentBy32]
      refine bind_eq_result_ok.mpr ⟨d, s', hfind, bind_eq_result_ok.mpr ⟨some e.item.data, s', ?_, rfl⟩⟩
      rw [knownConstant]
      exact bind_eq_result_ok.mpr ⟨e, s', hrep, by rw [if_pos hp]; rfl⟩
    · obtain ⟨ht, _⟩ := (matchesBaseItem_iff.mp hp).resolve_left (by decide)
      have hconst := valueOf_constant hs' he ht.symm β
      rw [hvalue] at hconst
      exact far_apart (hconst ▸ of_decide_eq_true htrue)
  · refine ⟨false, s', ?_, hs', fun h => by cases h⟩
    rw [knownToBeDifferentBy32]
    refine bind_eq_result_ok.mpr ⟨d, s', hfind, bind_eq_result_ok.mpr ⟨none, s', ?_, rfl⟩⟩
    rw [knownConstant]
    exact bind_eq_result_ok.mpr ⟨e, s', hrep, by rw [if_neg hp]; rfl⟩

/-- An instruction of the rules has a value for as many arguments as it takes. -/
theorem itemValue_of_arity {item : AssemblyItem} {k : Nat} (hk : item.arity = some k) {args : List U256} (hargs : args.length = k) :
    ∃ v, itemValue item args = some v ∧ arith item.instruction args = some v := by
  rw [AssemblyItem.arity] at hk
  by_cases ht : item.type = .Operation
  case neg =>
    rw [if_neg ht] at hk
    cases hk
  rw [if_pos ht] at hk
  obtain ⟨o, ho, rfl⟩ := Option.map_eq_some_iff.mp hk
  rw [itemValue_operation ht, arith, ho]
  cases o with
  | unary f =>
    obtain ⟨a, rfl⟩ := List.length_eq_one_iff.mp hargs
    exact ⟨f a, rfl, rfl⟩
  | binary f =>
    obtain ⟨a, b, rfl⟩ := List.length_eq_two.mp hargs
    exact ⟨f a b, rfl, rfl⟩
  | ternary f =>
    obtain ⟨a, b, c, rfl⟩ := List.length_eq_three.mp hargs
    exact ⟨f a b c, rfl, rfl⟩

/-- A base class has any value that it is given. -/
theorem valueOf_base {s : ExpressionClasses} (hs : Reached s) (β : Id → U256) {e : Expression} (he : e ∈ s.m_representatives)
    (hp : e.item.type ≠ .Push) (ha : e.item.arity = none) : valueOf β s.m_representatives e.id = β e.id := by
  have hnone : e.value (valueOf β s.m_representatives) = none := by
    rw [Expression.value, itemValue]
    split
    case h_1 h => exact absurd h hp
    case h_2 h =>
      rw [AssemblyItem.arity, if_pos h, Option.map_eq_none_iff] at ha
      rw [arith, ha]
      rfl
    case h_3 => rfl
  rw [valueOf_id hs.settled.numbered hs.settled.before he, hnone]
  rfl

/-- Whatever values the base classes are given: constants have their value, the class that is found for an instruction has the value
that the machine leaves on the stack for the values of the arguments, and classes that are known to be different have different values,
that are known to be different by 32, values that are 32 apart in both directions. -/
theorem classes_denote {s : ExpressionClasses} (hs : Reached s) {n : Nat} (hn : levels ≤ n) :
    (∀ item arguments sequenceNumber, (∀ a ∈ arguments, a < s.m_representatives.length) →
      (∀ k, item.arity = some k → arguments.length = k) →
      ∃ i s', find n item arguments sequenceNumber s = .ok i s' ∧ Reached s' ∧ i < s'.m_representatives.length ∧ ∀ β,
        (∀ j < s.m_representatives.length, valueOf β s'.m_representatives j = valueOf β s.m_representatives j) ∧
        (item.type = .Push → valueOf β s'.m_representatives i = item.data) ∧
        (∀ k, item.arity = some k → ∀ (σ : Type) (F : ExtVMFace σ) (frame : Frame σ) (rest : List U256),
          frame.m_stack = arguments.map (valueOf β s.m_representatives) ++ rest →
          VM.execOrdinaryOpcode F item.instruction frame =
            .ok (frame.m_curPC + 1) { frame with m_stack := valueOf β s'.m_representatives i :: rest })) ∧
    (∀ β, ∀ e ∈ s.m_representatives, e.item.type ≠ .Push → e.item.arity = none → valueOf β s.m_representatives e.id = β e.id) ∧
    (∀ a b, a < s.m_representatives.length → b < s.m_representatives.length →
      (∃ r s', knownToBeDifferent n a b s = .ok r s' ∧ Reached s' ∧
        (r = true → ∀ β, valueOf β s.m_representatives a ≠ valueOf β s.m_representatives b)) ∧
      ∃ r s', knownToBeDifferentBy32 n a b s = .ok r s' ∧ Reached s' ∧
        (r = true → ∀ β, 32 ≤ (valueOf β s.m_representatives a - valueOf β s.m_representatives b).toNat ∧
          32 ≤ (valueOf β s.m_representatives b - valueOf β s.m_representatives a).toNat)) := by
  refine ⟨fun item arguments sequenceNumber hargs harity => ?_, fun β e he hp ha => valueOf_base hs β he hp ha, fun a b ha hb =>
    ⟨knownToBeDifferent_value hs hn ha hb, knownToBeDifferentBy32_value hs hn ha hb⟩⟩
  obtain ⟨i, s', hfind, hs', hextends, hi, hvalue⟩ := find_value hs hn hargs harity sequenceNumber
  refine ⟨i, s', hfind, hs', hi, fun β => ⟨fun j hj => hextends.valueOf_eq β hj, fun hp => hvalue β _ (itemValue_push hp _), ?_⟩⟩
  intro k hk σ F frame rest hstack
  have hmap : arguments.map (valueOf β s'.m_representatives) = arguments.map (valueOf β s.m_representatives) :=
    List.map_congr_left fun a ha => hextends.valueOf_eq β (hargs a ha)
  have hlength : (arguments.map (valueOf β s.m_representatives)).length = k := by rw [List.length_map, harity k hk]
  obtain ⟨v, hv⟩ := itemValue_of_arity hk hlength
  rw [hvalue β v (by rw [hmap]; exact hv.1)]
  exact VM.exec_arith F hv.2 hstack

/-- The negation of the constant 7. -/
theorem classes_denote_sample : ∃ s i s', Reached s ∧ find levels (.ofInstruction .NOT) [0] 0 s = .ok i s' ∧
    ∀ (σ : Type) (F : ExtVMFace σ) (frame : Frame σ), frame.m_stack = [7] → VM.execOrdinaryOpcode F .NOT frame =
      .ok (frame.m_curPC + 1) { frame with m_stack := [valueOf (fun _ => 0) s'.m_representatives i] } := by
  have hfind : find levels (.push 7) [] 0 ⟨[], []⟩ = .ok 0 ⟨[⟨0, .push 7, [], 0⟩], [⟨0, .push 7, [], 0⟩]⟩ := by rfl
  have hs : Reached ⟨[⟨0, .push 7, [], 0⟩], [⟨0, .push 7, [], 0⟩]⟩ :=
    Reached.start.find (le_refl _) (fun a ha => absurd ha List.not_mem_nil) (fun k hk => by cases hk) hfind
  obtain ⟨i, s', hnot, _, _, hdenotes⟩ := (classes_denote hs (le_refl _)).1 (.ofInstruction .NOT) [0] 0
    (fun a ha => by rw [List.mem_singleton.mp ha]; decide) fun k hk => by cases hk; rfl
  refine ⟨_, i, s', hs, hnot, fun σ F frame hstack => ?_⟩
  exact (hdenotes fun _ => 0).2.2 1 rfl σ F frame [] hstack

/-! ## Every call ends -/

/-- The classes after any calls of `find` that end, of whatever items, and of `newClass`. -/
inductive Called : ExpressionClasses → Prop
  | start : Called ⟨[], []⟩
  | find {s : ExpressionClasses} {n : Nat} {item : AssemblyItem} {arguments : List Id} {sequenceNumber : Nat} : Called s →
      (∀ a ∈ arguments, a < s.m_representatives.length) → raised (find n item arguments sequenceNumber s) ≠ some .tooDeep →
      Called (endState (find n item arguments sequenceNumber s))
  | newClass {s : ExpressionClasses} : Called s → Called (endState (newClass s))

/-- A call finds a class or throws because of the number of the arguments. -/
theorem find_ends {n : Nat} (hn : levels ≤ n) {s : ExpressionClasses} (hs : Settled s) {item : AssemblyItem} {arguments : List Id}
    (hargs : ∀ a ∈ arguments, a < s.m_representatives.length) (sequenceNumber : Nat) :
    (∃ i s', find n item arguments sequenceNumber s = .ok i s' ∧ Settled s' ∧ i < s'.m_representatives.length) ∨
    find n item arguments sequenceNumber s = .error .OptimizerException s ∧ ∃ k, item.arity = some k ∧ arguments.length ≠ k := by
  by_cases harity : ∀ k, item.arity = some k → arguments.length = k
  · obtain ⟨i, s', hfind, hs', -, hi⟩ := (find_settled hn hs hargs harity sequenceNumber).exists_ok
    exact .inl ⟨i, s', hfind, hs', hi.1⟩
  · push Not at harity
    obtain ⟨k, hk, hcount⟩ := harity
    obtain ⟨m, rfl⟩ := Nat.exists_eq_add_of_le' hn
    rcases find_mismatch hs hk hcount with hthrows | ⟨i, hfind, hi⟩
    · exact .inr ⟨hthrows, k, hk, hcount⟩
    · exact .inl ⟨i, s, hfind, hs, hi⟩

theorem find_not_cutOff {n : Nat} (hn : levels ≤ n) {s : ExpressionClasses} (hs : Settled s) {item : AssemblyItem} {arguments : List Id}
    (hargs : ∀ a ∈ arguments, a < s.m_representatives.length) (sequenceNumber : Nat) :
    raised (find n item arguments sequenceNumber s) ≠ some .tooDeep := by
  rcases find_ends hn hs hargs sequenceNumber with ⟨i, s', hfind, -⟩ | ⟨hthrows, -⟩
  · rw [hfind]
    exact nofun
  · rw [hthrows]
    exact nofun

theorem Called.settled {s : ExpressionClasses} (hs : Called s) : Settled s := by
  induction hs with
  | start => exact settled_start
  | @find s n item arguments sequenceNumber _ hargs hcut ih =>
    rw [levels_eq (fun n => find_succ n item arguments sequenceNumber) hcut (find_not_cutOff (le_refl _) ih hargs sequenceNumber)]
    rcases find_ends (le_refl _) ih hargs sequenceNumber with ⟨i, s', hfind, hs', -⟩ | ⟨hthrows, -⟩
    · rw [hfind]
      exact hs'
    · rw [hthrows]
      exact ih
  | newClass _ ih =>
    obtain ⟨i, s', hnew, hs', -⟩ := (newClass_returns ih).exists_ok
    rw [hnew]
    exact hs'

/-- After any calls, a call for any item and any arguments ends: it makes no chain of calls within calls that is as long as `levels`, and
more levels change nothing. It finds a class, or throws where the arguments are not as many as the instruction takes. No class has an
expression that a rule is for, so what an expression was rewritten to is not rewritten again. -/
theorem find_terminates {s : ExpressionClasses} (hs : Called s) {item : AssemblyItem} {arguments : List Id}
    (hargs : ∀ a ∈ arguments, a < s.m_representatives.length) (sequenceNumber : Nat) :
    (∀ calls, List.IsChain Nested (⟨s, item, arguments, sequenceNumber⟩ :: calls) → calls.length < levels) ∧
    (∀ n, levels ≤ n → find n item arguments sequenceNumber s = find levels item arguments sequenceNumber s) ∧
    ((∃ i s', find levels item arguments sequenceNumber s = .ok i s' ∧ Called s' ∧ i < s'.m_representatives.length) ∨
      find levels item arguments sequenceNumber s = .error .OptimizerException s ∧ ∃ k, item.arity = some k ∧ arguments.length ≠ k) ∧
    ∀ e ∈ s.m_representatives, simplified s.m_representatives { e with id := 0 } = .ok none := by
  have hcut : ∀ n, levels ≤ n → raised (find n item arguments sequenceNumber s) ≠ some .tooDeep :=
    fun n hn => find_not_cutOff hn hs.settled hargs sequenceNumber
  have hsucc := fun n => find_succ n item arguments sequenceNumber
  refine ⟨fun calls hchain => ?_, fun n hn => levels_eq hsucc (hcut n hn) (hcut levels (le_refl _)), ?_, hs.settled.simple⟩
  · by_contra hlong
    exact hcut calls.length (Nat.le_of_not_lt hlong) (chain_cutOff hchain)
  · rcases find_ends (le_refl _) hs.settled hargs sequenceNumber with ⟨i, s', hfind, -, hi⟩ | hthrows
    · have hcalled := hs.find hargs (hcut levels (le_refl _))
      rw [hfind] at hcalled
      exact .inl ⟨i, s', hfind, hcalled, hi⟩
    · exact .inr hthrows

/-- A class subtracted from itself, and the negation of two classes. -/
theorem find_terminates_sample : ∃ s, Called s ∧ (∃ i s', find levels (.ofInstruction .SUB) [0, 0] 0 s = .ok i s' ∧ Called s') ∧
    find 100 (.ofInstruction .NOT) [0, 0] 0 s = .error .OptimizerException s := by
  have hs : Called (endState (newClass ⟨[], []⟩)) := Called.start.newClass
  have hargs : ∀ a ∈ [0, 0], a < (endState (newClass ⟨[], []⟩)).m_representatives.length := by decide
  refine ⟨_, hs, ?_, ?_⟩
  · rcases (find_terminates hs hargs 0).2.2.1 with ⟨i, s', hfind, hs', -⟩ | ⟨-, k, hk, hcount⟩
    · exact ⟨i, s', hfind, hs'⟩
    · cases hk
      exact absurd rfl hcount
  · rw [(find_terminates hs hargs 0).2.1 100 (by decide)]
    rfl

end ExpressionClasses

end Webthree
