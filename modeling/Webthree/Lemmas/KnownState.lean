import Webthree.Lemmas.KnownRun
import Webthree.Core.FixedHash
import Mathlib.Data.List.ReduceOption

/-!
# What known states know

What the calls of a known state do to the classes: classes are only added, the known state only names classes that there are, and
the calls that are not about the memory leave what is known of it.

The invariant of the runs: what a known state says of the memory is true in every consistent machine, and every hash that was computed
has the class of an expression for the bytes that were hashed, be it their hash or the operation on an operand that has them.
-/

namespace Webthree

open ExpressionClasses (Id M Reached Extends Below valueOf find representative knownConstant)

namespace ExpressionClasses

/-! ## Computations that add classes -/

/-- If the computation returns, the classes are reached then and only more, and of what is returned `P` is true. -/
def Grows {α : Type} (m : M α) (s : ExpressionClasses) (P : α → ExpressionClasses → Prop) : Prop :=
  Runs m s (fun a s' => Reached s' ∧ Extends s s' ∧ P a s') fun _ _ => True

section

variable {α β : Type} {s : ExpressionClasses}

theorem Grows.pure (hs : Reached s) {a : α} {P : α → ExpressionClasses → Prop} (h : P a s) : Grows (pure a) s P := ⟨hs, Extends.refl s, h⟩

theorem Grows.throw (e : OptimizerError) {P : α → ExpressionClasses → Prop} : Grows (throw e) s P := trivial

/-- In a sequence, the classes grow with each part. -/
theorem Grows.bind {m : M α} {f : α → M β} {P : α → ExpressionClasses → Prop} {Q : β → ExpressionClasses → Prop} (h : Grows m s P)
    (hf : ∀ a s', Reached s' → Extends s s' → P a s' → Grows (f a) s' Q) : Grows (m >>= f) s Q := by
  rw [Grows, runs_bind]
  refine Runs.mono h (fun a s' ha => ?_) fun _ _ _ => trivial
  obtain ⟨hs', he, hP⟩ := ha
  refine Runs.mono (hf a s' hs' he hP) (fun b s'' hb => ?_) fun _ _ _ => trivial
  exact ⟨hb.1, he.trans hb.2.1, hb.2.2⟩

/-- A bind whose first part returns in the classes it was started in. -/
theorem Grows.bind_ok {m : M α} {f : α → M β} {a : α} {P : β → ExpressionClasses → Prop} (hm : m s = .ok a s) (hf : Grows (f a) s P) :
    Grows (m >>= f) s P := by
  rw [Grows, runs_bind, Runs, hm]
  exact hf

/-- What is said of the end can be weakened. -/
theorem Grows.mono {m : M α} {P Q : α → ExpressionClasses → Prop} (h : Grows m s P) (hPQ : ∀ a s', Reached s' → Extends s s' → P a s' → Q a s') :
    Grows m s Q := by
  refine Runs.mono h (fun a s' ha => ?_) fun _ _ _ => trivial
  exact ⟨ha.1, ha.2.1, hPQ a s' ha.1 ha.2.1 ha.2.2⟩

end

/-- A class stays one as the classes grow. -/
theorem Extends.below {s s' : ExpressionClasses} (h : Extends s s') {i : Id} (hi : Below i s) : Below i s' := lt_of_lt_of_le hi h.le

/-- Its representative stays the same. -/
theorem Extends.getElem?_eq {s s' : ExpressionClasses} (h : Extends s s') {i : Id} (hi : Below i s) :
    s'.m_representatives[i]? = s.m_representatives[i]? := by
  obtain ⟨classes, hclasses⟩ := h
  rw [← hclasses, List.getElem?_append_left hi]

/-- What is found has the value of the instruction, and for a plain item it is the class of the expression. -/
theorem grows_find {s : ExpressionClasses} (hs : Reached s) {n : Nat} (hn : levels ≤ n) {item : AssemblyItem} {arguments : List Id}
    (hargs : ∀ a ∈ arguments, Below a s) (harity : ∀ k, item.arity = some k → arguments.length = k) (sequenceNumber : Nat) :
    Grows (find n item arguments sequenceNumber) s fun i s' => Below i s' ∧
      (∀ β v, itemValue item (arguments.map (valueOf β s'.m_representatives)) = some v → valueOf β s'.m_representatives i = v) ∧
      (item.Plain → s'.m_representatives[i]? = some ⟨i, item, arguments, sequenceNumber⟩) := by
  obtain ⟨i, s', hfind, hs', hextends, hi, hvalue⟩ := find_value hs hn hargs harity sequenceNumber
  rw [Grows, Runs, hfind]
  refine ⟨hs', hextends, hi, hvalue, fun hplain => ?_⟩
  exact ((find_exact n item arguments sequenceNumber hs.exact).of_ok hfind).2 hplain

/-- A new class is one afterwards. -/
theorem grows_newClass {s : ExpressionClasses} (hs : Reached s) : Grows newClass s fun i s' => Below i s' := by
  obtain ⟨i, s', hnew, _, hextends, hi⟩ := (newClass_returns hs.settled).exists_ok
  rw [Grows, Runs, hnew]
  exact ⟨hs.newClass hnew, hextends, hi⟩

theorem grows_knownToBeDifferent {s : ExpressionClasses} (hs : Reached s) {n : Nat} (hn : levels ≤ n) {a b : Id} (ha : Below a s)
    (hb : Below b s) : Grows (knownToBeDifferent n a b) s fun _ _ => True := by
  have hbelow : ∀ c ∈ [a, b], Below c s := below_two ha hb
  rw [knownToBeDifferent]
  refine (grows_find hs hn hbelow (fun k hk => by cases hk; rfl) 0).bind fun d s₁ hs₁ _ hd => ?_
  rw [knownNonZero]
  have hone : ∀ c ∈ [d], Below c s₁ := fun c hc => List.mem_singleton.mp hc ▸ hd.1
  refine (grows_find hs₁ hn hone (fun k hk => by cases hk; rfl) 0).bind fun i s₂ hs₂ _ hi => ?_
  obtain ⟨e, hrep, _, _⟩ := representative_eq hi.1
  exact Grows.bind_ok hrep (Grows.pure hs₂ trivial)

/-- Whether a class is known to be a constant. -/
theorem knownConstant_eq {s : ExpressionClasses} {i : Id} (hi : Below i s) : knownConstant i s = .ok (KnownState.constantOf s i) s := by
  obtain ⟨e, hrep, _, he⟩ := representative_eq hi
  have hpush : (Pattern.constant 1).matchesBaseItem e.item = decide (e.item.type = .Push) := by
    rw [Bool.eq_iff_iff, Pattern.matchesBaseItem_iff, decide_eq_true_iff]
    constructor
    · rintro (h | h)
      · cases h
      · exact h.1.symm
    · intro h
      exact Or.inr ⟨h.symm, fun hd => by cases hd⟩
  rw [knownConstant, KnownState.constantOf, he]
  refine bind_eq_result_ok.mpr ⟨e, s, hrep, ?_⟩
  rw [hpush]
  simp only [decide_eq_true_eq]
  rfl

/-- A constant is the value of its class. -/
theorem valueOf_constantOf {s : ExpressionClasses} (hs : Reached s) {i : Id} {v : U256} (h : KnownState.constantOf s i = some v)
    (β : Id → U256) : valueOf β s.m_representatives i = v := by
  rw [KnownState.constantOf] at h
  cases he : s.m_representatives[i]? with
  | none =>
    rw [he] at h
    cases h
  | some e =>
    rw [he] at h
    dsimp only at h
    split at h
    · rename_i hp
      cases h
      exact valueOf_constant hs he hp β
    · cases h

/-- A constant stays one as the classes grow. -/
theorem constantOf_extends {s s' : ExpressionClasses} (h : Extends s s') {i : Id} (hi : Below i s) :
    KnownState.constantOf s' i = KnownState.constantOf s i := by
  rw [KnownState.constantOf, KnownState.constantOf, h.getElem?_eq hi]

theorem grows_knownToBeDifferentBy32 {s : ExpressionClasses} (hs : Reached s) {n : Nat} (hn : levels ≤ n) {a b : Id} (ha : Below a s)
    (hb : Below b s) : Grows (knownToBeDifferentBy32 n a b) s fun r _ => r = true → ∀ β,
      32 ≤ (valueOf β s.m_representatives a - valueOf β s.m_representatives b).toNat ∧
        32 ≤ (valueOf β s.m_representatives b - valueOf β s.m_representatives a).toNat := by
  have hbelow : ∀ c ∈ [a, b], Below c s := below_two ha hb
  obtain ⟨r, s', hknown, hs', hr⟩ := knownToBeDifferentBy32_value hs hn ha hb
  have hgrows : Grows (knownToBeDifferentBy32 n a b) s fun _ _ => True := by
    rw [knownToBeDifferentBy32]
    refine (grows_find hs hn hbelow (fun k hk => by cases hk; rfl) 0).bind fun d s₁ hs₁ _ hd => ?_
    refine Grows.bind_ok (knownConstant_eq hd.1) ?_
    cases KnownState.constantOf s₁ d with
    | none => exact Grows.pure hs₁ trivial
    | some v => exact Grows.pure hs₁ trivial
  rw [Grows, Runs, hknown] at hgrows ⊢
  exact ⟨hgrows.1, hgrows.2.1, hr⟩

end ExpressionClasses

namespace KnownState

open ExpressionClasses

/-! ## The classes of a known state -/

/-- The known state only names classes that there are. -/
structure Within (σ : KnownState) (s : ExpressionClasses) : Prop where
  stack : ∀ e ∈ σ.m_stackElements, Below e.2 s
  storage : ∀ e ∈ σ.m_storageContent, Below e.1 s ∧ Below e.2 s
  memory : ∀ e ∈ σ.m_memoryContent, Below e.1 s ∧ Below e.2 s
  tags : ∀ e ∈ σ.m_tagUnions, Below e.1 s

/-- What a state knows stays within the classes as they grow. -/
theorem Within.extends {σ : KnownState} {s s' : ExpressionClasses} (h : Within σ s) (he : Extends s s') : Within σ s' :=
  ⟨fun e hm => he.below (h.stack e hm), fun e hm => (h.storage e hm).imp he.below he.below,
    fun e hm => (h.memory e hm).imp he.below he.below, fun e hm => he.below (h.tags e hm)⟩

/-- What is known of the memory is not more, and the hashes are those that were known. -/
structure Calm (σ σ' : KnownState) : Prop where
  memory : ∀ e ∈ σ'.m_memoryContent, e ∈ σ.m_memoryContent
  hashes : σ'.m_knownSha3Hashes = σ.m_knownSha3Hashes
  sequenceNumber : σ.m_sequenceNumber ≤ σ'.m_sequenceNumber

theorem Calm.refl (σ : KnownState) : Calm σ σ := ⟨fun _ h => h, rfl, le_refl _⟩

/-- Calm steps make a calm run. -/
theorem Calm.trans {σ σ' σ'' : KnownState} (h : Calm σ σ') (h' : Calm σ' σ'') : Calm σ σ'' :=
  ⟨fun e he => h.memory e (h'.memory e he), h'.hashes.trans h.hashes, h.sequenceNumber.trans h'.sequenceNumber⟩

/-- What only the stack and the storage are about, while the sequence number stays. -/
structure Still (σ σ' : KnownState) : Prop extends Calm σ σ' where
  same : σ'.m_sequenceNumber = σ.m_sequenceNumber

theorem Still.refl (σ : KnownState) : Still σ σ := ⟨.refl σ, rfl⟩

/-- Still steps make a still run. -/
theorem Still.trans {σ σ' σ'' : KnownState} (h : Still σ σ') (h' : Still σ' σ'') : Still σ σ'' :=
  ⟨h.toCalm.trans h'.toCalm, h'.same.trans h.same⟩

section

variable {σ : KnownState} {s : ExpressionClasses}

/-- To set a stack element touches neither storage nor memory. -/
theorem still_setStackElement (σ : KnownState) (stackHeight : Int) (c : Id) : Still σ (σ.setStackElement stackHeight c) :=
  ⟨⟨fun _ h => h, rfl, le_refl _⟩, rfl⟩

/-- To set a stack element to a class keeps within the classes. -/
theorem Within.setStackElement (h : Within σ s) (stackHeight : Int) {c : Id} (hc : Below c s) : Within (σ.setStackElement stackHeight c) s := by
  refine ⟨fun e he => ?_, h.storage, h.memory, h.tags⟩
  rcases Assoc.mem_setSorted he with rfl | he
  · exact hc
  · exact h.stack e he

theorem Within.settle (h : Within σ s) (item : AssemblyItem) : Within (σ.settle item) s :=
  ⟨fun e he => h.stack e (List.mem_filter.mp he).1, h.storage, h.memory, h.tags⟩

theorem Within.resetStorage (h : Within σ s) : Within σ.resetStorage s :=
  ⟨h.stack, fun _ he => absurd he List.not_mem_nil, h.memory, h.tags⟩

theorem Within.resetMemory (h : Within σ s) : Within σ.resetMemory s :=
  ⟨h.stack, h.storage, fun _ he => absurd he List.not_mem_nil, h.tags⟩

theorem Within.resetStack (h : Within σ s) : Within σ.resetStack s :=
  ⟨fun _ he => absurd he List.not_mem_nil, h.storage, h.memory, h.tags⟩

theorem Within.clearTagUnions (h : Within σ s) : Within σ.clearTagUnions s :=
  ⟨fun e he => h.stack e (List.mem_filter.mp he).1, h.storage, h.memory, h.tags⟩

/-- To forget what an instruction invalidates keeps within the classes. -/
theorem Within.invalidate (h : Within σ s) (i : Instruction) : Within (σ.invalidate i) s := by
  have hmemory : Within (if SemanticInformation.invalidatesMemory i then σ.resetMemory else σ) s := by
    split
    · exact h.resetMemory
    · exact h
  have hboth : Within (if SemanticInformation.invalidatesStorage i then
      (if SemanticInformation.invalidatesMemory i then σ.resetMemory else σ).resetStorage
      else if SemanticInformation.invalidatesMemory i then σ.resetMemory else σ) s := by
    split
    · exact hmemory.resetStorage
    · exact hmemory
  rw [KnownState.invalidate]
  split
  · exact ⟨hboth.stack, hboth.storage, hboth.memory, hboth.tags⟩
  · exact hboth

end

/-- The loop that copies entries leaves some of them, and of those the condition holds. -/
theorem grows_copied {p : Id × Id → M Bool} {Q : Id × Id → Prop} {l : Assoc Id Id} {s : ExpressionClasses} (hs : Reached s)
    (hp : ∀ e ∈ l, ∀ s', Reached s' → Extends s s' → Grows (p e) s' fun r _ => r = true → Q e) :
    Grows (copied p l) s fun l' _ => ∀ e ∈ l', e ∈ l ∧ Q e := by
  induction l generalizing s with
  | nil => exact Grows.pure hs fun e he => absurd he List.not_mem_nil
  | cons d l ih =>
    rw [copied]
    refine (hp d List.mem_cons_self s hs (Extends.refl s)).bind fun keep s₁ hs₁ he₁ hkeep => ?_
    refine (ih hs₁ fun e he s' hs' he' => hp e (List.mem_cons_of_mem _ he) s' hs' (he₁.trans he')).bind fun l' s₂ hs₂ _ hl' => ?_
    refine Grows.pure hs₂ fun e he => ?_
    have hrest : e ∈ l' → e ∈ d :: l ∧ Q e := fun h => ⟨List.mem_cons_of_mem _ (hl' e h).1, (hl' e h).2⟩
    cases keep with
    | false => exact hrest he
    | true =>
      rcases List.mem_cons.mp he with rfl | he
      · exact ⟨List.mem_cons_self, hkeep rfl⟩
      · exact hrest he

theorem Within.setStorage {σ : KnownState} {s : ExpressionClasses} (hσ : Within σ s) {l : Assoc Id Id}
    (hl : ∀ e ∈ l, e ∈ σ.m_storageContent) {slot c : Id} (hslot : Below slot s) (hc : Below c s) (k : Nat) :
    Within { σ with m_storageContent := l.setSorted (slot, c), m_sequenceNumber := k } s := by
  refine ⟨hσ.stack, fun e he => ?_, hσ.memory, hσ.tags⟩
  rcases Assoc.mem_setSorted he with rfl | he
  · exact ⟨hslot, hc⟩
  · exact hσ.storage e (hl e he)

/-! ## The stack -/

section

variable {n : Nat} (hn : levels ≤ n)

include hn

theorem grows_stackElement {σ : KnownState} {s : ExpressionClasses} (hs : Reached s) (hσ : Within σ s) (stackHeight : Int) :
    Grows (stackElement n σ stackHeight) s fun r s' => Below r.1 s' ∧ Within r.2 s' ∧ Still σ r.2 := by
  rw [stackElement]
  cases hf : σ.m_stackElements.find stackHeight with
  | some c => exact Grows.pure hs ⟨hσ.stack _ (Assoc.mem_of_find_eq_some hf), hσ, .refl σ⟩
  | none =>
    dsimp only
    refine (grows_find hs hn (fun a ha => absurd ha List.not_mem_nil) (fun k hk => by cases hk) 0).bind fun c s' hs' he hc => ?_
    exact Grows.pure hs' ⟨hc.1, (hσ.extends he).setStackElement stackHeight hc.1, still_setStackElement σ stackHeight c⟩

theorem grows_swapStackElements {σ : KnownState} {s : ExpressionClasses} (hs : Reached s) (hσ : Within σ s) (a b : Int) :
    Grows (swapStackElements n σ a b) s fun σ' s' => Within σ' s' ∧ Still σ σ' := by
  rw [swapStackElements]
  split
  · exact Grows.throw _
  · refine (grows_stackElement hn hs hσ a).bind fun r s₁ hs₁ _ hr => ?_
    obtain ⟨c, σ₁⟩ := r
    obtain ⟨hc, hσ₁, hstill₁⟩ := hr
    refine (grows_stackElement hn hs₁ hσ₁ b).bind fun r s₂ hs₂ he₂ hr => ?_
    obtain ⟨d, σ₂⟩ := r
    obtain ⟨hd, hσ₂, hstill₂⟩ := hr
    refine Grows.pure hs₂ ⟨(hσ₂.setStackElement a hd).setStackElement b (he₂.below hc), ?_⟩
    exact (hstill₁.trans hstill₂).trans ((still_setStackElement σ₂ a d).trans (still_setStackElement _ b c))

theorem grows_stackArguments {σ : KnownState} {s : ExpressionClasses} (hs : Reached s) (hσ : Within σ s) (stackHeight : Int) (k : Nat) :
    Grows (stackArguments n stackHeight k σ) s fun r s' => (∀ a ∈ r.1, Below a s') ∧ r.1.length = k ∧ Within r.2 s' ∧ Still σ r.2 := by
  induction k generalizing σ s stackHeight with
  | zero => exact Grows.pure hs ⟨fun a ha => absurd ha List.not_mem_nil, rfl, hσ, .refl σ⟩
  | succ k ih =>
    rw [stackArguments]
    refine (grows_stackElement hn hs hσ stackHeight).bind fun r s₁ hs₁ _ hr => ?_
    obtain ⟨a, σ₁⟩ := r
    obtain ⟨ha, hσ₁, hstill₁⟩ := hr
    refine (ih hs₁ hσ₁ (stackHeight - 1)).bind fun r s₂ hs₂ he₂ hr => ?_
    obtain ⟨as, σ₂⟩ := r
    obtain ⟨has, hlength, hσ₂, hstill₂⟩ := hr
    refine Grows.pure hs₂ ⟨fun b hb => ?_, congrArg (· + 1) hlength, hσ₂, hstill₁.trans hstill₂⟩
    rcases List.mem_cons.mp hb with rfl | hb
    · exact he₂.below ha
    · exact has b hb

/-! ## The storage -/

theorem grows_storeInStorage {σ : KnownState} {s : ExpressionClasses} (hs : Reached s) (hσ : Within σ s) {slot value : Id}
    (hslot : Below slot s) (hvalue : Below value s) :
    Grows (storeInStorage n σ slot value) s fun r s' => Within r.2 s' ∧ Calm σ r.2 := by
  rw [storeInStorage]
  split
  · exact Grows.pure hs ⟨hσ, .refl σ⟩
  · refine (grows_copied (Q := fun _ => True) hs fun e he s' hs' he' => ?_).bind fun l s₁ hs₁ he₁ hl => ?_
    · refine (grows_knownToBeDifferent hs' hn (he'.below (hσ.storage e he).1) (he'.below hslot)).bind fun r s₁ hs₁ _ _ => ?_
      exact Grows.pure hs₁ fun _ => trivial
    · have hbelow : ∀ a ∈ [slot, value], Below a s₁ := below_two (he₁.below hslot) (he₁.below hvalue)
      refine (grows_find hs₁ hn hbelow (fun k hk => by cases hk) _).bind fun i s₂ hs₂ he₂ _ => ?_
      have he := he₁.trans he₂
      refine Grows.pure hs₂ ⟨?_, fun _ h => h, rfl, by dsimp only; omega⟩
      exact (hσ.extends he).setStorage (fun e he => (hl e he).1) (he.below hslot) (he.below hvalue) _

theorem grows_loadFromStorage {σ : KnownState} {s : ExpressionClasses} (hs : Reached s) (hσ : Within σ s) {slot : Id} (hslot : Below slot s) :
    Grows (loadFromStorage n σ slot) s fun r s' => Below r.1 s' ∧ Within r.2 s' ∧ Still σ r.2 := by
  rw [loadFromStorage]
  cases hf : σ.m_storageContent.find slot with
  | some c => exact Grows.pure hs ⟨(hσ.storage _ (Assoc.mem_of_find_eq_some hf)).2, hσ, .refl σ⟩
  | none =>
    dsimp only
    have hbelow : ∀ a ∈ [slot], Below a s := fun a ha => List.mem_singleton.mp ha ▸ hslot
    refine (grows_find hs hn hbelow (fun k hk => by cases hk) _).bind fun c s' hs' he hc => ?_
    exact Grows.pure hs' ⟨hc.1, (hσ.extends he).setStorage (fun _ h => h) (he.below hslot) hc.1 _, ⟨fun _ h => h, rfl, le_refl _⟩, rfl⟩

end

/-! ## Common knowledge -/

theorem grows_tagsInExpression {σ : KnownState} {s : ExpressionClasses} (hs : Reached s) (c : Id) :
    Grows (tagsInExpression σ c) s fun _ s' => s' = s := by
  rw [tagsInExpression]
  cases σ.m_tagUnions.find c with
  | some tags => exact Grows.pure hs rfl
  | none =>
    dsimp only
    rw [representative, bind_assoc, Grows, runs_bind, runs_get]
    cases s.m_representatives[c]? with
    | none => exact trivial
    | some e => exact ⟨hs, Extends.refl s, rfl⟩

theorem grows_tagUnion {σ : KnownState} {s : ExpressionClasses} (hs : Reached s) (hσ : Within σ s) (tags : Finset U256) :
    Grows (tagUnion σ tags) s fun r s' => Below r.1 s' ∧ Within r.2 s' ∧ Still σ r.2 ∧ r.2.m_stackElements = σ.m_stackElements := by
  rw [tagUnion]
  cases hf : σ.m_tagUnions.find? fun e => e.2 = tags with
  | some e => exact Grows.pure hs ⟨hσ.tags e (List.mem_of_find?_eq_some hf), hσ, .refl σ, rfl⟩
  | none =>
    dsimp only
    refine (grows_newClass hs).bind fun i s' hs' he hi => ?_
    have hσ' := hσ.extends he
    refine Grows.pure hs' ⟨hi, ⟨hσ'.stack, hσ'.storage, hσ'.memory, fun e hm => ?_⟩, ⟨⟨fun _ h => h, rfl, le_refl _⟩, rfl⟩, rfl⟩
    rcases Assoc.mem_setSorted hm with rfl | hm
    · exact hi
    · exact hσ'.tags e hm

theorem grows_commonElement {σ : KnownState} {s : ExpressionClasses} (hs : Reached s) (hσ : Within σ s) {c : Id} (hc : Below c s) (other : Id) :
    Grows (commonElement σ c other) s fun r s' => (∀ e ∈ r.1, Below e s') ∧ Within r.2 s' ∧ Still σ r.2 := by
  rw [commonElement]
  split
  · refine Grows.pure hs ⟨fun e he => ?_, hσ, .refl σ⟩
    cases he
    exact hc
  · refine (grows_tagsInExpression hs c).bind fun these s₁ _ _ heq => ?_
    subst heq
    refine (grows_tagsInExpression hs other).bind fun others s₂ _ _ heq => ?_
    subst heq
    split
    · refine (grows_tagUnion hs hσ _).bind fun r s' hs' _ hr => ?_
      refine Grows.pure hs' ⟨fun e he => ?_, hr.2.1, hr.2.2.1⟩
      cases he
      exact hr.1
    · exact Grows.pure hs ⟨fun e he => (by cases he), hσ, .refl σ⟩

theorem grows_commonElements (other : Assoc Int Id) (stackDiff : Int) {l : Assoc Int Id} {σ : KnownState} {s : ExpressionClasses}
    (hs : Reached s) (hσ : Within σ s) (hl : ∀ e ∈ l, Below e.2 s) :
    Grows (commonElements other stackDiff l σ) s fun r s' => (∀ e ∈ r.1, Below e.2 s') ∧ Within r.2 s' ∧ Still σ r.2 := by
  induction l generalizing σ s with
  | nil => exact Grows.pure hs ⟨fun e he => absurd he List.not_mem_nil, hσ, .refl σ⟩
  | cons d l ih =>
    obtain ⟨height, c⟩ := d
    rw [commonElements]
    cases other.find (height - stackDiff) with
    | none => exact ih hs hσ fun e he => hl e (List.mem_cons_of_mem _ he)
    | some c' =>
      dsimp only
      refine (grows_commonElement hs hσ (hl (height, c) List.mem_cons_self) c').bind fun r s₁ hs₁ he₁ hr => ?_
      obtain ⟨e, σ₁⟩ := r
      obtain ⟨he, hσ₁, hstill₁⟩ := hr
      have hrest : ∀ e ∈ l, Below e.2 s₁ := fun e he => he₁.below (hl e (List.mem_cons_of_mem _ he))
      refine (ih hs₁ hσ₁ hrest).bind fun r s₂ hs₂ he₂ hr => ?_
      obtain ⟨l', σ₂⟩ := r
      obtain ⟨hl', hσ₂, hstill₂⟩ := hr
      cases e with
      | none => exact Grows.pure hs₂ ⟨hl', hσ₂, hstill₁.trans hstill₂⟩
      | some i =>
        refine Grows.pure hs₂ ⟨fun e hm => ?_, hσ₂, hstill₁.trans hstill₂⟩
        rcases List.mem_cons.mp hm with rfl | hm
        · exact he₂.below (he i rfl)
        · exact hl' e hm

/-- What two states have in common is in both. -/
theorem mem_intersect {l l' : Assoc Id Id} {e : Id × Id} (h : e ∈ intersect l l') : e ∈ l ∧ e ∈ l' := by
  obtain ⟨hl, hf⟩ := List.mem_filter.mp h
  exact ⟨hl, Assoc.mem_of_find_eq_some (of_decide_eq_true hf)⟩

/-- What is common knowledge was known in both states, and the hashes are those of the first. -/
theorem grows_reduce {σ : KnownState} {s : ExpressionClasses} (hs : Reached s) (hσ : Within σ s) (other : KnownState) (combine : Bool) :
    Grows (reduceToCommonKnowledge σ other combine) s fun σ' s' => Within σ' s' ∧ Calm σ σ' ∧
      ∀ e ∈ σ'.m_memoryContent, e ∈ other.m_memoryContent := by
  rw [reduceToCommonKnowledge]
  refine (grows_commonElements _ _ hs hσ hσ.stack).bind fun r s' hs' _ hr => ?_
  obtain ⟨l, σ₁⟩ := r
  obtain ⟨hl, hσ₁, hstill⟩ := hr
  have hstack : ∀ e ∈ l.map fun e => (e.1 - (σ.m_stackHeight - other.m_stackHeight), e.2), Below e.2 s' := by
    intro e he
    obtain ⟨d, hd, rfl⟩ := List.mem_map.mp he
    exact hl d hd
  have hstorage : ∀ e ∈ intersect σ₁.m_storageContent other.m_storageContent, Below e.1 s' ∧ Below e.2 s' :=
    fun e he => hσ₁.storage e (mem_intersect he).1
  have hmemory : ∀ e ∈ intersect σ₁.m_memoryContent other.m_memoryContent, Below e.1 s' ∧ Below e.2 s' :=
    fun e he => hσ₁.memory e (mem_intersect he).1
  have hknown : ∀ e ∈ intersect σ₁.m_memoryContent other.m_memoryContent, e ∈ σ.m_memoryContent ∧ e ∈ other.m_memoryContent :=
    fun e he => ⟨hstill.memory e (mem_intersect he).1, (mem_intersect he).2⟩
  have hmax : σ.m_sequenceNumber ≤ max σ₁.m_sequenceNumber other.m_sequenceNumber := hstill.sequenceNumber.trans (le_max_left _ _)
  by_cases hheight : σ₁.m_stackHeight > other.m_stackHeight
  · simp only [if_pos hheight]
    cases combine with
    | false => exact Grows.pure hs' ⟨⟨hstack, hstorage, hmemory, hσ₁.tags⟩, ⟨fun e he => (hknown e he).1, hstill.hashes,
        hstill.sequenceNumber⟩, fun e he => (hknown e he).2⟩
    | true => exact Grows.pure hs' ⟨⟨hstack, hstorage, hmemory, hσ₁.tags⟩, ⟨fun e he => (hknown e he).1, hstill.hashes, hmax⟩,
        fun e he => (hknown e he).2⟩
  · simp only [if_neg hheight]
    cases combine with
    | false => exact Grows.pure hs' ⟨⟨hl, hstorage, hmemory, hσ₁.tags⟩, ⟨fun e he => (hknown e he).1, hstill.hashes,
        hstill.sequenceNumber⟩, fun e he => (hknown e he).2⟩
    | true => exact Grows.pure hs' ⟨⟨hl, hstorage, hmemory, hσ₁.tags⟩, ⟨fun e he => (hknown e he).1, hstill.hashes, hmax⟩,
        fun e he => (hknown e he).2⟩

end KnownState

/-! ## What known states know -/

open ExpressionClasses (Id M Reached Extends Below Grows valueOf levels)

namespace KnownState

open ExpressionClasses

variable {sha3 : Bytes → U256} {n : Nat} {s s' : ExpressionClasses} {σ σ' : KnownState} {h : History}

/-! ## Words -/

/-- A word of memory has the bytes that are read there. -/
theorem bytes_word (m : ByteMemory 256) (a : U256) : (H256.ofU256 (word m a)).bytes = m.read a 32 := by
  have hhash := H256.ofU256_toU256 ⟨m.read a 32, m.length_read a 32⟩
  exact congrArg H256.bytes hhash

/-- A word that is stored is read again. -/
theorem word_store (m : ByteMemory 256) (a v : U256) : word (storeWord m a v) a = v := by
  have hlength : (H256.ofU256 v).bytes.length = 32 := (H256.ofU256 v).length_eq
  have hfits : (H256.ofU256 v).bytes.length ≤ 2 ^ 256 := by
    rw [hlength]
    decide
  have hread := m.read_write a hfits
  rw [hlength] at hread
  rw [word, storeWord, hread]
  exact H256.toU256_ofU256 v

/-- A word that is far enough away from what is stored. -/
theorem word_store_apart (m : ByteMemory 256) {a b : U256} (v : U256) (hab : 32 ≤ (a - b).toNat) (hba : 32 ≤ (b - a).toNat) :
    word (storeWord m a v) b = word m b := by
  rw [word, storeWord, m.read_write_apart hab (by rw [(H256.ofU256 v).length_eq]; exact hba), word]

/-- Storing the word that is there changes nothing. -/
theorem store_word (m : ByteMemory 256) (a : U256) : storeWord m a (word m a) = m := by
  rw [storeWord, bytes_word, m.write_read]

/-- The bytes that are hashed are the first bytes of the words that are loaded. -/
theorem read_eq_dataOf (m : ByteMemory 256) (a l : U256) :
    m.read a l.toNat = dataOf ((offsets l).map fun i => word m (a + i)) l := by
  have hwords : (((offsets l).map fun i => word m (a + i)).flatMap fun c => (H256.ofU256 c).bytes) =
      m.read a (32 * ((l.toNat + 31) / 32)) := by
    rw [m.read_mul, offsets, List.map_map, List.flatMap_map]
    simp only [bytes_word, Function.comp_apply]
  rw [dataOf, hwords, m.take_read a (by omega)]

/-! ## Histories -/

namespace History

/-- Earlier moments stay. -/
theorem getElem?_next {t : Nat} {x : Moment} (hx : h.moments[t]? = some x) (k : Nat) (effect : Effect) (hashings : List Hashing) :
    (h.next k effect hashings).moments[t]? = some x := by
  rw [next, List.getElem?_append_left (List.getElem?_eq_some_iff.mp hx).1, hx]

/-- The new moment is the last. -/
theorem getElem?_next_last (hne : h.moments ≠ []) (k : Nat) (effect : Effect) (hashings : List Hashing) :
    (h.next k effect hashings).moments[h.now + 1]? = some ⟨k, effect⟩ := by
  have hlength : h.now + 1 = h.moments.length := Nat.sub_add_cancel (List.length_pos_iff.mpr hne)
  rw [hlength]
  exact List.getElem?_concat_length

/-- Time goes on by one. -/
theorem now_next (hne : h.moments ≠ []) (k : Nat) (effect : Effect) (hashings : List Hashing) :
    (h.next k effect hashings).now = h.now + 1 := by
  have hpos := List.length_pos_iff.mpr hne
  rw [now, now, next, List.length_append, List.length_singleton]
  omega

/-- The moments after one more: the old ones and the new one. -/
theorem getElem?_next_cases (hne : h.moments ≠ []) {k : Nat} {effect : Effect} {hashings : List Hashing} {t : Nat} {x : Moment}
    (hx : (h.next k effect hashings).moments[t]? = some x) : h.moments[t]? = some x ∨ t = h.now + 1 ∧ x = ⟨k, effect⟩ := by
  have hlength : h.now + 1 = h.moments.length := Nat.sub_add_cancel (List.length_pos_iff.mpr hne)
  rw [next, List.getElem?_append] at hx
  by_cases ht : t < h.moments.length
  · rw [if_pos ht] at hx
    exact Or.inl hx
  · rw [if_neg ht] at hx
    obtain ⟨hzero, hx⟩ := List.getElem?_eq_some_iff.mp hx
    have hzero : t - h.moments.length = 0 := Nat.lt_one_iff.mp hzero
    have htime : t = h.moments.length := by omega
    simp only [hzero, List.getElem_cons_zero] at hx
    exact Or.inr ⟨htime.trans hlength.symm, hx.symm⟩

end History

/-- The effect only names classes that there are. -/
def Effect.Within (s : ExpressionClasses) : Effect → Prop
  | .stores slot value => Below slot s ∧ Below value s
  | _ => True

/-- An effect stays within the classes as they grow. -/
theorem Effect.Within.extends {effect : Effect} (hw : effect.Within s) (he : Extends s s') : effect.Within s' := by
  cases effect with
  | stores slot value => exact hw.imp he.below he.below
  | keeps => trivial
  | changes => trivial

/-- An effect says nothing of values of classes that are not there. -/
theorem Effect.Within.holds_congr {effect : Effect} (hw : effect.Within s) {V V' : Id → U256} (hV : ∀ i, Below i s → V' i = V i)
    {m m' : ByteMemory 256} (hh : effect.Holds V' m m') : effect.Holds V m m' := by
  cases effect with
  | stores slot value =>
    rw [Effect.Holds] at hh ⊢
    rw [hh, hV slot hw.1, hV value hw.2]
  | keeps => exact hh
  | changes => trivial

/-! ## Consistent machines -/

/-- A class keeps its value as the classes grow. -/
theorem Machine.value_extends (μ : Machine) (he : Extends s s') {i : Id} (hi : Below i s) : μ.value s' i = μ.value s i :=
  he.valueOf_eq μ.base hi

/-- What is consistent with more moments is consistent with those before. -/
theorem Consistent.of_next {μ : Machine} {k : Nat} {effect : Effect} {hashings : List Hashing}
    (hc : Consistent sha3 μ s (h.next k effect hashings)) : Consistent sha3 μ s h :=
  ⟨fun t x hx => hc.effects t x (History.getElem?_next hx k effect hashings),
    fun e he hitem a ha t x hx => hc.loads e he hitem a ha t x (History.getElem?_next hx k effect hashings),
    fun e he hitem a l ha t x hx => hc.hashes e he hitem a l ha t x (History.getElem?_next hx k effect hashings)⟩

/-- What is consistent with more classes is consistent with those before. -/
theorem Consistent.of_extends {μ : Machine} (hs : Reached s) (he : Extends s s') (hw : ∀ x ∈ h.moments, x.effect.Within s)
    (hc : Consistent sha3 μ s' h) : Consistent sha3 μ s h := by
  have hbelow : ∀ e ∈ s.m_representatives, Below e.id s ∧ ∀ a ∈ e.arguments, Below a s := by
    intro e hm
    obtain ⟨i, hi⟩ := List.mem_iff_getElem?.mp hm
    have hlt : Below e.id s := by
      rw [hs.settled.numbered i e hi]
      exact (List.getElem?_eq_some_iff.mp hi).1
    exact ⟨hlt, fun a ha => lt_trans (hs.settled.before e hm a ha) hlt⟩
  refine ⟨fun t x hx => ?_, fun e hm hitem a ha t x hx hseq => ?_, fun e hm hitem a l ha t x hx hseq => ?_⟩
  · exact (hw x (List.mem_of_getElem? hx)).holds_congr (fun i hi => μ.value_extends he hi) (hc.effects t x hx)
  · have hload := hc.loads e (List.IsPrefix.subset he hm) hitem a ha t x hx hseq
    rwa [μ.value_extends he (hbelow e hm).1, μ.value_extends he ((hbelow e hm).2 a (by rw [ha]; exact List.mem_cons_self))] at hload
  · have hhash := hc.hashes e (List.IsPrefix.subset he hm) hitem a l ha t x hx hseq
    rwa [μ.value_extends he (hbelow e hm).1, μ.value_extends he ((hbelow e hm).2 a (by rw [ha]; exact List.mem_cons_self)),
      μ.value_extends he ((hbelow e hm).2 l (by rw [ha]; exact List.mem_cons_of_mem _ List.mem_cons_self))] at hhash

/-! ## Hashes -/

/-- The class that a hash was given is that of the operation on an operand with the same bytes, or that of the hash of known data. -/
def Founded (sha3 : Bytes → U256) (s : ExpressionClasses) (h : History) (o : Hashing) : Prop :=
  (∃ start length k, s.m_representatives[o.result]? = some ⟨o.result, .ofInstruction .SHA3, [start, length], k⟩ ∧
    ∃ t x, h.moments[t]? = some x ∧ x.sequenceNumber = k ∧ Below start s ∧ Below length s ∧
      ∀ μ, Consistent sha3 μ s h → μ.hashed s o = (μ.memory t).read (μ.value s start) (μ.value s length).toNat) ∨
  ∃ d, knownData s o = some d ∧ s.m_representatives[o.result]? = some ⟨o.result, .push (sha3 d), [], 0⟩

/-- What is recorded of a hash is true. -/
structure Recorded (sha3 : Bytes → U256) (s : ExpressionClasses) (h : History) (o : Hashing) : Prop where
  start : Below o.start s
  length : Below o.length s
  result : Below o.result s
  words : ∀ words, o.words = some words → (∀ w ∈ words, Below w s) ∧ ∃ l, constantOf s o.length = some l ∧
    ∀ μ, Consistent sha3 μ s h → μ.hashed s o = dataOf (words.map (μ.value s)) l
  founded : Founded sha3 s h o

theorem knownData_extends (he : Extends s s') {o : Hashing} (hlength : Below o.length s)
    (hwords : ∀ words, o.words = some words → ∀ w ∈ words, Below w s) : knownData s' o = knownData s o := by
  rw [knownData, knownData, constantOf_extends he hlength]
  cases hw : o.words with
  | none => rfl
  | some words =>
    have hmap : words.map (constantOf s') = words.map (constantOf s) :=
      List.map_congr_left fun w hm => constantOf_extends he (hwords words hw w hm)
    cases constantOf s o.length with
    | none => rfl
    | some l => simp only [hmap]

/-- A hashing takes in the same bytes as the classes grow. -/
theorem Machine.hashed_extends (μ : Machine) (he : Extends s s') {o : Hashing} (hstart : Below o.start s) (hlength : Below o.length s) :
    μ.hashed s' o = μ.hashed s o := by
  rw [Machine.hashed, Machine.hashed, μ.value_extends he hstart, μ.value_extends he hlength]

/-- What was recorded stays recorded. -/
theorem Recorded.mono {h' : History} {o : Hashing} (ho : Recorded sha3 s h o) (he : Extends s s')
    (hmoments : ∀ (t : Nat) (x : Moment), h.moments[t]? = some x → h'.moments[t]? = some x)
    (hc : ∀ μ, Consistent sha3 μ s' h' → Consistent sha3 μ s h) : Recorded sha3 s' h' o := by
  refine ⟨he.below ho.start, he.below ho.length, he.below ho.result, fun words hw => ?_, ?_⟩
  · obtain ⟨hbelow, l, hl, hdata⟩ := ho.words words hw
    refine ⟨fun w hm => he.below (hbelow w hm), l, by rw [constantOf_extends he ho.length, hl], fun μ hμ => ?_⟩
    have hmap : words.map (μ.value s') = words.map (μ.value s) := List.map_congr_left fun w hm => μ.value_extends he (hbelow w hm)
    rw [μ.hashed_extends he ho.start ho.length, hdata μ (hc μ hμ), hmap]
  · rcases ho.founded with ⟨start, length, k, hclass, t, x, hx, hk, hstart, hlength, hbytes⟩ | ⟨d, hd, hclass⟩
    · refine Or.inl ⟨start, length, k, by rw [he.getElem?_eq ho.result, hclass], t, x, hmoments t x hx, hk, he.below hstart,
        he.below hlength, fun μ hμ => ?_⟩
      rw [μ.hashed_extends he ho.start ho.length, hbytes μ (hc μ hμ), μ.value_extends he hstart, μ.value_extends he hlength]
    · refine Or.inr ⟨d, ?_, by rw [he.getElem?_eq ho.result, hclass]⟩
      rw [knownData_extends he ho.length fun words hw => (ho.words words hw).1, hd]

/-- Known constants are the values of their classes. -/
theorem reduceOption_constants (hs : Reached s) (μ : Machine) {words : List Id}
    (hall : (words.map (constantOf s)).all Option.isSome = true) : (words.map (constantOf s)).reduceOption = words.map (μ.value s) := by
  induction words with
  | nil => rfl
  | cons w words ih =>
    rw [List.map_cons, List.all_cons, Bool.and_eq_true] at hall
    obtain ⟨v, hv⟩ := Option.isSome_iff_exists.mp hall.1
    rw [List.map_cons, List.map_cons, hv, List.reduceOption_cons_of_some, ih hall.2, Machine.value, valueOf_constantOf hs hv]

/-- Known data is what is hashed. -/
theorem Recorded.hashed_eq {o : Hashing} (ho : Recorded sha3 s h o) (hs : Reached s) {d : Bytes} (hd : knownData s o = some d) {μ : Machine}
    (hμ : Consistent sha3 μ s h) : μ.hashed s o = d := by
  rw [knownData] at hd
  cases hw : o.words with
  | none =>
    rw [hw] at hd
    cases hd
  | some words =>
    obtain ⟨_, l, hl, hdata⟩ := ho.words words hw
    rw [hw, hl] at hd
    dsimp only at hd
    split at hd
    · rename_i hall
      rw [hdata μ hμ, ← reduceOption_constants hs μ hall]
      exact Option.some.inj hd
    · cases hd

end KnownState

end Webthree
