import Webthree.Lemmas.KnownSteps
import Webthree.Evm.ExtVMFace

/-!
# What known states say of a machine

An interpretation gives values to the classes that no constant and no arithmetic instruction gives one: those of the stack at the start,
of what only assembling knows, of the words of the memory and the storage for every sequence number, of the surroundings, and of what
the instructions answer that are not deterministic.

A known state agrees with the contents of a machine if the elements of the stack have the values of their classes and what is known of
the storage, the memory and the hashes is true. Feeding it an item keeps that when the machine does what the item says.
-/

namespace Webthree

open ExpressionClasses (Id M Reached Extends Below valueOf find representative knownConstant levels)

/-! ## Values for base classes -/

namespace ExpressionClasses

/-- The values of the classes only depend on those of their base classes. -/
theorem valueOf_congr {β β' : Id → U256} {classes : List Expression} (h : ∀ e ∈ classes, β e.id = β' e.id) (i : Id) :
    valueOf β classes i = valueOf β' classes i := by
  have hvalues : values β classes = values β' classes := by
    induction classes using List.reverseRecOn with
    | nil => rfl
    | append_singleton classes e ih =>
      rw [values_concat, values_concat, ih fun e he => h e (List.mem_append_left _ he), addValue, addValue,
        h e (List.mem_append_right _ (List.mem_singleton_self e))]
  rw [valueOf, valueOf, hvalues]

/-- Base classes may be given values by the values of their arguments. -/
theorem exists_base (ρ : Expression → List U256 → U256) {classes : List Expression} (hn : Numbered classes)
    (hb : ∀ e ∈ classes, ∀ a ∈ e.arguments, a < e.id) : ∃ β, ∀ e ∈ classes,
      valueOf β classes e.id = (e.value (valueOf β classes)).getD (ρ e (e.arguments.map (valueOf β classes))) := by
  suffices hbase : ∃ β, ∀ e ∈ classes, β e.id = ρ e (e.arguments.map (valueOf β classes)) by
    obtain ⟨β, hβ⟩ := hbase
    refine ⟨β, fun e he => ?_⟩
    rw [valueOf_id hn hb he, hβ e he]
  induction classes using List.reverseRecOn with
  | nil => exact ⟨fun _ => 0, fun e he => absurd he List.not_mem_nil⟩
  | append_singleton classes e ih =>
    have hold : ∀ {i : Nat} {e' : Expression}, classes[i]? = some e' → e'.id = i := by
      intro i e' hi
      exact hn i e' (by rw [List.getElem?_append_left (List.getElem?_eq_some_iff.mp hi).1, hi])
    obtain ⟨β, hβ⟩ := ih (fun i e' hi => hold hi) fun e' he' => hb e' (List.mem_append_left _ he')
    have hid : e.id = classes.length := hn classes.length e List.getElem?_concat_length
    have hlt : ∀ e' ∈ classes, e'.id < classes.length := by
      intro e' he'
      obtain ⟨i, hi⟩ := List.mem_iff_getElem?.mp he'
      rw [hold hi]
      exact (List.getElem?_eq_some_iff.mp hi).1
    -- the new class is the last one, and its arguments stand before it
    let β' : Id → U256 := Function.update β e.id (ρ e (e.arguments.map (valueOf β classes)))
    have hsame : ∀ e' ∈ classes, β' e'.id = β e'.id := by
      intro e' he'
      exact Function.update_of_ne (ne_of_lt (hid ▸ hlt e' he')) _ _
    have hvalue : ∀ e' ∈ classes ++ [e], e'.arguments.map (valueOf β' (classes ++ [e])) = e'.arguments.map (valueOf β classes) := by
      intro e' he'
      refine List.map_congr_left fun a ha => ?_
      have hbefore := hb e' he' a ha
      have ha' : a < classes.length := by
        rcases List.mem_append.mp he' with he' | he'
        · exact lt_trans hbefore (hlt e' he')
        · rw [List.mem_singleton.mp he', hid] at hbefore
          exact hbefore
      rw [valueOf_append β' _ _ ha', valueOf_congr hsame]
    refine ⟨β', fun e' he' => ?_⟩
    rw [hvalue e' he']
    rcases List.mem_append.mp he' with hm | hm
    · rw [hsame e' hm, hβ e' hm]
    · rw [List.mem_singleton.mp hm]
      exact Function.update_self _ _ _

end ExpressionClasses

/-! ## Interpretations -/

open SemanticInformation

/-- What the instructions answer that only read the surroundings. -/
def surroundings (f : ExtFields) : Instruction → List U256 → U256
  | .ADDRESS, [] => fromAddress f.myAddress
  | .ORIGIN, [] => fromAddress f.origin
  | .CALLER, [] => fromAddress f.caller
  | .CALLVALUE, [] => f.value
  | .CALLDATALOAD, [a] => VM.callDataLoad f.data a
  | .CALLDATASIZE, [] => BitVec.ofNat 256 f.data.length
  | .CODESIZE, [] => BitVec.ofNat 256 f.code.length
  | .GASPRICE, [] => f.gasPrice
  | .BLOCKHASH, [a] => f.blockHash a
  | .COINBASE, [] => fromAddress f.envInfo.author
  | .TIMESTAMP, [] => f.envInfo.timestamp
  | .NUMBER, [] => f.envInfo.number
  | .DIFFICULTY, [] => f.envInfo.difficulty
  | .GASLIMIT, [] => f.envInfo.gasLimit
  | _, _ => 0

structure Interpretation where
  /-- The elements of the stack at the start, by the data of their items. -/
  initial : U256 → U256
  /-- What an item pushes that only assembling knows. -/
  pushed : AssemblyItem → U256
  fields : ExtFields
  /-- The memory while the known state has a sequence number. -/
  memory : Nat → ByteMemory 256
  storage : Nat → U256 → U256
  /-- What the instruction of a class answered that is not deterministic. -/
  outcome : Id → U256

/-- The answer of an instruction that its arguments, the contents of the memory and the storage, and the surroundings decide. -/
def answerOf (sha3 : Bytes → U256) (f : ExtFields) (memory : ByteMemory 256) (storage : U256 → U256) : Instruction → List U256 → U256
  | .MLOAD, [a] => KnownState.word memory a
  | .SLOAD, [a] => storage a
  | .SHA3, [a, l] => sha3 (memory.read a l.toNat)
  | i, args => (arith i args).getD (surroundings f i args)

namespace Interpretation

variable (sha3 : Bytes → U256) (ι : Interpretation)

/-- The value of a base class. -/
def base (e : Expression) (args : List U256) : U256 :=
  match e.item.type with
  | .UndefinedItem => ι.initial e.item.data
  | .Operation =>
    if isDeterministic e.item then answerOf sha3 ι.fields (ι.memory e.sequenceNumber) (ι.storage e.sequenceNumber) e.item.instruction args
    else ι.outcome e.id
  | _ => ι.pushed e.item

/-- The values of the classes are those of an assignment to the base classes, and these are the ones of the interpretation. -/
structure Gives (S : ExpressionClasses) (V : Id → U256) : Prop where
  reached : Reached S
  assigned : ∃ β, V = valueOf β S.m_representatives
  value : ∀ e ∈ S.m_representatives, V e.id = (e.value V).getD (ι.base sha3 e (e.arguments.map V))

variable {sha3 ι} in
/-- Values that are given for all classes respect those of now. -/
theorem Gives.respects {S s : ExpressionClasses} {V : Id → U256} (hV : ι.Gives sha3 S V) (he : Extends s S) :
    Respects V s.m_representatives := by
  refine he.respects fun e he v hv => ?_
  rw [hV.value e he, hv, Option.getD_some]

/-- The value of a class that is there now is the one of now. -/
theorem Gives.valueOf_eq {S s : ExpressionClasses} {V : Id → U256} (he : Extends s S) {β : Id → U256} (hβ : V = valueOf β S.m_representatives)
    {i : Id} (hi : Below i s) : V i = valueOf β s.m_representatives i := by
  rw [hβ, he.valueOf_eq β hi]

/-- There is always a way to give values. -/
theorem exists_gives {S : ExpressionClasses} (hS : Reached S) : ∃ V, ι.Gives sha3 S V := by
  obtain ⟨β, hβ⟩ := ExpressionClasses.exists_base (ι.base sha3) hS.settled.numbered hS.settled.before
  exact ⟨_, hS, ⟨β, rfl⟩, hβ⟩

end Interpretation

namespace KnownState

open ExpressionClasses

/-! ## Agreement -/

/-- What a machine has on its stack, in its memory and in its storage. -/
structure Contents where
  stack : List U256
  memory : ByteMemory 256
  storage : U256 → U256

variable {sha3 : Bytes → U256} {ι : Interpretation} {S : ExpressionClasses} {V : Id → U256}

/-- The value of the stack element at a height. -/
def valueAt (ι : Interpretation) (V : Id → U256) (σ : KnownState) (stackHeight : Int) : U256 :=
  match σ.m_stackElements.find stackHeight with
  | some c => V c
  | none => ι.initial (BitVec.ofInt 256 stackHeight)

/-- What is known of the storage, the memory and the hashes is true. Of the words that a hash is known for, all bytes were hashed. -/
structure Knows (sha3 : Bytes → U256) (ι : Interpretation) (V : Id → U256) (σ : KnownState) : Prop where
  storage : ∀ e ∈ σ.m_storageContent, ι.storage σ.m_sequenceNumber (V e.1) = V e.2
  memory : ∀ e ∈ σ.m_memoryContent, word (ι.memory σ.m_sequenceNumber) (V e.1) = V e.2
  hashes : ∀ e ∈ σ.m_knownSha3Hashes, V e.2 = sha3 (dataOf (e.1.map V) (BitVec.ofNat 256 (32 * e.1.length)))

/-! ## Classes that are found -/

section

variable {s s' : ExpressionClasses} (hV : ι.Gives sha3 S V)

include hV

/-- The class that is found has the value of the item, or of the interpretation where the item has none. -/
theorem find_gives {n : Nat} (hn : levels ≤ n) (hs : Reached s) {item : AssemblyItem} {arguments : List Id}
    (hargs : ∀ a ∈ arguments, Below a s) (harity : ∀ k, item.arity = some k → arguments.length = k) (sequenceNumber : Nat) :
    Grows (find n item arguments sequenceNumber) s fun i s' => Below i s' ∧ (Extends s' S →
      (∀ v, itemValue item (arguments.map V) = some v → V i = v) ∧
      (item.Plain → itemValue item (arguments.map V) = none → V i = ι.base sha3 ⟨i, item, arguments, sequenceNumber⟩ (arguments.map V))) := by
  have hclass := grows_find hs hn hargs harity sequenceNumber
  have hvalue := find_settled hn hs.settled hargs harity sequenceNumber
  rw [Grows] at hclass
  refine (Runs.and hclass hvalue).mono (fun i s' h => ?_) fun _ _ _ => trivial
  obtain ⟨⟨hs', he, hi, _, hplain⟩, hdenotes⟩ := h
  refine ⟨hs', he, hi, fun hS => ⟨fun v hv => hdenotes.2.2.2 V (hV.respects hS) v hv, fun hp hnone => ?_⟩⟩
  have hrep := List.IsPrefix.subset hS (List.mem_of_getElem? (hplain hp))
  have hbase := hV.value _ hrep
  rw [Expression.value] at hbase
  dsimp only at hbase
  rw [hnone, Option.getD_none] at hbase
  exact hbase

end

/-! ## The stack -/

/-- Only the classes of the stack are others, and those above the stack are none that were not there. -/
structure Looks (σ σ' : KnownState) : Prop where
  frame : σ' = { σ with m_stackElements := σ'.m_stackElements }
  top : ∀ e ∈ σ'.m_stackElements, e ∈ σ.m_stackElements ∨ e.1 ≤ σ.m_stackHeight

theorem Looks.refl (σ : KnownState) : Looks σ σ := ⟨rfl, fun _ h => Or.inl h⟩

/-- To look something up leaves the height. -/
theorem Looks.height {σ σ' : KnownState} (h : Looks σ σ') : σ'.m_stackHeight = σ.m_stackHeight := by
  rw [h.frame]

/-- Lookups in a row are lookups. -/
theorem Looks.trans {σ σ' σ'' : KnownState} (h : Looks σ σ') (h' : Looks σ' σ'') : Looks σ σ'' where
  frame := by
    rw [h'.frame, h.frame]
  top e he := by
    rcases h'.top e he with hm | hle
    · exact h.top e hm
    · exact Or.inr (h.height ▸ hle)

/-- An element that is set has the value of its class, and the others theirs. -/
theorem valueAt_setStackElement (σ : KnownState) (stackHeight h : Int) (c : Id) :
    valueAt ι V (σ.setStackElement stackHeight c) h = if h = stackHeight then V c else valueAt ι V σ h := by
  rw [valueAt, setStackElement]
  dsimp only
  rw [Assoc.find_setSorted]
  by_cases hh : h = stackHeight
  · rw [if_pos hh, if_pos hh]
  · rw [if_neg hh, if_neg hh]
    rfl

section

variable {s : ExpressionClasses} {σ : KnownState} {n : Nat} (hn : levels ≤ n) (hV : ι.Gives sha3 S V) (hs : Reached s) (hσ : Within σ s)

include hn hV hs hσ

/-- The class of an element has its value. -/
theorem stackElement_gives {stackHeight : Int} (hle : stackHeight ≤ σ.m_stackHeight) :
    Grows (stackElement n σ stackHeight) s fun r s' => Below r.1 s' ∧ Within r.2 s' ∧ Looks σ r.2 ∧ (Extends s' S →
      V r.1 = valueAt ι V σ stackHeight ∧ ∀ h, valueAt ι V r.2 h = valueAt ι V σ h) := by
  rw [stackElement]
  cases hf : σ.m_stackElements.find stackHeight with
  | some c =>
    refine Grows.pure hs ⟨hσ.stack _ (Assoc.mem_of_find_eq_some hf), hσ, .refl σ, fun _ => ⟨?_, fun _ => rfl⟩⟩
    rw [valueAt, hf]
  | none =>
    dsimp only
    refine (find_gives hV hn hs (fun a ha => absurd ha List.not_mem_nil) (fun k hk => by cases hk) 0).bind fun c s' hs' he hc => ?_
    refine Grows.pure hs' ⟨hc.1, (hσ.extends he).setStackElement stackHeight hc.1, ⟨rfl, fun e hm => ?_⟩, fun hS => ?_⟩
    · rcases Assoc.mem_setSorted hm with rfl | hm
      · exact Or.inr hle
      · exact Or.inl hm
    · have hvalue : V c = valueAt ι V σ stackHeight := by
        rw [(hc.2 hS).2 (Or.inl fun ht => by cases ht) rfl, valueAt, hf]
        rfl
      refine ⟨hvalue, fun h => ?_⟩
      rw [valueAt_setStackElement]
      split
      · rename_i hh
        rw [hvalue, hh]
      · rfl

/-- The arguments are the values from a height down. -/
theorem stackArguments_gives {stackHeight : Int} (hle : stackHeight ≤ σ.m_stackHeight) (k : Nat) :
    Grows (stackArguments n stackHeight k σ) s fun r s' => (∀ a ∈ r.1, Below a s') ∧ r.1.length = k ∧ Within r.2 s' ∧ Looks σ r.2 ∧
      (Extends s' S → r.1.map V = (List.range k).map (fun i : Nat => valueAt ι V σ (stackHeight - i)) ∧
        ∀ h, valueAt ι V r.2 h = valueAt ι V σ h) := by
  induction k generalizing σ s stackHeight with
  | zero => exact Grows.pure hs ⟨fun a ha => absurd ha List.not_mem_nil, rfl, hσ, .refl σ, fun _ => ⟨rfl, fun _ => rfl⟩⟩
  | succ k ih =>
    rw [stackArguments]
    refine (stackElement_gives hn hV hs hσ hle).bind fun r s₁ hs₁ _ hr => ?_
    obtain ⟨a, σ₁⟩ := r
    obtain ⟨ha, hσ₁, hlooks₁, hvalue₁⟩ := hr
    have hle₁ : stackHeight - 1 ≤ σ₁.m_stackHeight := by
      rw [hlooks₁.height]
      omega
    refine (ih hs₁ hσ₁ hle₁).bind fun r s₂ hs₂ he₂ hr => ?_
    obtain ⟨as, σ₂⟩ := r
    obtain ⟨has, hlength, hσ₂, hlooks₂, hvalue₂⟩ := hr
    refine Grows.pure hs₂ ⟨fun b hb => ?_, congrArg (· + 1) hlength, hσ₂, hlooks₁.trans hlooks₂, fun hS => ?_⟩
    · rcases List.mem_cons.mp hb with rfl | hb
      · exact he₂.below ha
      · exact has b hb
    · obtain ⟨hfirst, hsame₁⟩ := hvalue₁ (he₂.trans hS)
      obtain ⟨hrest, hsame₂⟩ := hvalue₂ hS
      refine ⟨?_, fun h => (hsame₂ h).trans (hsame₁ h)⟩
      dsimp only at hfirst hrest
      rw [List.map_cons, hfirst, hrest, List.range_succ_eq_map, List.map_cons, List.map_map]
      congr 1
      · rw [Int.natCast_zero, Int.sub_zero]
      · refine List.map_congr_left fun i _ => ?_
        rw [hsame₁, Function.comp_apply, Nat.cast_succ, Int.sub_sub, Int.add_comm]

end

/-! ## The storage and the memory -/

/-- What is known stays so when something is looked up. -/
theorem Knows.looks {σ σ' : KnownState} (h : Knows sha3 ι V σ) (hlooks : Looks σ σ') : Knows sha3 ι V σ' := by
  rw [hlooks.frame]
  exact ⟨h.storage, h.memory, h.hashes⟩

/-- The interpretation has what a machine has then in its memory and its storage, if the sequence number says that they changed. -/
def Follows (ι : Interpretation) (σ σ' : KnownState) (m' : Contents) : Prop :=
  σ'.m_sequenceNumber ≠ σ.m_sequenceNumber → ι.memory σ'.m_sequenceNumber = m'.memory ∧ ι.storage σ'.m_sequenceNumber = m'.storage

/-- What is known is true, and the interpretation has the memory and the storage of a machine. -/
structure Holds (sha3 : Bytes → U256) (ι : Interpretation) (V : Id → U256) (σ : KnownState) (m : Contents) : Prop where
  knows : Knows sha3 ι V σ
  memory : ι.memory σ.m_sequenceNumber = m.memory
  storage : ι.storage σ.m_sequenceNumber = m.storage

/-- The stack is that of another known state, and the sequence number has not gone down. -/
structure SameStack (σ σ' : KnownState) : Prop where
  height : σ'.m_stackHeight = σ.m_stackHeight
  elements : σ'.m_stackElements = σ.m_stackElements
  sequenceNumber : σ.m_sequenceNumber ≤ σ'.m_sequenceNumber

theorem SameStack.refl (σ : KnownState) : SameStack σ σ := ⟨rfl, rfl, le_refl _⟩

/-- The same stack is the same after two steps. -/
theorem SameStack.trans {σ σ' σ'' : KnownState} (h : SameStack σ σ') (h' : SameStack σ' σ'') : SameStack σ σ'' :=
  ⟨h'.height.trans h.height, h'.elements.trans h.elements, h.sequenceNumber.trans h'.sequenceNumber⟩

/-- The stack and the hashes are those of another known state. -/
structure Beside (σ σ' : KnownState) : Prop extends SameStack σ σ' where
  hashes : σ'.m_knownSha3Hashes = σ.m_knownSha3Hashes

theorem Beside.refl (σ : KnownState) : Beside σ σ := ⟨.refl σ, rfl⟩

/-- Steps beside the stack make a run beside it. -/
theorem Beside.trans {σ σ' σ'' : KnownState} (h : Beside σ σ') (h' : Beside σ' σ'') : Beside σ σ'' :=
  ⟨h.toSameStack.trans h'.toSameStack, h'.hashes.trans h.hashes⟩

section

variable {s : ExpressionClasses} {σ : KnownState} {n : Nat} (hn : levels ≤ n) (hV : ι.Gives sha3 S V) (hs : Reached s) (hσ : Within σ s)

include hn hs in
/-- Classes that are known to differ have different values. -/
theorem grows_differs {a b : Id} (ha : Below a s) (hb : Below b s) : Grows (knownToBeDifferent n a b) s fun r _ =>
    r = true → ∀ β, valueOf β s.m_representatives a ≠ valueOf β s.m_representatives b := by
  obtain ⟨r, s', hknown, hs', hr⟩ := knownToBeDifferent_value hs hn ha hb
  have hgrows := grows_knownToBeDifferent hs hn ha hb
  rw [Grows, Runs, hknown] at hgrows ⊢
  exact ⟨hgrows.1, hgrows.2.1, hr⟩

include hn hV hs hσ

/-- What is stored in storage is what the state says, if it was right before. -/
theorem storeInStorage_gives {slot value : Id} (hslot : Below slot s) (hvalue : Below value s) :
    Grows (storeInStorage n σ slot value) s fun r s' => Within r.2 s' ∧ Beside σ r.2 ∧ (Extends s' S → ∀ m m' : Contents,
      Holds sha3 ι V σ m → m'.memory = m.memory → m'.storage = Function.update m.storage (V slot) (V value) → Follows ι σ r.2 m' →
      Holds sha3 ι V r.2 m') := by
  rw [storeInStorage]
  split
  · rename_i hfind
    refine Grows.pure hs ⟨hσ, .refl σ, fun _ m m' hm hmemory hstorage _ => ⟨hm.knows, hm.memory.trans hmemory.symm, ?_⟩⟩
    -- the storage is what it was
    have hknown := hm.knows.storage _ (Assoc.mem_of_find_eq_some hfind)
    dsimp only at hknown
    rw [hstorage, ← hm.storage, ← hknown, Function.update_eq_self]
  · refine (grows_copied (Q := fun e => (∀ β, valueOf β s.m_representatives e.1 ≠ valueOf β s.m_representatives slot) ∨ e.2 = value) hs
      fun e he s₁ hs₁ he₁ => ?_).bind fun l s₁ hs₁ he₁ hl => ?_
    · have hkey := (hσ.storage e he).1
      refine (grows_differs hn hs₁ (he₁.below hkey) (he₁.below hslot)).bind fun r s₂ hs₂ _ hr => ?_
      refine Grows.pure hs₂ fun htrue => ?_
      rcases Bool.or_eq_true_iff.mp htrue with hdiffers | heq
      · refine Or.inl fun β => ?_
        rw [← he₁.valueOf_eq β hkey, ← he₁.valueOf_eq β hslot]
        exact hr hdiffers β
      · exact Or.inr (of_decide_eq_true heq)
    · have hbelow : ∀ a ∈ [slot, value], Below a s₁ := below_two (he₁.below hslot) (he₁.below hvalue)
      refine (grows_find hs₁ hn hbelow (fun k hk => by cases hk) _).bind fun i s₂ hs₂ he₂ _ => ?_
      have he := he₁.trans he₂
      refine Grows.pure hs₂ ⟨(hσ.extends he).setStorage (fun e he => (hl e he).1) (he.below hslot) (he.below hvalue) _, ⟨⟨rfl, rfl, Nat.le_add_right _ 2⟩, rfl⟩,
        fun hS m m' hm hmemory hstorage hfollows => ?_⟩
      obtain ⟨hmemory', hstorage'⟩ := hfollows (by dsimp only; omega)
      obtain ⟨β, hβ⟩ := hV.assigned
      dsimp only at hmemory' hstorage'
      refine ⟨⟨fun e hmem => ?_, fun e hmem => ?_, hm.knows.hashes⟩, hmemory', hstorage'⟩
      · dsimp only at hmem ⊢
        rw [hstorage', hstorage]
        rcases Assoc.mem_setSorted hmem with rfl | hmem
        · exact Function.update_self _ _ _
        · obtain ⟨hold, hother⟩ := hl e hmem
          have hknown := hm.knows.storage e hold
          rw [hm.storage] at hknown
          by_cases hkey : V e.1 = V slot
          · rcases hother with hdiffers | hequal
            · refine absurd ?_ (hdiffers β)
              rw [← Interpretation.Gives.valueOf_eq (he.trans hS) hβ (hσ.storage e hold).1,
                ← Interpretation.Gives.valueOf_eq (he.trans hS) hβ hslot, hkey]
            · rw [hkey, Function.update_self, hequal]
          · rw [Function.update_of_ne hkey, hknown]
      · have hknown := hm.knows.memory e hmem
        dsimp only
        rwa [hmemory', hmemory, ← hm.memory]

/-- What is loaded from storage is what the contract's storage holds. -/
theorem loadFromStorage_gives {slot : Id} (hslot : Below slot s) :
    Grows (loadFromStorage n σ slot) s fun r s' => Below r.1 s' ∧ Within r.2 s' ∧ Beside σ r.2 ∧ (Extends s' S → ∀ m : Contents,
      Holds sha3 ι V σ m → Holds sha3 ι V r.2 m ∧ V r.1 = m.storage (V slot)) := by
  rw [loadFromStorage]
  cases hf : σ.m_storageContent.find slot with
  | some c =>
    have hmem : (slot, c) ∈ σ.m_storageContent := Assoc.mem_of_find_eq_some hf
    refine Grows.pure hs ⟨(hσ.storage _ hmem).2, hσ, .refl σ, fun _ m hm => ⟨hm, ?_⟩⟩
    have hknown := hm.knows.storage _ hmem
    rwa [hm.storage, eq_comm] at hknown
  | none =>
    dsimp only
    have hbelow : ∀ a ∈ [slot], Below a s := fun a ha => List.mem_singleton.mp ha ▸ hslot
    refine (find_gives hV hn hs hbelow (fun k hk => by cases hk) σ.m_sequenceNumber).bind fun c s' hs' he hc => ?_
    refine Grows.pure hs' ⟨hc.1, (hσ.extends he).setStorage (fun _ h => h) (he.below hslot) hc.1 _, ⟨⟨rfl, rfl, le_refl _⟩, rfl⟩, fun hS m hm => ?_⟩
    -- the class is that of the element for the sequence number
    have hvalue : V c = m.storage (V slot) := by
      rw [(hc.2 hS).2 (Or.inr rfl) rfl, ← hm.storage]
      rfl
    refine ⟨⟨⟨fun e hmem => ?_, hm.knows.memory, hm.knows.hashes⟩, hm.memory, hm.storage⟩, hvalue⟩
    rcases Assoc.mem_setSorted hmem with rfl | hmem
    · dsimp only
      rw [hvalue, hm.storage]
    · exact hm.knows.storage e hmem

/-- What is stored in memory is what the state says, if it was right before. -/
theorem storeInMemory_gives {slot value : Id} (hslot : Below slot s) (hvalue : Below value s) :
    Grows (storeInMemory n σ slot value) s fun r s' => Within r.2 s' ∧ Beside σ r.2 ∧ (Extends s' S → ∀ m m' : Contents,
      Holds sha3 ι V σ m → m'.storage = m.storage → m'.memory = storeWord m.memory (V slot) (V value) → Follows ι σ r.2 m' →
      Holds sha3 ι V r.2 m') := by
  rw [storeInMemory]
  split
  · rename_i hfind
    refine Grows.pure hs ⟨hσ, .refl σ, fun _ m m' hm hstorage hmemory _ => ⟨hm.knows, ?_, hm.storage.trans hstorage.symm⟩⟩
    -- the memory is what it was
    have hknown := hm.knows.memory _ (Assoc.mem_of_find_eq_some hfind)
    dsimp only at hknown
    rw [hmemory, ← hm.memory, ← hknown, store_word]
  · refine (grows_copied (Q := fun e => ∀ β, 32 ≤ (valueOf β s.m_representatives e.1 - valueOf β s.m_representatives slot).toNat ∧
      32 ≤ (valueOf β s.m_representatives slot - valueOf β s.m_representatives e.1).toNat) hs fun e he s₁ hs₁ he₁ => ?_).bind
      fun l s₁ hs₁ he₁ hl => ?_
    · have hkey := (hσ.memory e he).1
      refine (grows_knownToBeDifferentBy32 hs₁ hn (he₁.below hkey) (he₁.below hslot)).mono fun r s₂ _ _ hr htrue β => ?_
      rw [← he₁.valueOf_eq β hkey, ← he₁.valueOf_eq β hslot]
      exact hr htrue β
    · have hbelow : ∀ a ∈ [slot, value], Below a s₁ := below_two (he₁.below hslot) (he₁.below hvalue)
      refine (grows_find hs₁ hn hbelow (fun k hk => by cases hk) _).bind fun i s₂ hs₂ he₂ _ => ?_
      have he := he₁.trans he₂
      have hσ₂ := hσ.extends he
      refine Grows.pure hs₂ ⟨⟨hσ₂.stack, hσ₂.storage, fun e hm => ?_, hσ₂.tags⟩, ⟨⟨rfl, rfl, Nat.le_add_right _ 2⟩, rfl⟩, fun hS m m' hm hstorage hmemory hfollows => ?_⟩
      · rcases Assoc.mem_setSorted hm with rfl | hm
        · exact ⟨he.below hslot, he.below hvalue⟩
        · exact hσ₂.memory e (hl e hm).1
      obtain ⟨hmemory', hstorage'⟩ := hfollows (by dsimp only; omega)
      obtain ⟨β, hβ⟩ := hV.assigned
      dsimp only at hmemory' hstorage'
      refine ⟨⟨fun e hmem => ?_, fun e hmem => ?_, hm.knows.hashes⟩, hmemory', hstorage'⟩
      · have hknown := hm.knows.storage e hmem
        dsimp only
        rwa [hstorage', hstorage, ← hm.storage]
      · dsimp only at hmem ⊢
        rw [hmemory', hmemory]
        rcases Assoc.mem_setSorted hmem with rfl | hmem
        · exact word_store _ _ _
        · -- the entries that are kept are far enough away
          obtain ⟨hold, hfar⟩ := hl e hmem
          have hknown := hm.knows.memory e hold
          rw [hm.memory] at hknown
          have hkey := Interpretation.Gives.valueOf_eq (he.trans hS) hβ (hσ.memory e hold).1
          have hto := Interpretation.Gives.valueOf_eq (he.trans hS) hβ hslot
          rw [word_store_apart, hknown]
          · rw [hkey, hto]
            exact (hfar β).2
          · rw [hkey, hto]
            exact (hfar β).1

/-- What is loaded from memory is the word there. -/
theorem loadFromMemory_gives {slot : Id} (hslot : Below slot s) :
    Grows (loadFromMemory n σ slot) s fun r s' => Below r.1 s' ∧ Within r.2 s' ∧ Beside σ r.2 ∧
      r.2.m_sequenceNumber = σ.m_sequenceNumber ∧ (Extends s' S → ∀ m : Contents,
      Holds sha3 ι V σ m → Holds sha3 ι V r.2 m ∧ V r.1 = word m.memory (V slot)) := by
  rw [loadFromMemory]
  cases hf : σ.m_memoryContent.find slot with
  | some c =>
    have hmem : (slot, c) ∈ σ.m_memoryContent := Assoc.mem_of_find_eq_some hf
    refine Grows.pure hs ⟨(hσ.memory _ hmem).2, hσ, .refl σ, rfl, fun _ m hm => ⟨hm, ?_⟩⟩
    have hknown := hm.knows.memory _ hmem
    rwa [hm.memory, eq_comm] at hknown
  | none =>
    dsimp only
    have hbelow : ∀ a ∈ [slot], Below a s := fun a ha => List.mem_singleton.mp ha ▸ hslot
    refine (find_gives hV hn hs hbelow (fun k hk => by cases hk) σ.m_sequenceNumber).bind fun c s' hs' he hc => ?_
    have hσ' := hσ.extends he
    refine Grows.pure hs' ⟨hc.1, ⟨hσ'.stack, hσ'.storage, fun e hm => ?_, hσ'.tags⟩, ⟨⟨rfl, rfl, le_refl _⟩, rfl⟩, rfl, fun hS m hm => ?_⟩
    · rcases Assoc.mem_setSorted hm with rfl | hm
      · exact ⟨he.below hslot, hc.1⟩
      · exact hσ'.memory e hm
    -- the class is that of the word for the sequence number
    have hvalue : V c = word m.memory (V slot) := by
      rw [(hc.2 hS).2 (Or.inr rfl) rfl, ← hm.memory]
      rfl
    refine ⟨⟨⟨hm.knows.storage, fun e hmem => ?_, hm.knows.hashes⟩, hm.memory, hm.storage⟩, hvalue⟩
    rcases Assoc.mem_setSorted hmem with rfl | hmem
    · dsimp only
      rw [hvalue, hm.memory]
    · exact hm.knows.memory e hmem

end

/-! ## Hashes -/

section

variable {s : ExpressionClasses} {σ : KnownState} {n : Nat} (hn : levels ≤ n) (hV : ι.Gives sha3 S V)

include hn hV

/-- The words that are loaded are those in memory. -/
theorem loadWords_gives (hs : Reached s) (hσ : Within σ s) {start : Id} (hstart : Below start s) (is : List U256) :
    Grows (loadWords n start is σ) s fun r s' => ((∀ w ∈ r.1, Below w s') ∧ r.1.length = is.length) ∧ Within r.2 s' ∧ Beside σ r.2 ∧
      r.2.m_sequenceNumber = σ.m_sequenceNumber ∧ (Extends s' S → ∀ m : Contents, Holds sha3 ι V σ m →
      Holds sha3 ι V r.2 m ∧ r.1.map V = is.map fun i => word m.memory (V start + i)) := by
  induction is generalizing s σ with
  | nil => exact Grows.pure hs ⟨⟨fun w hw => absurd hw List.not_mem_nil, rfl⟩, hσ, .refl σ, rfl, fun _ m hm => ⟨hm, rfl⟩⟩
  | cons i is ih =>
    rw [loadWords]
    refine (find_gives hV hn hs (fun a ha => absurd ha List.not_mem_nil) (fun k hk => by cases hk) 0).bind fun c s₁ hs₁ he₁ hc => ?_
    have hargs : ∀ a ∈ [start, c], Below a s₁ := below_two (he₁.below hstart) hc.1
    refine (find_gives hV hn hs₁ hargs (fun k hk => by cases hk; rfl) 0).bind fun slot s₂ hs₂ he₂ hslot => ?_
    refine (loadFromMemory_gives hn hV hs₂ (hσ.extends (he₁.trans he₂)) hslot.1).bind fun r s₃ hs₃ he₃ hr => ?_
    obtain ⟨w, σ₃⟩ := r
    obtain ⟨hw, hσ₃, hstack₃, hseq₃, hholds₃⟩ := hr
    refine (ih hs₃ hσ₃ ((he₁.trans (he₂.trans he₃)).below hstart)).bind fun r s₄ hs₄ he₄ hr => ?_
    obtain ⟨ws, σ₄⟩ := r
    obtain ⟨⟨hws, hlength⟩, hσ₄, hstack₄, hseq₄, hholds₄⟩ := hr
    refine Grows.pure hs₄ ⟨⟨fun v hv => ?_, congrArg (· + 1) hlength⟩, hσ₄, hstack₃.trans hstack₄, hseq₄.trans hseq₃, fun hS m hm => ?_⟩
    · rcases List.mem_cons.mp hv with rfl | hv
      · exact he₄.below hw
      · exact hws v hv
    · -- the slot is that far behind the start
      have hconst : V c = i := (hc.2 (he₂.trans (he₃.trans (he₄.trans hS)))).1 i (itemValue_push rfl _)
      have hsum : V slot = V start + i := by
        refine (hslot.2 (he₃.trans (he₄.trans hS))).1 _ ((itemValue_ofInstruction rfl _).trans ?_)
        exact congrArg some ((congrArg (· + V start) hconst).trans (BitVec.add_comm _ _))
      obtain ⟨hm₃, hword⟩ := hholds₃ (he₄.trans hS) m hm
      obtain ⟨hm₄, hwords⟩ := hholds₄ hS m hm₃
      refine ⟨hm₄, ?_⟩
      dsimp only at hword hwords
      rw [List.map_cons, List.map_cons, hword, hwords, hsum]

/-- The class that is found for the operation on the operands. -/
theorem findSha3_gives (hs : Reached s) {start length : Id} (hstart : Below start s) (hlength : Below length s) :
    Grows (find n (.ofInstruction .SHA3) [start, length] σ.m_sequenceNumber) s fun v s' => Below v s' ∧ (Extends s' S → ∀ m : Contents,
      Holds sha3 ι V σ m → V v = sha3 (m.memory.read (V start) (V length).toNat)) := by
  refine (find_gives hV hn hs (below_two hstart hlength) (fun k hk => by cases hk) _).mono fun v s' hs' he hv => ⟨hv.1, fun hS m hm => ?_⟩
  rw [(hv.2 hS).2 (Or.inr rfl) rfl, ← hm.memory]
  rfl

/-- The class of a hash has the value of the hash of these words. -/
theorem hashWords_gives (hs : Reached s) {start length : Id} (hstart : Below start s) (hlength : Below length s) {l : U256}
    {words : List Id} (hwords : ∀ w ∈ words, Below w s) :
    Grows (hashWords sha3 n σ start length l words) s fun v s' => Below v s' ∧ (Extends s' S → ∀ m : Contents, Holds sha3 ι V σ m →
      m.memory.read (V start) (V length).toNat = dataOf (words.map V) l → V v = sha3 (dataOf (words.map V) l)) := by
  rw [hashWords]
  refine Grows.bind_ok (mapM_knownConstant hwords) ?_
  split
  · rename_i hall
    have harity : ∀ k, (AssemblyItem.push (sha3 (dataOf (words.map (constantOf s)).reduceOption l))).arity = some k →
        ([] : List Id).length = k := fun k hk => by cases hk
    refine (find_gives hV hn hs (fun a ha => absurd ha List.not_mem_nil) harity 0).mono fun v s' hs' he hv => ⟨hv.1, fun hS m _ _ => ?_⟩
    obtain ⟨β, hβ⟩ := hV.assigned
    have hconstants : (words.map (constantOf s)).reduceOption = words.map V := by
      rw [reduceOption_constants hs ⟨β, fun _ _ => 0⟩ hall]
      exact List.map_congr_left fun w hw => (Interpretation.Gives.valueOf_eq (he.trans hS) hβ (hwords w hw)).symm
    rw [(hv.2 hS).1 _ (itemValue_push rfl _), hconstants]
    rfl
  · refine (findSha3_gives hn hV hs hstart hlength).mono fun v s' _ _ hv => ⟨hv.1, fun hS m hm hdata => ?_⟩
    rw [hv.2 hS m hm, hdata]

/-- A hash has the class of its value, if all bytes of its words are hashed. -/
theorem applySha3_gives (hs : Reached s) (hσ : Within σ s) (hhashes : ∀ e ∈ σ.m_knownSha3Hashes, Below e.2 s) {start length : Id}
    (hstart : Below start s) (hlength : Below length s) :
    Grows (applySha3 sha3 n σ start length) s fun r s' => Below r.1 s' ∧ Within r.2 s' ∧ SameStack σ r.2 ∧
      (∀ e ∈ r.2.m_knownSha3Hashes, Below e.2 s') ∧ r.2.m_sequenceNumber = σ.m_sequenceNumber ∧ (Extends s' S → ∀ m : Contents,
      Holds sha3 ι V σ m → (V length ≤ 128 → 32 ∣ (V length).toNat) →
      Holds sha3 ι V r.2 m ∧ V r.1 = sha3 (m.memory.read (V start) (V length).toNat)) := by
  rw [applySha3]
  rcases shortLength_cases hlength with hshort | ⟨l, hl, hshort⟩
  · refine Grows.bind_ok hshort ?_
    refine (findSha3_gives (σ := σ) hn hV hs hstart hlength).bind fun v s' hs' he hv => ?_
    exact Grows.pure hs' ⟨hv.1, hσ.extends he, .refl σ, fun e hm => he.below (hhashes e hm), rfl, fun hS m hm _ => ⟨hm, hv.2 hS m hm⟩⟩
  · have hle : l ≤ 128 := by
      by_contra hgt
      have hnone : shortLength length s = .ok none s := by
        rw [shortLength]
        refine bind_eq_result_ok.mpr ⟨_, s, knownConstant_eq hlength, ?_⟩
        rw [hl]
        dsimp only
        rw [if_pos (BitVec.not_le.mp hgt)]
        rfl
      rw [hshort] at hnone
      cases hnone
    refine Grows.bind_ok hshort ?_
    dsimp only
    refine (loadWords_gives hn hV hs hσ hstart (offsets l)).bind fun r s₁ hs₁ he₁ hr => ?_
    obtain ⟨words, σ₁⟩ := r
    dsimp only at hr ⊢
    obtain ⟨⟨hwords, hcount⟩, hσ₁, hbeside₁, hseq₁, hholds₁⟩ := hr
    have hhashes₁ : ∀ e ∈ σ₁.m_knownSha3Hashes, Below e.2 s₁ := by
      rw [hbeside₁.hashes]
      exact fun e hm => he₁.below (hhashes e hm)
    -- the bytes that are hashed are those of the words, and all of them
    have hdata : Extends s₁ S → ∀ m : Contents, Holds sha3 ι V σ m → (V length ≤ 128 → 32 ∣ (V length).toNat) →
        m.memory.read (V start) (V length).toNat = dataOf (words.map V) l ∧ BitVec.ofNat 256 (32 * words.length) = l := by
      intro hS m hm hwhole
      obtain ⟨β, hβ⟩ := hV.assigned
      have hvalue : V length = l := by
        rw [Interpretation.Gives.valueOf_eq (he₁.trans hS) hβ hlength, valueOf_constantOf hs hl]
      rw [hvalue] at hwhole ⊢
      refine ⟨by rw [read_eq_dataOf, (hholds₁ hS m hm).2], ?_⟩
      obtain ⟨k, hk⟩ := hwhole hle
      have hround : 32 * ((l.toNat + 31) / 32) = l.toNat := by omega
      rw [hcount, offsets, List.length_map, List.length_range, hround, BitVec.ofNat_toNat, BitVec.setWidth_eq]
    cases hf : σ₁.m_knownSha3Hashes.find words with
    | some v =>
      have hmem : (words, v) ∈ σ₁.m_knownSha3Hashes := Assoc.mem_of_find_eq_some hf
      refine Grows.pure hs₁ ⟨hhashes₁ _ hmem, hσ₁, hbeside₁.toSameStack, hhashes₁, hseq₁, fun hS m hm hwhole => ?_⟩
      obtain ⟨hread, hall⟩ := hdata hS m hm hwhole
      have hm₁ := (hholds₁ hS m hm).1
      have hknown := hm₁.knows.hashes _ hmem
      dsimp only at hknown
      rw [hall] at hknown
      exact ⟨hm₁, hknown.trans (by rw [hread])⟩
    | none =>
      dsimp only
      refine (hashWords_gives (σ := σ₁) hn hV hs₁ (he₁.below hstart) (he₁.below hlength) hwords).bind fun v s₂ hs₂ he₂ hv => ?_
      have hσ₂ := hσ₁.extends he₂
      refine Grows.pure hs₂ ⟨hv.1, ⟨hσ₂.stack, hσ₂.storage, hσ₂.memory, hσ₂.tags⟩, ⟨hbeside₁.height, hbeside₁.elements, hbeside₁.sequenceNumber⟩, fun e hm => ?_,
        hseq₁, fun hS m hm hwhole => ?_⟩
      · rcases Assoc.mem_set hm with rfl | hm
        · exact hv.1
        · exact he₂.below (hhashes₁ e hm)
      have hm₁ := (hholds₁ (he₂.trans hS) m hm).1
      obtain ⟨hread, hall⟩ := hdata (he₂.trans hS) m hm hwhole
      have hhash := hv.2 hS m hm₁ hread
      refine ⟨⟨⟨hm₁.knows.storage, hm₁.knows.memory, fun e hmem => ?_⟩, hm₁.memory, hm₁.storage⟩, by rw [hread]; exact hhash⟩
      rcases Assoc.mem_set hmem with rfl | hmem
      · dsimp only
        rw [hall, hhash]
      · exact hm₁.knows.hashes e hmem

end

/-! ## What an instruction does -/

/-- What the instruction of an item does to the contents of a machine, as far as known states are about it. -/
structure Acts (sha3 : Bytes → U256) (f : ExtFields) (item : AssemblyItem) (m m' : Contents) : Prop where
  args : (instructionInfo item.instruction).args ≤ m.stack.length
  rest : m'.stack.drop (instructionInfo item.instruction).ret = m.stack.drop (instructionInfo item.instruction).args
  dup : ∀ k, item.instruction = .DUP k → m'.stack = m.stack.getD k 0 :: m.stack
  swap : ∀ k, item.instruction = .SWAP k → m'.stack = (m.stack.set 0 (m.stack.getD (k + 1) 0)).set (k + 1) (m.stack.getD 0 0)
  result : (instructionInfo item.instruction).ret = 1 → isDeterministic item = true →
    m'.stack[0]? = some (answerOf sha3 f m.memory m.storage item.instruction (m.stack.take (instructionInfo item.instruction).args))
  stored : item.instruction = .MSTORE → m'.memory = storeWord m.memory (m.stack.getD 0 0) (m.stack.getD 1 0)
  memory : invalidatesMemory item.instruction = false → m'.memory = m.memory
  written : item.instruction = .SSTORE → m'.storage = Function.update m.storage (m.stack.getD 0 0) (m.stack.getD 1 0)
  storage : invalidatesStorage item.instruction = false → m'.storage = m.storage

/-- What an item does. -/
inductive ItemActs (sha3 : Bytes → U256) (f : ExtFields) (pushed : AssemblyItem → U256) (item : AssemblyItem) (m : Contents) : Contents → Prop
  | tag : item.type = .Tag → ItemActs sha3 f pushed item m m
  | push : item.type ≠ .Tag → item.type ≠ .Operation → item.type ≠ .UndefinedItem →
      ItemActs sha3 f pushed item m { m with stack := (if item.type = .Push then item.data else pushed item) :: m.stack }
  | operation {m' : Contents} : item.type = .Operation → (∀ k, item.instruction ≠ .PUSH k) → Acts sha3 f item m m' →
      ItemActs sha3 f pushed item m m'

/-- The known state agrees with the contents of a machine. -/
structure Agrees (sha3 : Bytes → U256) (ι : Interpretation) (V : Id → U256) (σ : KnownState) (m : Contents) : Prop
    extends Holds sha3 ι V σ m where
  top : ∀ e ∈ σ.m_stackElements, e.1 ≤ σ.m_stackHeight
  stack : ∀ (k : Nat) x, m.stack[k]? = some x → valueAt ι V σ (σ.m_stackHeight - k) = x

/-- A state agrees with a machine also after a lookup. -/
theorem Agrees.looks {σ σ' : KnownState} {m : Contents} (h : Agrees sha3 ι V σ m) (hlooks : Looks σ σ')
    (hsame : ∀ h, valueAt ι V σ' h = valueAt ι V σ h) : Agrees sha3 ι V σ' m := by
  have hsequence : σ'.m_sequenceNumber = σ.m_sequenceNumber := by rw [hlooks.frame]
  refine ⟨⟨h.knows.looks hlooks, by rw [hsequence, h.memory], by rw [hsequence, h.storage]⟩, fun e he => ?_, fun k x hx => ?_⟩
  · rw [hlooks.height]
    exact (hlooks.top e he).elim (h.top e) id
  · rw [hlooks.height, hsame, h.stack k x hx]

/-! ## The stack after an operation -/

/-- Elements up to a height are found as before, and no others. -/
theorem find_upTo (l : Assoc Int Id) (height h : Int) : Assoc.find (l.filter fun e => e.1 ≤ height) h = if h ≤ height then l.find h else none := by
  induction l with
  | nil => rw [List.filter_nil, Assoc.find, ite_self]
  | cons e l ih =>
    rw [List.filter_cons, Assoc.find_cons]
    by_cases he : e.1 ≤ height
    · rw [if_pos (decide_eq_true he), Assoc.find_cons, ih]
      by_cases hh : h = e.1
      · rw [if_pos hh, if_pos hh, if_pos (hh ▸ he)]
      · rw [if_neg hh, if_neg hh]
    · rw [if_neg (by simpa using he), ih]
      by_cases hh : h = e.1
      · rw [if_neg (hh ▸ he), if_neg (hh ▸ he)]
      · rw [if_neg hh]

/-- Below the new height the elements keep their values. -/
theorem valueAt_settle (σ : KnownState) (item : AssemblyItem) {h : Int} (hle : h ≤ σ.m_stackHeight + item.deposit) :
    valueAt ι V (σ.settle item) h = valueAt ι V σ h := by
  rw [valueAt, settle]
  dsimp only
  rw [find_upTo, if_pos hle]
  rfl

/-- The stack after an operation that takes `a` arguments and leaves `r` elements, where the stack below them stays. -/
theorem agrees_settle {σ σ' : KnownState} {item : AssemblyItem} {m m' : Contents} {a r : Nat} (hholds : Holds sha3 ι V σ' m')
    (hagrees : Agrees sha3 ι V σ m) (hheight : σ'.m_stackHeight = σ.m_stackHeight) (hdeposit : item.deposit = r - a)
    (hrest : m'.stack.drop r = m.stack.drop a) (hbelow : ∀ h ≤ σ.m_stackHeight - a, valueAt ι V σ' h = valueAt ι V σ h)
    (hfirst : ∀ k < r, ∀ x, m'.stack[k]? = some x → valueAt ι V σ' (σ.m_stackHeight + item.deposit - k) = x) :
    Agrees sha3 ι V (σ'.settle item) m' := by
  refine ⟨⟨⟨hholds.knows.storage, hholds.knows.memory, hholds.knows.hashes⟩, hholds.memory, hholds.storage⟩, fun e he => ?_, fun k x hx => ?_⟩
  · exact of_decide_eq_true (List.mem_filter.mp he).2
  · have hnew : (σ'.settle item).m_stackHeight = σ.m_stackHeight + item.deposit := by
      rw [← hheight]
      rfl
    rw [hnew, valueAt_settle _ _ (by rw [hheight]; omega)]
    by_cases hk : k < r
    · exact hfirst k hk x hx
    · -- the elements below stay where they are
      obtain ⟨j, rfl⟩ := Nat.exists_eq_add_of_le (Nat.not_lt.mp hk)
      have hplace : σ.m_stackHeight + item.deposit - ((r + j : Nat) : Int) = σ.m_stackHeight - ((a + j : Nat) : Int) := by
        rw [hdeposit]
        omega
      rw [hplace, hbelow _ (by omega)]
      refine hagrees.stack (a + j) x ?_
      rw [← List.getElem?_drop, ← hrest, List.getElem?_drop, hx]

/-! ## Operations -/

/-- Where the result of an operation goes, if there is one. -/
structure Puts (σ σ' : KnownState) (item : AssemblyItem) (o : Option Id) : Prop where
  height : σ'.m_stackHeight = σ.m_stackHeight
  sequenceNumber : σ.m_sequenceNumber ≤ σ'.m_sequenceNumber
  elements : σ'.m_stackElements = o.elim σ.m_stackElements fun c => σ.m_stackElements.setSorted (σ.m_stackHeight + item.deposit, c)
  some : o.isSome = true ↔ (instructionInfo item.instruction).ret = 1

/-- The class of the result has its value, if that of an instruction that is not deterministic has. -/
def Answers (ι : Interpretation) (V : Id → U256) (item : AssemblyItem) (m' : Contents) (o : Option Id) : Prop :=
  (∀ c ∈ o, isDeterministic item = false → ∀ x, m'.stack[0]? = some x → ι.outcome c = x) → ∀ c ∈ o, ∀ x, m'.stack[0]? = some x → V c = x

section

variable {s : ExpressionClasses} {σ : KnownState} {n : Nat} (hn : levels ≤ n) (hV : ι.Gives sha3 S V) (hs : Reached s)

/-- What an instruction does not invalidate holds as before. -/
theorem Holds.invalidate {m m' : Contents} (hm : Holds sha3 ι V σ m) {i : Instruction} (hmemory : invalidatesMemory i = false → m'.memory = m.memory)
    (hstorage : invalidatesStorage i = false → m'.storage = m.storage) (hfollows : Follows ι σ (σ.invalidate i) m') :
    Holds sha3 ι V (σ.invalidate i) m' := by
  rw [Follows] at hfollows
  rw [KnownState.invalidate] at hfollows ⊢
  cases hmem : invalidatesMemory i <;> cases hstor : invalidatesStorage i <;> simp only [hmem, hstor, or_self, if_true, if_false,
    Bool.false_eq_true, or_true, true_or, resetMemory, resetStorage] at hfollows ⊢
  · exact ⟨hm.knows, hm.memory.trans (hmemory hmem).symm, hm.storage.trans (hstorage hstor).symm⟩
  · obtain ⟨hmemory', hstorage'⟩ := hfollows (by omega)
    refine ⟨⟨fun e he => absurd he List.not_mem_nil, fun e he => ?_, hm.knows.hashes⟩, hmemory', hstorage'⟩
    dsimp only
    rw [hmemory', hmemory hmem, ← hm.memory]
    exact hm.knows.memory e he
  · obtain ⟨hmemory', hstorage'⟩ := hfollows (by omega)
    refine ⟨⟨fun e he => ?_, fun e he => absurd he List.not_mem_nil, hm.knows.hashes⟩, hmemory', hstorage'⟩
    dsimp only
    rw [hstorage', hstorage hstor, ← hm.storage]
    exact hm.knows.storage e he
  · obtain ⟨hmemory', hstorage'⟩ := hfollows (by omega)
    exact ⟨⟨fun e he => absurd he List.not_mem_nil, fun e he => absurd he List.not_mem_nil, hm.knows.hashes⟩, hmemory', hstorage'⟩

/-- To set an element makes nothing wrong of storage and memory. -/
theorem Holds.setStackElement {m : Contents} (hm : Holds sha3 ι V σ m) (stackHeight : Int) (c : Id) :
    Holds sha3 ι V (σ.setStackElement stackHeight c) m := ⟨⟨hm.knows.storage, hm.knows.memory, hm.knows.hashes⟩, hm.memory, hm.storage⟩

/-- An instruction without a result puts nothing. -/
theorem Beside.puts_none {σ' : KnownState} (h : Beside σ σ') {item : AssemblyItem} (hret : (instructionInfo item.instruction).ret ≠ 1) :
    Puts σ σ' item none := ⟨h.height, h.sequenceNumber, h.elements, iff_of_false Bool.false_ne_true hret⟩

/-- An instruction with a result puts its class on top. -/
theorem SameStack.puts_some {σ' : KnownState} (h : SameStack σ σ') {item : AssemblyItem} (hret : (instructionInfo item.instruction).ret = 1)
    (c : Id) : Puts σ (σ'.setStackElement (σ.m_stackHeight + item.deposit) c) item (some c) := by
  refine ⟨h.height, h.sequenceNumber, ?_, iff_of_true rfl hret⟩
  rw [KnownState.setStackElement, h.elements]
  rfl

/-- Without a class nothing is said of the result. -/
theorem answers_none (item : AssemblyItem) (m' : Contents) : Answers ι V item m' none := fun _ c hc => by cases hc

/-- Of a short hash, all bytes of the words are hashed. -/
def Whole (item : AssemblyItem) (stack : List U256) : Prop :=
  item.type = .Operation → item.instruction = .SHA3 → stack.getD 1 0 ≤ 128 → 32 ∣ (stack.getD 1 0).toNat

/-- What is taken from the front is there. -/
theorem getD_of_take {l : List U256} {k : Nat} {vs : List U256} (h : vs = l.take k) {j : Nat} (hj : j < vs.length) :
    l.getD j 0 = vs.getD j 0 := by
  subst h
  rw [List.getD_eq_getElem?_getD, List.getD_eq_getElem?_getD, List.getElem?_take_of_lt]
  exact lt_of_lt_of_le hj (List.length_take_le _ _)

/-- The instructions with a case of their own are the only ones whose answers are from the memory or the storage. -/
theorem answer_of_other (f : ExtFields) (memory : ByteMemory 256) (storage : U256 → U256) {i : Instruction} {args : List U256}
    (hload : ∀ a, (i, args) ≠ (.MLOAD, [a])) (hslot : ∀ a, (i, args) ≠ (.SLOAD, [a])) (hhash : ∀ a l, (i, args) ≠ (.SHA3, [a, l])) :
    answerOf sha3 f memory storage i args = (arith i args).getD (surroundings f i args) := by
  unfold answerOf
  split
  · exact absurd rfl (hload _)
  · exact absurd rfl (hslot _)
  · exact absurd rfl (hhash _ _)
  · rfl

/-- Arithmetic is deterministic. -/
theorem isDeterministic_of_arith {item : AssemblyItem} {args : List U256} {v : U256} (h : arith item.instruction args = some v) :
    isDeterministic item = true := by
  rw [arith] at h
  rw [isDeterministic]
  split
  · rfl
  · cases hi : item.instruction with
    | CALL | CALLCODE | DELEGATECALL | CREATE | GAS | PC | MSIZE | BALANCE | EXTCODESIZE =>
      rw [hi] at h
      cases h
    | _ => rfl

/-- To forget leaves the height. -/
theorem invalidate_stackHeight (σ : KnownState) (i : Instruction) : (σ.invalidate i).m_stackHeight = σ.m_stackHeight := by
  rw [KnownState.invalidate]
  cases invalidatesMemory i <;> cases invalidatesStorage i <;> rfl

include hn hV hs in
/-- The operations without a case of their own. -/
theorem otherArguments_gives (hσ : Within σ s) (hhashes : ∀ e ∈ σ.m_knownSha3Hashes, Below e.2 s) {item : AssemblyItem}
    (ht : item.type = .Operation) {arguments : List Id} (hargs : ∀ a ∈ arguments, Below a s)
    (hcount : arguments.length = (instructionInfo item.instruction).args)
    (hsload : ∀ slot, item.instruction = .SLOAD → arguments = [slot] → False)
    (hmload : ∀ slot, item.instruction = .MLOAD → arguments = [slot] → False)
    (hsha3 : ∀ start length, item.instruction = .SHA3 → arguments = [start, length] → False) :
    Grows (if (instructionInfo item.instruction).ret > 1 then throw .InvalidDeposit
      else if (instructionInfo item.instruction).ret = 1 then do
        let c ← find n item arguments 0
        return (none, (σ.invalidate item.instruction).setStackElement (σ.m_stackHeight + item.deposit) c)
      else return (none, σ.invalidate item.instruction) : M (Option StoreOperation × KnownState)) s fun r s' =>
      Within r.2 s' ∧ (∀ e ∈ r.2.m_knownSha3Hashes, Below e.2 s') ∧
      ∃ o, Puts σ r.2 item o ∧ (Extends s' S → ∀ m m' : Contents, Holds sha3 ι V σ m →
        arguments.map V = m.stack.take (instructionInfo item.instruction).args → Acts sha3 ι.fields item m m' → Whole item m.stack →
        Follows ι σ r.2 m' → Holds sha3 ι V r.2 m' ∧ Answers ι V item m' o) := by
  have hwithin := hσ.invalidate item.instruction
  have hheight := invalidate_stackHeight σ item.instruction
  have helements : (σ.invalidate item.instruction).m_stackElements = σ.m_stackElements := by
    rw [KnownState.invalidate]
    cases invalidatesMemory item.instruction <;> cases invalidatesStorage item.instruction <;> rfl
  have hsequence : σ.m_sequenceNumber ≤ (σ.invalidate item.instruction).m_sequenceNumber := by
    rw [invalidate_sequenceNumber]
    split <;> omega
  have hbeside : Beside σ (σ.invalidate item.instruction) := ⟨⟨hheight, helements, hsequence⟩, invalidate_hashes σ _⟩
  split
  · exact Grows.throw _
  · split
    · rename_i hret
      refine (find_gives hV hn hs hargs (fun k hk => hcount.trans (args_of_arity hk)) 0).bind fun c s' hs' he hc => ?_
      have hhashes' : ∀ e ∈ (σ.invalidate item.instruction).m_knownSha3Hashes, Below e.2 s' := by
        rw [hbeside.hashes]
        exact fun e hm => he.below (hhashes e hm)
      have hanswer : ∀ memory storage, answerOf sha3 ι.fields memory storage item.instruction (arguments.map V) =
          (arith item.instruction (arguments.map V)).getD (surroundings ι.fields item.instruction (arguments.map V)) := by
        intro memory storage
        refine answer_of_other _ _ _ (fun a h => ?_) (fun a h => ?_) fun a l h => ?_
        · obtain ⟨hi, hmap⟩ := Prod.mk.inj h
          obtain ⟨slot, rfl⟩ := List.length_eq_one_iff.mp ((List.length_map V).symm.trans (congrArg List.length hmap))
          exact hmload slot hi rfl
        · obtain ⟨hi, hmap⟩ := Prod.mk.inj h
          obtain ⟨slot, rfl⟩ := List.length_eq_one_iff.mp ((List.length_map V).symm.trans (congrArg List.length hmap))
          exact hsload slot hi rfl
        · obtain ⟨hi, hmap⟩ := Prod.mk.inj h
          obtain ⟨start, length, rfl⟩ := List.length_eq_two.mp ((List.length_map V).symm.trans (congrArg List.length hmap))
          exact hsha3 start length hi rfl
      refine Grows.pure hs' ⟨(hwithin.extends he).setStackElement _ hc.1, hhashes', some c, hbeside.toSameStack.puts_some hret c,
        fun hS m m' hm htake hacts _ hfollows => ⟨(hm.invalidate hacts.memory hacts.storage hfollows).setStackElement _ _, ?_⟩⟩
      intro houtcome d hd x hx
      cases hd
      obtain ⟨hvalue, hbase⟩ := hc.2 hS
      rw [itemValue_operation ht] at hvalue hbase
      cases harith : arith item.instruction (arguments.map V) with
      | some v =>
        have hdeterministic : isDeterministic item = true := isDeterministic_of_arith harith
        have hresult := hacts.result hret hdeterministic
        rw [hx, ← htake, hanswer, harith] at hresult
        rw [hvalue v harith, Option.some.inj hresult]
        rfl
      | none =>
        have hplain : item.Plain := by
          cases ho : operator item.instruction with
          | none => exact Or.inr ho
          | some o =>
            have hk : item.arity = some o.arity := by rw [AssemblyItem.arity, if_pos ht, ho]; rfl
            have hlength : (arguments.map V).length = o.arity := by rw [List.length_map, hcount, args_of_arity hk]
            obtain ⟨v, hv, _⟩ := itemValue_of_arity hk hlength
            rw [itemValue_operation ht, harith] at hv
            cases hv
        rw [hbase hplain harith, Interpretation.base, ht]
        dsimp only
        cases hd : isDeterministic item with
        | false => exact houtcome c rfl hd x hx
        | true =>
          have hresult := hacts.result hret hd
          rw [hx, ← htake, hanswer, harith] at hresult
          rw [if_pos rfl, hanswer, harith, Option.some.inj hresult]
    · rename_i hret
      refine Grows.pure hs ⟨hwithin, by rw [hbeside.hashes]; exact hhashes, none, hbeside.puts_none hret,
        fun _ m m' hm _ hacts _ hfollows => ⟨hm.invalidate hacts.memory hacts.storage hfollows, answers_none item m'⟩⟩

include hn hV hs in
/-- What the operation does on the classes of the arguments. -/
theorem feedArguments_gives (hσ : Within σ s) (hhashes : ∀ e ∈ σ.m_knownSha3Hashes, Below e.2 s) {item : AssemblyItem}
    (ht : item.type = .Operation) {arguments : List Id} (hargs : ∀ a ∈ arguments, Below a s)
    (hcount : arguments.length = (instructionInfo item.instruction).args) :
    Grows (feedArguments sha3 n item arguments σ) s fun r s' => Within r.2 s' ∧ (∀ e ∈ r.2.m_knownSha3Hashes, Below e.2 s') ∧
      ∃ o, Puts σ r.2 item o ∧ (Extends s' S → ∀ m m' : Contents, Holds sha3 ι V σ m →
        arguments.map V = m.stack.take (instructionInfo item.instruction).args → Acts sha3 ι.fields item m m' → Whole item m.stack →
        Follows ι σ r.2 m' → Holds sha3 ι V r.2 m' ∧ Answers ι V item m' o) := by
  unfold feedArguments
  dsimp only
  split
  case h_1 slot value hi =>
    refine (storeInStorage_gives hn hV hs hσ (hargs slot List.mem_cons_self) (hargs value (List.mem_cons_of_mem _ List.mem_cons_self))).mono
      fun r s' _ he hr => ?_
    obtain ⟨hwithin, hbeside, hholds⟩ := hr
    refine ⟨hwithin, fun e hm => he.below (hhashes e (hbeside.hashes ▸ hm)), none, hbeside.puts_none (by rw [hi]; decide), fun hS m m' hm hstack hacts _ hfollows => ?_⟩
    have hslot : m.stack.getD 0 0 = V slot := getD_of_take hstack (by simp)
    have hvalue : m.stack.getD 1 0 = V value := getD_of_take hstack (by simp)
    refine ⟨hholds hS m m' hm (hacts.memory (by rw [hi]; rfl)) ?_ hfollows, answers_none item m'⟩
    rw [hacts.written hi, hslot, hvalue]
  case h_2 slot hi =>
    refine (loadFromStorage_gives hn hV hs hσ (hargs slot List.mem_cons_self)).bind fun r s' hs' he hr => ?_
    obtain ⟨hc, hwithin, hbeside, hholds⟩ := hr
    refine Grows.pure hs' ⟨hwithin.setStackElement _ hc, fun e hm => he.below (hhashes e (hbeside.hashes ▸ hm)), some r.1,
      hbeside.toSameStack.puts_some (by rw [hi]; rfl) _, fun hS m m' hm hstack hacts _ _ => ?_⟩
    obtain ⟨hholds', hvalue⟩ := hholds hS m hm
    have hsame : Holds sha3 ι V r.2 m' := ⟨hholds'.knows, hholds'.memory.trans (hacts.memory (by rw [hi]; rfl)).symm,
      hholds'.storage.trans (hacts.storage (by rw [hi]; rfl)).symm⟩
    refine ⟨hsame.setStackElement _ _, fun _ c hc x hx => ?_⟩
    cases hc
    have hresult := hacts.result (by rw [hi]; rfl) (by rw [isDeterministic, hi]; split <;> rfl)
    rw [hx, ← hstack, hi] at hresult
    rw [hvalue, Option.some.inj hresult]
    rfl
  case h_3 slot value hi =>
    refine (storeInMemory_gives hn hV hs hσ (hargs slot List.mem_cons_self) (hargs value (List.mem_cons_of_mem _ List.mem_cons_self))).mono
      fun r s' _ he hr => ?_
    obtain ⟨hwithin, hbeside, hholds⟩ := hr
    refine ⟨hwithin, fun e hm => he.below (hhashes e (hbeside.hashes ▸ hm)), none, hbeside.puts_none (by rw [hi]; decide), fun hS m m' hm hstack hacts _ hfollows => ?_⟩
    have hslot : m.stack.getD 0 0 = V slot := getD_of_take hstack (by simp)
    have hvalue : m.stack.getD 1 0 = V value := getD_of_take hstack (by simp)
    refine ⟨hholds hS m m' hm (hacts.storage (by rw [hi]; rfl)) ?_ hfollows, answers_none item m'⟩
    rw [hacts.stored hi, hslot, hvalue]
  case h_4 slot hi =>
    refine (loadFromMemory_gives hn hV hs hσ (hargs slot List.mem_cons_self)).bind fun r s' hs' he hr => ?_
    obtain ⟨hc, hwithin, hbeside, _, hholds⟩ := hr
    refine Grows.pure hs' ⟨hwithin.setStackElement _ hc, fun e hm => he.below (hhashes e (hbeside.hashes ▸ hm)), some r.1,
      hbeside.toSameStack.puts_some (by rw [hi]; rfl) _, fun hS m m' hm hstack hacts _ _ => ?_⟩
    obtain ⟨hholds', hvalue⟩ := hholds hS m hm
    have hsame : Holds sha3 ι V r.2 m' := ⟨hholds'.knows, hholds'.memory.trans (hacts.memory (by rw [hi]; rfl)).symm,
      hholds'.storage.trans (hacts.storage (by rw [hi]; rfl)).symm⟩
    refine ⟨hsame.setStackElement _ _, fun _ c hc x hx => ?_⟩
    cases hc
    have hresult := hacts.result (by rw [hi]; rfl) (by rw [isDeterministic, hi]; split <;> rfl)
    rw [hx, ← hstack, hi] at hresult
    rw [hvalue, Option.some.inj hresult]
    rfl
  case h_5 start length hi =>
    refine (applySha3_gives hn hV hs hσ hhashes (hargs start List.mem_cons_self) (hargs length (List.mem_cons_of_mem _ List.mem_cons_self))).bind
      fun r s' hs' _ hr => ?_
    obtain ⟨hc, hwithin, hstack, hhashes', _, hholds⟩ := hr
    refine Grows.pure hs' ⟨hwithin.setStackElement _ hc, hhashes', some r.1, hstack.puts_some (by rw [hi]; rfl) _,
      fun hS m m' hm htake hacts hwhole _ => ?_⟩
    have hlength : m.stack.getD 1 0 = V length := getD_of_take htake (by simp)
    obtain ⟨hholds', hvalue⟩ := hholds hS m hm (hlength ▸ hwhole ht hi)
    have hsame : Holds sha3 ι V r.2 m' := ⟨hholds'.knows, hholds'.memory.trans (hacts.memory (by rw [hi]; rfl)).symm,
      hholds'.storage.trans (hacts.storage (by rw [hi]; rfl)).symm⟩
    refine ⟨hsame.setStackElement _ _, fun _ c hc x hx => ?_⟩
    cases hc
    have hresult := hacts.result (by rw [hi]; rfl) (by rw [isDeterministic, hi]; split <;> rfl)
    rw [hx, ← htake, hi] at hresult
    rw [hvalue, Option.some.inj hresult]
    rfl
  case h_6 hsload _ hmload hsha3 => exact otherArguments_gives hn hV hs hσ hhashes ht hargs hcount hsload hmload hsha3

/-- What holds stays so when something is looked up. -/
theorem Holds.looks {σ' : KnownState} {m : Contents} (hm : Holds sha3 ι V σ m) (h : Looks σ σ') : Holds sha3 ι V σ' m := by
  have hsequence : σ'.m_sequenceNumber = σ.m_sequenceNumber := by rw [h.frame]
  exact ⟨hm.knows.looks h, by rw [hsequence, hm.memory], by rw [hsequence, hm.storage]⟩

/-- The machine has the memory and the storage it had. -/
theorem Holds.same {m m' : Contents} (hm : Holds sha3 ι V σ m) (hmemory : m'.memory = m.memory) (hstorage : m'.storage = m.storage) :
    Holds sha3 ι V σ m' := ⟨hm.knows, hm.memory.trans hmemory.symm, hm.storage.trans hstorage.symm⟩

/-- An element that is on the stack has the value of its height. -/
theorem Agrees.valueAt_eq {m : Contents} (hm : Agrees sha3 ι V σ m) {k : Nat} (hk : k < m.stack.length) :
    valueAt ι V σ (σ.m_stackHeight - k) = m.stack.getD k 0 :=
  hm.stack k _ (by rw [List.getD_eq_getElem?_getD, List.getElem?_eq_getElem hk, Option.getD_some])

/-- The elements from the top are those of the machine. -/
theorem Agrees.take_eq {m : Contents} (hm : Agrees sha3 ι V σ m) {k : Nat} (hk : k ≤ m.stack.length) :
    (List.range k).map (fun i : Nat => valueAt ι V σ (σ.m_stackHeight - i)) = m.stack.take k := by
  refine List.ext_getElem (by rw [List.length_map, List.length_range, List.length_take_of_le hk]) fun i hi _ => ?_
  rw [List.length_map, List.length_range] at hi
  rw [List.getElem_map, List.getElem_range, List.getElem_take]
  exact hm.stack i _ (List.getElem?_eq_getElem (lt_of_lt_of_le hi hk))

/-- An operation takes its arguments and leaves its results. -/
theorem deposit_operation {item : AssemblyItem} (ht : item.type = .Operation) :
    item.deposit = ((instructionInfo item.instruction).ret : Int) - ((instructionInfo item.instruction).args : Int) := by
  rw [AssemblyItem.deposit, ht]

/-- Only copies and exchanges leave more than one element. -/
theorem ret_le_one {i : Instruction} (hdup : ∀ k, i ≠ .DUP k) (hswap : ∀ k, i ≠ .SWAP k) : (instructionInfo i).ret ≤ 1 := by
  cases i with
  | DUP k => exact absurd rfl (hdup k)
  | SWAP k => exact absurd rfl (hswap k)
  | PUSH k => exact Nat.le_refl 1
  | LOG k | INVALID b => exact Nat.zero_le 1
  | _ => decide

/-- What the machine answers to an instruction that is not deterministic is what the interpretation says of the class at the top. -/
def Foretells (ι : Interpretation) (item : AssemblyItem) (σ : KnownState) (m' : Contents) : Prop :=
  ∀ c, σ.m_stackElements.find σ.m_stackHeight = some c → isDeterministic item = false → ∀ x, m'.stack[0]? = some x → ι.outcome c = x

/-- What stays true of a known state that goes on: its classes are there, and the sequence number does not go down. -/
structure GoesOn (σ σ' : KnownState) (s' : ExpressionClasses) : Prop where
  within : Within σ' s'
  hashes : ∀ e ∈ σ'.m_knownSha3Hashes, Below e.2 s'
  sequenceNumber : σ.m_sequenceNumber ≤ σ'.m_sequenceNumber

include hn hV hs

/-- After `DUP` the state agrees with the machine. -/
theorem feedDup_gives (hσ : Within σ s) (hhashes : ∀ e ∈ σ.m_knownSha3Hashes, Below e.2 s) {item : AssemblyItem}
    (ht : item.type = .Operation) {k : Fin 16} (hi : item.instruction = .DUP k) :
    Grows (feedOperation sha3 n item σ) s fun r s' => GoesOn σ r.2 s' ∧
      (Extends s' S → ∀ m m' : Contents, Agrees sha3 ι V σ m → Acts sha3 ι.fields item m m' → Agrees sha3 ι V (r.2.settle item) m') := by
  rw [feedOperation, hi]
  dsimp only
  have hle : σ.m_stackHeight - (k.val : Int) ≤ σ.m_stackHeight := by omega
  refine (stackElement_gives hn hV hs hσ hle).bind fun r s' hs' he hr => ?_
  obtain ⟨c, σ₁⟩ := r
  obtain ⟨hc, hσ₁, hlooks, hvalue⟩ := hr
  dsimp only at hc hσ₁ hlooks hvalue ⊢
  refine Grows.pure hs' ⟨⟨hσ₁.setStackElement _ hc, fun e hm => ?_, ?_⟩, fun hS m m' hm hacts => ?_⟩
  · rw [setStackElement, hlooks.frame] at hm
    exact he.below (hhashes e hm)
  · rw [setStackElement, hlooks.frame]
  obtain ⟨hfirst, hsame⟩ := hvalue hS
  have hroom : k.val + 1 ≤ m.stack.length := by
    have hargs := hacts.args
    rwa [hi] at hargs
  have hholds : Holds sha3 ι V σ₁ m' := (hm.toHolds.looks hlooks).same (hacts.memory (by rw [hi]; rfl)) (hacts.storage (by rw [hi]; rfl))
  have hdeposit : item.deposit = 1 := by
    rw [deposit_operation ht, hi, instructionInfo]
    dsimp only
    omega
  refine agrees_settle (a := 0) (r := 1) (hholds.setStackElement _ _) hm hlooks.height hdeposit ?_ (fun h hle => ?_) fun j hj x hx => ?_
  · rw [hacts.dup k hi]
    rfl
  · rw [valueAt_setStackElement, if_neg (by rw [hlooks.height]; omega), hsame]
  · obtain rfl : j = 0 := Nat.lt_one_iff.mp hj
    rw [hacts.dup k hi] at hx
    cases hx
    rw [valueAt_setStackElement, if_pos (by rw [hlooks.height, hdeposit]; omega), ← hm.valueAt_eq hroom]
    exact hfirst

/-- After `SWAP` the state agrees with the machine. -/
theorem feedSwap_gives (hσ : Within σ s) (hhashes : ∀ e ∈ σ.m_knownSha3Hashes, Below e.2 s) {item : AssemblyItem}
    (ht : item.type = .Operation) {k : Fin 16} (hi : item.instruction = .SWAP k) :
    Grows (feedOperation sha3 n item σ) s fun r s' => GoesOn σ r.2 s' ∧
      (Extends s' S → ∀ m m' : Contents, Agrees sha3 ι V σ m → Acts sha3 ι.fields item m m' → Agrees sha3 ι V (r.2.settle item) m') := by
  rw [feedOperation, hi]
  dsimp only
  rw [swapStackElements, if_neg (by omega), bind_assoc]
  refine (stackElement_gives hn hV hs hσ (le_refl σ.m_stackHeight)).bind fun r s₁ hs₁ he₁ hr => ?_
  obtain ⟨a, σ₁⟩ := r
  obtain ⟨ha, hσ₁, hlooks₁, hvalue₁⟩ := hr
  dsimp only at ha hσ₁ hlooks₁ hvalue₁ ⊢
  have hle : σ.m_stackHeight - 1 - (k.val : Int) ≤ σ₁.m_stackHeight := by
    rw [hlooks₁.height]
    omega
  rw [bind_assoc]
  refine (stackElement_gives hn hV hs₁ hσ₁ hle).bind fun r s₂ hs₂ he₂ hr => ?_
  obtain ⟨b, σ₂⟩ := r
  obtain ⟨hb, hσ₂, hlooks₂, hvalue₂⟩ := hr
  dsimp only at hb hσ₂ hlooks₂ hvalue₂ ⊢
  have hlooks := hlooks₁.trans hlooks₂
  refine Grows.pure hs₂ ⟨⟨(hσ₂.setStackElement _ hb).setStackElement _ (he₂.below ha), fun e hm => ?_, ?_⟩, fun hS m m' hm hacts => ?_⟩
  · rw [setStackElement, setStackElement, hlooks.frame] at hm
    exact (he₁.trans he₂).below (hhashes e hm)
  · rw [setStackElement, setStackElement, hlooks.frame]
  obtain ⟨hfirst, hsame₁⟩ := hvalue₁ (he₂.trans hS)
  obtain ⟨hsecond, hsame₂⟩ := hvalue₂ hS
  have hroom : k.val + 2 ≤ m.stack.length := by
    have hargs := hacts.args
    rwa [hi] at hargs
  have hholds : Holds sha3 ι V σ₂ m' := (hm.toHolds.looks hlooks).same (hacts.memory (by rw [hi]; rfl)) (hacts.storage (by rw [hi]; rfl))
  have hdeposit : item.deposit = ((k.val + 2 : Nat) : Int) - ((k.val + 2 : Nat) : Int) := by
    rw [deposit_operation ht, hi, instructionInfo]
  have hrest := hacts.rest
  rw [hi] at hrest
  refine agrees_settle (a := k.val + 2) (r := k.val + 2) ((hholds.setStackElement _ _).setStackElement _ _) hm hlooks.height hdeposit hrest
    (fun h hle => ?_) fun j hj x hx => ?_
  · rw [valueAt_setStackElement, if_neg (by omega), valueAt_setStackElement, if_neg (by omega), hsame₂, hsame₁]
  · -- the top and the element below are exchanged
    have hzero : σ.m_stackHeight + item.deposit - (j : Int) = σ.m_stackHeight - (j : Int) := by
      rw [hdeposit]
      omega
    rw [hzero, valueAt_setStackElement, valueAt_setStackElement, hsame₂, hsame₁]
    rw [hacts.swap k hi] at hx
    by_cases hlast : j = k.val + 1
    · subst hlast
      rw [List.getElem?_set_self (by rw [List.length_set]; omega)] at hx
      rw [if_pos (by omega), hfirst]
      have htop := hm.valueAt_eq (k := 0) (by omega)
      rw [Nat.cast_zero, Int.sub_zero] at htop
      rw [htop, Option.some.inj hx]
    · rw [List.getElem?_set_ne (Ne.symm hlast)] at hx
      rw [if_neg (by omega)]
      by_cases hj0 : j = 0
      · subst hj0
        rw [List.getElem?_set_self (by omega)] at hx
        rw [if_pos (by omega), hsecond, hsame₁]
        have hplace : σ.m_stackHeight - 1 - (k.val : Int) = σ.m_stackHeight - ((k.val + 1 : Nat) : Int) := by omega
        rw [hplace, hm.valueAt_eq (by omega), Option.some.inj hx]
      · rw [List.getElem?_set_ne (Ne.symm hj0)] at hx
        rw [if_neg (by omega), hm.stack j x hx]

omit hn hV in
/-- After `POP` the state agrees with the machine. -/
theorem feedPop_gives (hσ : Within σ s) (hhashes : ∀ e ∈ σ.m_knownSha3Hashes, Below e.2 s) {item : AssemblyItem}
    (ht : item.type = .Operation) (hi : item.instruction = .POP) :
    Grows (feedOperation sha3 n item σ) s fun r s' => GoesOn σ r.2 s' ∧
      (∀ (ι : Interpretation) V (m m' : Contents), Agrees sha3 ι V σ m → Acts sha3 ι.fields item m m' →
      Agrees sha3 ι V (r.2.settle item) m') := by
  rw [feedOperation, hi]
  refine Grows.pure hs ⟨⟨hσ, hhashes, le_refl _⟩, fun ι V m m' hm hacts => ?_⟩
  have hholds := hm.toHolds.same (hacts.memory (by rw [hi]; rfl)) (hacts.storage (by rw [hi]; rfl))
  have hrest := hacts.rest
  rw [hi] at hrest
  refine agrees_settle (a := 1) (r := 0) hholds hm rfl ?_ hrest (fun _ _ => rfl) fun j hj => absurd hj (Nat.not_lt_zero j)
  rw [deposit_operation ht, hi, instructionInfo]

/-- Feeding an operation keeps the agreement. -/
theorem feedOperation_gives (hσ : Within σ s) (hhashes : ∀ e ∈ σ.m_knownSha3Hashes, Below e.2 s) {item : AssemblyItem}
    (ht : item.type = .Operation) : Grows (feedOperation sha3 n item σ) s fun r s' => GoesOn σ r.2 s' ∧
      (Extends s' S → ∀ m m' : Contents, Agrees sha3 ι V σ m →
      Acts sha3 ι.fields item m m' → Whole item m.stack → Follows ι σ r.2 m' → Foretells ι item (r.2.settle item) m' →
      Agrees sha3 ι V (r.2.settle item) m') := by
  by_cases hdup : ∃ k, item.instruction = .DUP k
  · obtain ⟨k, hi⟩ := hdup
    refine (feedDup_gives hn hV hs hσ hhashes ht hi).mono fun r s' _ _ hr => ⟨hr.1, fun hS m m' hm hacts _ _ _ => ?_⟩
    exact hr.2 hS m m' hm hacts
  by_cases hswap : ∃ k, item.instruction = .SWAP k
  · obtain ⟨k, hi⟩ := hswap
    refine (feedSwap_gives hn hV hs hσ hhashes ht hi).mono fun r s' _ _ hr => ⟨hr.1, fun hS m m' hm hacts _ _ _ => ?_⟩
    exact hr.2 hS m m' hm hacts
  by_cases hpop : item.instruction = .POP
  · refine (feedPop_gives hs hσ hhashes ht hpop).mono fun r s' _ _ hr => ⟨hr.1, fun _ m m' hm hacts _ _ _ => ?_⟩
    exact hr.2 ι V m m' hm hacts
  have hret := ret_le_one (fun k hk => hdup ⟨k, hk⟩) fun k hk => hswap ⟨k, hk⟩
  unfold feedOperation
  split
  case h_1 k hi => exact absurd ⟨k, hi⟩ hdup
  case h_2 k hi => exact absurd ⟨k, hi⟩ hswap
  case h_3 hi => exact absurd hi hpop
  refine (stackArguments_gives hn hV hs hσ (le_refl σ.m_stackHeight) _).bind fun r s₁ hs₁ he₁ hr => ?_
  obtain ⟨arguments, σ₁⟩ := r
  obtain ⟨hargs, hcount, hσ₁, hlooks, hvalues⟩ := hr
  dsimp only at hargs hcount hσ₁ hlooks hvalues ⊢
  have hhashes₁ : ∀ e ∈ σ₁.m_knownSha3Hashes, Below e.2 s₁ := by
    rw [hlooks.frame]
    exact fun e hm => he₁.below (hhashes e hm)
  refine (feedArguments_gives hn hV hs₁ hσ₁ hhashes₁ ht hargs hcount).mono fun r s₂ _ he₂ hr => ?_
  obtain ⟨hσ₂, hhashes₂, o, hputs, hgives⟩ := hr
  have hsequence : σ.m_sequenceNumber ≤ r.2.m_sequenceNumber := by
    have hlater := hputs.sequenceNumber
    rwa [hlooks.frame] at hlater
  refine ⟨⟨hσ₂, hhashes₂, hsequence⟩, fun hS m m' hm hacts hwhole hfollows hforetells => ?_⟩
  obtain ⟨hmap, hsame⟩ := hvalues (he₂.trans hS)
  rw [hm.take_eq hacts.args] at hmap
  have hfollows₁ : Follows ι σ₁ r.2 m' := by
    have hsequence : σ₁.m_sequenceNumber = σ.m_sequenceNumber := by rw [hlooks.frame]
    rw [Follows, hsequence]
    exact hfollows
  obtain ⟨hholds, hanswers⟩ := hgives hS m m' (hm.toHolds.looks hlooks) hmap hacts hwhole hfollows₁
  have hheight : r.2.m_stackHeight = σ.m_stackHeight := hputs.height.trans hlooks.height
  have hdeposit := deposit_operation ht
  refine agrees_settle hholds hm hheight hdeposit hacts.rest (fun h hle => ?_) fun j hj x hx => ?_
  · rw [← hsame h, valueAt, valueAt, hputs.elements]
    cases o with
    | none => rfl
    | some c =>
      have hone := hputs.some.mp rfl
      rw [Option.elim_some, Assoc.find_setSorted, if_neg (by rw [hlooks.height]; omega)]
  · -- the only result is on the top
    have hone : (instructionInfo item.instruction).ret = 1 := by omega
    obtain rfl : j = 0 := by omega
    obtain ⟨c, rfl⟩ := Option.isSome_iff_exists.mp (hputs.some.mpr hone)
    have hfind : r.2.m_stackElements.find (σ.m_stackHeight + item.deposit) = some c := by
      rw [hputs.elements, Option.elim_some, Assoc.find_setSorted, if_pos (by rw [hlooks.height])]
    have houtcome : ∀ c' ∈ some c, isDeterministic item = false → ∀ x, m'.stack[0]? = some x → ι.outcome c' = x := by
      intro c' hc' hdeterministic x hx
      cases hc'
      refine hforetells c ?_ hdeterministic x hx
      rw [settle]
      dsimp only
      rw [hheight, find_upTo, if_pos (le_refl _), hfind]
    rw [Nat.cast_zero, Int.sub_zero, valueAt, hfind]
    exact hanswers houtcome c rfl x hx

/-- Feeding an item keeps the agreement. -/
theorem feedItem_gives (hσ : Within σ s) (hhashes : ∀ e ∈ σ.m_knownSha3Hashes, Below e.2 s) (item : AssemblyItem) :
    Grows (feedItem sha3 n item σ) s fun r s' => GoesOn σ r.2 s' ∧
      (Extends s' S → ∀ m m' : Contents, Agrees sha3 ι V σ m → ItemActs sha3 ι.fields ι.pushed item m m' → Whole item m.stack →
      Follows ι σ r.2 m' → Foretells ι item r.2 m' → Agrees sha3 ι V r.2 m') := by
  rw [feedItem]
  by_cases htag : item.type = .Tag
  · rw [if_pos htag]
    refine Grows.pure hs ⟨⟨hσ, hhashes, le_refl _⟩, fun _ m m' hm hacts _ _ _ => ?_⟩
    cases hacts with
    | tag => exact hm
    | push hno => exact absurd htag hno
    | operation ht => exact absurd (htag.symm.trans ht) (by decide)
  rw [if_neg htag]
  by_cases ht : item.type = .Operation
  · rw [if_neg (not_not_intro ht)]
    refine (feedOperation_gives hn hV hs hσ hhashes ht).bind fun r s' hs' _ hr => ?_
    obtain ⟨hgoes, hagrees⟩ := hr
    refine Grows.pure hs' ⟨⟨hgoes.within.settle item, hgoes.hashes, hgoes.sequenceNumber⟩, fun hS m m' hm hacts hwhole hfollows hforetells => ?_⟩
    cases hacts with
    | tag h => exact absurd h htag
    | push _ h => exact absurd ht h
    | operation _ _ hacts => exact hagrees hS m m' hm hacts hwhole hfollows hforetells
  · rw [if_pos ht]
    split
    · exact Grows.throw _
    have harity : ∀ k, item.arity = some k → ([] : List Id).length = k := by
      intro k hk
      rw [AssemblyItem.arity, if_neg ht] at hk
      cases hk
    refine (find_gives hV hn hs (fun a ha => absurd ha List.not_mem_nil) harity 0).bind fun c s' hs' he hc => ?_
    have hwithin : Within ({ σ with m_stackHeight := σ.m_stackHeight + 1 } : KnownState) s' :=
      ⟨(hσ.extends he).stack, (hσ.extends he).storage, (hσ.extends he).memory, (hσ.extends he).tags⟩
    refine Grows.pure hs' ⟨⟨hwithin.setStackElement _ hc.1, fun e hm => he.below (hhashes e hm), le_refl _⟩,
      fun hS m m' hm hacts _ _ _ => ?_⟩
    cases hacts with
    | tag h => exact absurd h htag
    | operation h => exact absurd h ht
    | push _ _ hdefined =>
      have hvalue : V c = if item.type = .Push then item.data else ι.pushed item := by
        by_cases hpush : item.type = .Push
        · rw [if_pos hpush]
          exact (hc.2 hS).1 _ (itemValue_push hpush _)
        · have hnone : itemValue item (List.map V []) = none := by
            rw [itemValue]
            split
            · rename_i h
              exact absurd h hpush
            · rename_i h
              exact absurd h ht
            · rfl
          rw [if_neg hpush, (hc.2 hS).2 (Or.inl ht) hnone, Interpretation.base]
          dsimp only
          split
          · rename_i h
            exact absurd h hdefined
          · rename_i h
            exact absurd h ht
          · rfl
      refine ⟨⟨⟨hm.knows.storage, hm.knows.memory, hm.knows.hashes⟩, hm.memory, hm.storage⟩, fun e he => ?_, fun k x hx => ?_⟩
      · rcases Assoc.mem_setSorted he with rfl | hold
        · exact le_refl _
        · exact le_trans (hm.top e hold) (Int.le_add_one (le_refl _))
      · rw [valueAt_setStackElement]
        cases k with
        | zero =>
          have hplace : σ.m_stackHeight + 1 - ((0 : Nat) : Int) = σ.m_stackHeight + 1 := by omega
          refine (if_pos hplace).trans ?_
          rw [hvalue]
          exact Option.some.inj hx
        | succ k =>
          have hplace : σ.m_stackHeight + 1 - ((k + 1 : Nat) : Int) = σ.m_stackHeight - (k : Int) := by omega
          refine (if_neg fun h => ?_).trans ((congrArg (valueAt ι V σ) hplace).trans (hm.stack k x hx))
          exact absurd (hplace.symm.trans h) (by omega)

end

end KnownState

end Webthree
