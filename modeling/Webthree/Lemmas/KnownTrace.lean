import Webthree.Lemmas.KnownMachine

/-!
# Traces of known states

The items that a machine runs are fed to a known state one after the other, while the stack may be looked at and others may find
classes. There is one interpretation under which the known state agrees with the machine at every point: a sequence number stands for
what the memory and the storage are when it is first reached, and a class of an instruction that is not deterministic is made only once.
-/

namespace Webthree

open ExpressionClasses (Id M Reached Extends Below find levels)

/-! ## Classes that are made only once -/

namespace ExpressionClasses

theorem simplified_chance (classes : List Expression) {expr : Expression} (h : SemanticInformation.isDeterministic expr.item = false) :
    simplified classes expr = .ok none := by
  rw [simplified, h]
  exact if_pos (Or.inr rfl)

/-- An item that is not deterministic always gets a new class. -/
theorem find_chance {item : AssemblyItem} (h : SemanticInformation.isDeterministic item = false) (n : Nat) (arguments : List Id)
    (sequenceNumber : Nat) (s : ExpressionClasses) :
    Runs (find n item arguments sequenceNumber) s (fun i _ => i = s.m_representatives.length) fun _ _ => True := by
  cases n with
  | zero => exact trivial
  | succ n =>
    rw [find, ← ordered, runs_bind, runs_get]
    dsimp only
    rw [h, if_neg Bool.false_ne_true]
    dsimp only
    rw [runs_bind, tryToSimplify, runs_bind, runs_get, runs_bind, runs_lift, simplified_chance _ h]
    refine ⟨fun r hr => ?_, fun e he => by cases he⟩
    cases hr
    exact rfl

end ExpressionClasses

namespace KnownState

open SemanticInformation ExpressionClasses

variable {sha3 : Bytes → U256} {n : Nat}

theorem operation_of_chance {item : AssemblyItem} (h : isDeterministic item = false) : item.type = .Operation := by
  rw [isDeterministic] at h
  split at h
  · cases h
  · rename_i hop
    exact not_not.mp hop

/-- An instruction that is not deterministic leaves one element, and has no case of its own. -/
theorem ret_of_chance {item : AssemblyItem} (h : isDeterministic item = false) : (instructionInfo item.instruction).ret = 1 := by
  rw [isDeterministic, if_neg (not_not_intro (operation_of_chance h))] at h
  cases hi : item.instruction with
  | CALL | CALLCODE | DELEGATECALL | CREATE | GAS | PC | MSIZE | BALANCE | EXTCODESIZE => rfl
  | _ =>
    rw [hi] at h
    cases h

theorem feedArguments_chance {item : AssemblyItem} (h : isDeterministic item = false) (arguments : List Id) (σ : KnownState) :
    feedArguments sha3 n item arguments σ = (do
      let c ← find n item arguments 0
      return (none, (σ.invalidate item.instruction).setStackElement (σ.m_stackHeight + item.deposit) c)) := by
  have hret := ret_of_chance h
  have hno : ∀ i, item.instruction = i → i = .SSTORE ∨ i = .SLOAD ∨ i = .MSTORE ∨ i = .MLOAD ∨ i = .SHA3 → False := by
    intro i hi hcases
    rw [isDeterministic, if_neg (not_not_intro (operation_of_chance h)), hi] at h
    rcases hcases with rfl | rfl | rfl | rfl | rfl <;> cases h
  unfold feedArguments
  dsimp only
  split
  case h_1 hi => exact (hno _ hi (by tauto)).elim
  case h_2 hi => exact (hno _ hi (by tauto)).elim
  case h_3 hi => exact (hno _ hi (by tauto)).elim
  case h_4 hi => exact (hno _ hi (by tauto)).elim
  case h_5 hi => exact (hno _ hi (by tauto)).elim
  case h_6 => rw [if_neg (by omega), if_pos hret]

theorem find_settle {σ : KnownState} (item : AssemblyItem) {height : Int} (h : σ.m_stackHeight = height) (c : Id) :
    ((σ.setStackElement (height + item.deposit) c).settle item).m_stackElements.find
      ((σ.setStackElement (height + item.deposit) c).settle item).m_stackHeight = some c := by
  subst h
  rw [settle, setStackElement]
  dsimp only
  rw [find_upTo, if_pos (le_refl _), Assoc.find_setSorted, if_pos rfl]

/-- What an instruction answers that is not deterministic gets a class that was not there. -/
theorem feedItem_chance (hn : levels ≤ n) {s : ExpressionClasses} (hs : Reached s) {σ : KnownState} (hσ : Within σ s)
    {item : AssemblyItem} (h : isDeterministic item = false) :
    Grows (feedItem sha3 n item σ) s fun r _ => ∀ c, r.2.m_stackElements.find r.2.m_stackHeight = some c → ¬ Below c s := by
  have ht := operation_of_chance h
  have hret := ret_of_chance h
  rw [feedItem, if_neg (by rw [ht]; decide), if_neg (not_not_intro ht), feedOperation]
  have hno : ∀ i, item.instruction = i → (∃ k, i = .DUP k) ∨ (∃ k, i = .SWAP k) ∨ i = .POP → False := by
    intro i hi hcases
    rw [isDeterministic, if_neg (not_not_intro ht), hi] at h
    rcases hcases with ⟨k, rfl⟩ | ⟨k, rfl⟩ | rfl <;> cases h
  split
  case h_1 k hi => exact (hno _ hi (Or.inl ⟨k, rfl⟩)).elim
  case h_2 k hi => exact (hno _ hi (Or.inr (Or.inl ⟨k, rfl⟩))).elim
  case h_3 hi => exact (hno _ hi (Or.inr (Or.inr rfl))).elim
  case h_4 =>
    rw [bind_assoc]
    refine (grows_stackArguments hn hs hσ _ _).bind fun r s₁ hs₁ he₁ hr => ?_
    obtain ⟨arguments, σ₁⟩ := r
    obtain ⟨hargs, hcount, _, _⟩ := hr
    dsimp only at hargs hcount ⊢
    rw [feedArguments_chance h, bind_assoc]
    have hclass := grows_find hs₁ hn hargs (fun k hk => hcount.trans (args_of_arity hk)) 0
    have hfresh := find_chance h n arguments 0 s₁
    rw [Grows] at hclass
    have hboth : Grows (find n item arguments 0) s₁ fun c _ => c = s₁.m_representatives.length :=
      (Runs.and hclass hfresh).mono (fun c s₂ hc => ⟨hc.1.1, hc.1.2.1, hc.2⟩) fun _ _ _ => trivial
    refine hboth.bind fun c s₂ hs₂ _ hc => ?_
    refine Grows.pure hs₂ fun c' hc' hbelow => ?_
    have htop := find_settle item (invalidate_stackHeight σ₁ item.instruction) c
    have hsame : c' = c := Option.some.inj (hc'.symm.trans htop)
    have hlt : c' < s₁.m_representatives.length := he₁.below hbelow
    exact absurd hlt (by rw [hsame, hc]; exact Nat.lt_irrefl _)

/-! ## Traces -/

/-- The classes, the known state and what the machine has at a point of a run. -/
structure Point where
  classes : ExpressionClasses
  state : KnownState
  contents : Contents

/-- What is said of an item, the known states before and after it, and the contents then. -/
abbrev Condition := KnownState → AssemblyItem → KnownState → Contents → Prop

variable (sha3 n) in
/-- The points of a run from the contents `m₀` on, with the last one at the head, where all items meet a condition. -/
inductive Traced (R : Condition) (f : ExtFields) (pushed : AssemblyItem → U256) (m₀ : Contents) : List Point → Prop
  | start {s : ExpressionClasses} : Reached s → Traced R f pushed m₀ [⟨s, {}, m₀⟩]
  | feed {s s' : ExpressionClasses} {σ σ' : KnownState} {m m' : Contents} {l : List Point} {item : AssemblyItem} {op : Option StoreOperation} :
      Traced R f pushed m₀ (⟨s, σ, m⟩ :: l) → feedItem sha3 n item σ s = .ok (op, σ') s' → ItemActs sha3 f pushed item m m' →
      Whole item m.stack → R σ item σ' m' → Traced R f pushed m₀ (⟨s', σ', m'⟩ :: ⟨s, σ, m⟩ :: l)
  | look {s s' : ExpressionClasses} {σ σ' : KnownState} {m : Contents} {l : List Point} {stackHeight : Int} {c : Id} :
      Traced R f pushed m₀ (⟨s, σ, m⟩ :: l) → stackHeight ≤ σ.m_stackHeight → stackElement n σ stackHeight s = .ok (c, σ') s' →
      Traced R f pushed m₀ (⟨s', σ', m⟩ :: ⟨s, σ, m⟩ :: l)
  | others {s s' : ExpressionClasses} {σ : KnownState} {m : Contents} {l : List Point} :
      Traced R f pushed m₀ (⟨s, σ, m⟩ :: l) → Reached s' → Extends s s' → Traced R f pushed m₀ (⟨s', σ, m⟩ :: ⟨s, σ, m⟩ :: l)

/-- The interpretation says of the start what the machine has there. -/
structure Starts (ι : Interpretation) (m₀ : Contents) : Prop where
  stack : ∀ (k : Nat) x, m₀.stack[k]? = some x → ι.initial (BitVec.ofInt 256 (-(k : Int))) = x
  memory : ι.memory 1 = m₀.memory
  storage : ι.storage 1 = m₀.storage

/-- The interpretation says of an item what the machine has then. -/
def Tells (ι : Interpretation) : Condition := fun σ item σ' m' => Follows ι σ σ' m' ∧ Foretells ι item σ' m'

/-- The known states of a trace are about classes that are there. -/
structure Point.Sound (p : Point) : Prop where
  reached : Reached p.classes
  within : Within p.state p.classes
  hashes : ∀ e ∈ p.state.m_knownSha3Hashes, Below e.2 p.classes
  sequenceNumber : 1 ≤ p.state.m_sequenceNumber

variable {R : Condition} {f : ExtFields} {pushed : AssemblyItem → U256} {m₀ : Contents}

theorem within_start (s : ExpressionClasses) : Within {} s :=
  ⟨fun _ he => absurd he List.not_mem_nil, fun _ he => absurd he List.not_mem_nil, fun _ he => absurd he List.not_mem_nil,
    fun _ he => absurd he List.not_mem_nil⟩

variable (hn : levels ≤ n)

include hn

theorem feedItem_goesOn (f : ExtFields) {s s' : ExpressionClasses} {σ σ' : KnownState} {item : AssemblyItem} {op : Option StoreOperation}
    (hs : Reached s) (hσ : Within σ s) (hhashes : ∀ e ∈ σ.m_knownSha3Hashes, Below e.2 s)
    (hfeed : feedItem sha3 n item σ s = .ok (op, σ') s') : Reached s' ∧ Extends s s' ∧ GoesOn σ σ' s' := by
  -- no interpretation matters here
  obtain ⟨V, hV⟩ := Interpretation.exists_gives sha3 ⟨fun _ => 0, fun _ => 0, f, fun _ _ => 0, fun _ _ => 0, fun _ => 0⟩ hs
  obtain ⟨hs', he, hgoes, _⟩ := (feedItem_gives hn hV hs hσ hhashes item).of_ok hfeed
  exact ⟨hs', he, hgoes⟩

theorem stackElement_looks (f : ExtFields) {s s' : ExpressionClasses} {σ σ' : KnownState} {stackHeight : Int} {c : Id} (hs : Reached s)
    (hσ : Within σ s) (hle : stackHeight ≤ σ.m_stackHeight) (hlook : stackElement n σ stackHeight s = .ok (c, σ') s') :
    Reached s' ∧ Extends s s' ∧ Within σ' s' ∧ Looks σ σ' := by
  obtain ⟨V, hV⟩ := Interpretation.exists_gives (fun _ => 0) ⟨fun _ => 0, fun _ => 0, f, fun _ _ => 0, fun _ _ => 0, fun _ => 0⟩ hs
  obtain ⟨hs', he, _, hwithin, hlooks, _⟩ := (stackElement_gives hn hV hs hσ hle).of_ok hlook
  exact ⟨hs', he, hwithin, hlooks⟩

theorem Traced.sound {p : Point} {l : List Point} (h : Traced sha3 n R f pushed m₀ (p :: l)) : p.Sound := by
  generalize hl : p :: l = points at h
  induction h generalizing p l with
  | start hs =>
    cases hl
    exact ⟨hs, within_start _, fun _ he => absurd he List.not_mem_nil, le_refl _⟩
  | feed _ hfeed _ _ _ ih =>
    cases hl
    obtain ⟨hs, hσ, hhashes, hone⟩ := ih rfl
    obtain ⟨hs', _, hgoes⟩ := feedItem_goesOn hn f hs hσ hhashes hfeed
    exact ⟨hs', hgoes.within, hgoes.hashes, hone.trans hgoes.sequenceNumber⟩
  | look _ hle hlook ih =>
    cases hl
    obtain ⟨hs, hσ, hhashes, hone⟩ := ih rfl
    obtain ⟨hs', he, hσ', hlooks⟩ := stackElement_looks hn f hs hσ hle hlook
    refine ⟨hs', hσ', ?_, ?_⟩
    · dsimp only at hhashes ⊢
      rw [hlooks.frame]
      exact fun e hm => he.below (hhashes e hm)
    · dsimp only
      rw [hlooks.frame]
      exact hone
  | others _ hs' he ih =>
    cases hl
    obtain ⟨_, hσ, hhashes, hone⟩ := ih rfl
    exact ⟨hs', hσ.extends he, fun e hm => he.below (hhashes e hm), hone⟩

/-- The known state agrees with what the machine has at every point, under an interpretation that tells it. -/
theorem Traced.agrees {ι : Interpretation} {S : ExpressionClasses} {V : Id → U256} (hV : ι.Gives sha3 S V) (hstart : Starts ι m₀)
    {p : Point} {l : List Point} (h : Traced sha3 n (Tells ι) ι.fields ι.pushed m₀ (p :: l)) (hS : Extends p.classes S) :
    ∀ q ∈ p :: l, Agrees sha3 ι V q.state q.contents := by
  generalize hl : p :: l = points at h
  induction h generalizing p l with
  | start hs =>
    cases hl
    refine List.forall_mem_singleton.mpr ⟨⟨⟨fun _ he => absurd he List.not_mem_nil, fun _ he => absurd he List.not_mem_nil,
      fun _ he => absurd he List.not_mem_nil⟩, hstart.memory, hstart.storage⟩, fun _ he => absurd he List.not_mem_nil, fun k x hx => ?_⟩
    refine Eq.trans ?_ (hstart.stack k x hx)
    exact congrArg (fun h => ι.initial (BitVec.ofInt 256 h)) (Int.zero_sub _)
  | feed htraced hfeed hacts hwhole htells ih =>
    cases hl
    obtain ⟨hs, hσ, hhashes, _⟩ := htraced.sound hn
    obtain ⟨_, he, _, hgives⟩ := (feedItem_gives hn hV hs hσ hhashes _).of_ok hfeed
    have hold := ih (he.trans hS) rfl
    refine List.forall_mem_cons.mpr ⟨?_, hold⟩
    exact hgives hS _ _ (hold _ List.mem_cons_self) hacts hwhole htells.1 htells.2
  | look htraced hle hlook ih =>
    cases hl
    obtain ⟨hs, hσ, hhashes, _⟩ := htraced.sound hn
    obtain ⟨_, he, _, _, hlooks, hvalue⟩ := (stackElement_gives hn hV hs hσ hle).of_ok hlook
    have hold := ih (he.trans hS) rfl
    exact List.forall_mem_cons.mpr ⟨(hold _ List.mem_cons_self).looks hlooks (hvalue hS).2, hold⟩
  | others _ _ he ih =>
    cases hl
    have hold := ih (he.trans hS) rfl
    have hlast := hold _ List.mem_cons_self
    exact List.forall_mem_cons.mpr ⟨hlast, hold⟩

/-! ## The interpretation of a trace -/

/-- The interpretations say the same of what there is at a point. -/
structure SameUpTo (ι ι' : Interpretation) (p : Point) : Prop where
  memory : ∀ q ≤ p.state.m_sequenceNumber, ι'.memory q = ι.memory q
  storage : ∀ q ≤ p.state.m_sequenceNumber, ι'.storage q = ι.storage q
  outcome : ∀ c, Below c p.classes → ι'.outcome c = ι.outcome c

theorem Traced.same {ι ι' : Interpretation} {p : Point} {l : List Point} (h : Traced sha3 n (Tells ι) f pushed m₀ (p :: l))
    (hsame : SameUpTo ι ι' p) : Traced sha3 n (Tells ι') f pushed m₀ (p :: l) := by
  generalize hl : p :: l = points at h
  induction h generalizing p l with
  | start hs => exact .start hs
  | feed htraced hfeed hacts hwhole htells ih =>
    cases hl
    obtain ⟨hs, hσ, hhashes, _⟩ := htraced.sound hn
    obtain ⟨_, he, hgoes⟩ := feedItem_goesOn hn f hs hσ hhashes hfeed
    have hbefore := ih ⟨fun q hq => hsame.memory q (hq.trans hgoes.sequenceNumber), fun q hq => hsame.storage q (hq.trans hgoes.sequenceNumber),
      fun c hc => hsame.outcome c (he.below hc)⟩ rfl
    refine .feed hbefore hfeed hacts hwhole ⟨fun hne => ?_, fun c hc hdeterministic x hx => ?_⟩
    · obtain ⟨hmemory, hstorage⟩ := htells.1 hne
      exact ⟨(hsame.memory _ (le_refl _)).trans hmemory, (hsame.storage _ (le_refl _)).trans hstorage⟩
    · have hbelow := hgoes.within.stack _ (Assoc.mem_of_find_eq_some hc)
      exact (hsame.outcome c hbelow).trans (htells.2 c hc hdeterministic x hx)
  | look htraced hle hlook ih =>
    cases hl
    obtain ⟨hs, hσ, _, _⟩ := htraced.sound hn
    obtain ⟨_, he, _, hlooks⟩ := stackElement_looks hn f hs hσ hle hlook
    have hsequence := congrArg KnownState.m_sequenceNumber hlooks.frame
    refine .look (ih ⟨fun q hq => hsame.memory q ?_, fun q hq => hsame.storage q ?_, fun c hc => hsame.outcome c (he.below hc)⟩ rfl) hle hlook
    · exact hq.trans (le_of_eq hsequence.symm)
    · exact hq.trans (le_of_eq hsequence.symm)
  | @others s s' σ m _ _ hs' he ih =>
    cases hl
    have hbefore : SameUpTo ι ι' ⟨s, σ, m⟩ := ⟨hsame.memory, hsame.storage, fun c hc => hsame.outcome c (he.below hc)⟩
    exact .others (ih hbefore rfl) hs' he

omit hn in
/-- The interpretation that also says what the machine has after an item. -/
def tell (ι : Interpretation) (σ : KnownState) (item : AssemblyItem) (σ' : KnownState) (m' : Contents) : Interpretation := { ι with
  memory := if σ'.m_sequenceNumber = σ.m_sequenceNumber then ι.memory else Function.update ι.memory σ'.m_sequenceNumber m'.memory
  storage := if σ'.m_sequenceNumber = σ.m_sequenceNumber then ι.storage else Function.update ι.storage σ'.m_sequenceNumber m'.storage
  outcome :=
    match σ'.m_stackElements.find σ'.m_stackHeight with
    | some c => if isDeterministic item then ι.outcome else Function.update ι.outcome c (m'.stack.getD 0 0)
    | none => ι.outcome }

omit hn in
theorem tells_tell (ι : Interpretation) (σ : KnownState) (item : AssemblyItem) (σ' : KnownState) (m' : Contents) :
    Tells (tell ι σ item σ' m') σ item σ' m' := by
  refine ⟨fun hne => ?_, fun c hc hdeterministic x hx => ?_⟩
  · rw [tell]
    dsimp only
    rw [if_neg hne, if_neg hne, Function.update_self, Function.update_self]
    exact ⟨rfl, rfl⟩
  · rw [tell]
    dsimp only
    rw [hc]
    dsimp only
    rw [hdeterministic, if_neg Bool.false_ne_true, Function.update_self, List.getD_eq_getElem?_getD, hx]
    rfl

/-- What is said of the contents after an item changes nothing of what was there before. -/
theorem sameUpTo_tell (ι : Interpretation) {s s' : ExpressionClasses} {σ σ' : KnownState} {m : Contents} (m' : Contents) {item : AssemblyItem}
    {op : Option StoreOperation} (hp : Point.Sound ⟨s, σ, m⟩) (hfeed : feedItem sha3 n item σ s = .ok (op, σ') s') (f : ExtFields) :
    SameUpTo ι (tell ι σ item σ' m') ⟨s, σ, m⟩ := by
  obtain ⟨hs, hσ, hhashes, _⟩ := hp
  obtain ⟨_, _, hgoes⟩ := feedItem_goesOn hn f hs hσ hhashes hfeed
  have hlater : σ.m_sequenceNumber ≤ σ'.m_sequenceNumber := hgoes.sequenceNumber
  refine ⟨fun q hq => ?_, fun q hq => ?_, fun c hc => ?_⟩
  · rw [tell]
    dsimp only at hq ⊢
    split
    · rfl
    · exact Function.update_of_ne (by omega) _ _
  · rw [tell]
    dsimp only at hq ⊢
    split
    · rfl
    · exact Function.update_of_ne (by omega) _ _
  · rw [tell]
    dsimp only at hc ⊢
    cases htop : σ'.m_stackElements.find σ'.m_stackHeight with
    | none => rfl
    | some c' =>
      dsimp only
      cases hd : isDeterministic item with
      | true => rfl
      | false =>
        have hfresh := ((feedItem_chance hn hs hσ hd).of_ok hfeed).2.2 c' htop
        rw [if_neg Bool.false_ne_true, Function.update_of_ne]
        exact fun heq => hfresh (heq ▸ hc)

/-- Every trace has an interpretation that tells it. -/
theorem Traced.exists_interpretation {p : Point} {l : List Point} (h : Traced sha3 n (fun _ _ _ _ => True) f pushed m₀ (p :: l))
    (hheight : m₀.stack.length ≤ 2 ^ 256) :
    ∃ ι : Interpretation, ι.fields = f ∧ ι.pushed = pushed ∧ Starts ι m₀ ∧ Traced sha3 n (Tells ι) f pushed m₀ (p :: l) := by
  generalize hl : p :: l = points at h
  induction h generalizing p l with
  | start hs =>
    refine ⟨⟨fun x => m₀.stack.getD (-x).toNat 0, pushed, f, fun _ => m₀.memory, fun _ => m₀.storage, fun _ => 0⟩, rfl, rfl,
      ⟨fun k x hx => ?_, rfl, rfl⟩, .start hs⟩
    have hk : k < m₀.stack.length := (List.getElem?_eq_some_iff.mp hx).1
    have hplace : (-(BitVec.ofInt 256 (-(k : Int)))).toNat = k := by
      rw [BitVec.ofInt_neg, BitVec.neg_neg, BitVec.ofInt_natCast, BitVec.toNat_ofNat, Nat.mod_eq_of_lt (lt_of_lt_of_le hk hheight)]
    dsimp only
    rw [hplace, List.getD_eq_getElem?_getD, hx]
    rfl
  | @feed s s' σ σ' m m' _ item _ htraced hfeed hacts hwhole _ ih =>
    cases hl
    obtain ⟨ι, hfields, hpushed, hstart, htold⟩ := ih rfl
    have hsame := sameUpTo_tell hn ι m' (htraced.sound hn) hfeed f
    have hone := (htraced.sound hn).sequenceNumber
    have hstart' : Starts (tell ι σ item σ' m') m₀ :=
      ⟨hstart.stack, (hsame.memory 1 hone).trans hstart.memory, (hsame.storage 1 hone).trans hstart.storage⟩
    exact ⟨tell ι σ item σ' m', hfields, hpushed, hstart', .feed (htold.same hn hsame) hfeed hacts hwhole (tells_tell ι σ item σ' m')⟩
  | look htraced hle hlook ih =>
    cases hl
    obtain ⟨ι, hfields, hpushed, hstart, htold⟩ := ih rfl
    exact ⟨ι, hfields, hpushed, hstart, .look htold hle hlook⟩
  | others _ hs' he ih =>
    cases hl
    obtain ⟨ι, hfields, hpushed, hstart, htold⟩ := ih rfl
    exact ⟨ι, hfields, hpushed, hstart, .others htold hs' he⟩

/-- There are values for the classes under which the known states agree with what the machine has at every point. -/
theorem Traced.exists_agrees {p : Point} {l : List Point} (h : Traced sha3 n (fun _ _ _ _ => True) f pushed m₀ (p :: l))
    (hheight : m₀.stack.length ≤ 2 ^ 256) {S : ExpressionClasses} (hS : Reached S) (he : Extends p.classes S) :
    ∃ ι V, ι.Gives sha3 S V ∧ ι.fields = f ∧ ι.pushed = pushed ∧ ∀ q ∈ p :: l, Agrees sha3 ι V q.state q.contents := by
  obtain ⟨ι, hfields, hpushed, hstart, htold⟩ := h.exists_interpretation hn hheight
  obtain ⟨V, hV⟩ := Interpretation.exists_gives sha3 ι hS
  subst hfields
  subst hpushed
  exact ⟨ι, V, hV, rfl, rfl, htold.agrees hn hV hstart he⟩

end KnownState

end Webthree
