import Webthree.Lemmas.KnownState

/-!
# Steps of known states

Every call keeps the invariant, and what it does to the memory of the machine is what the history says.
-/

namespace Webthree

open ExpressionClasses (Id M Reached Extends Below Grows valueOf levels)

namespace KnownState

open ExpressionClasses

/-- The invariant of the runs. -/
structure Known (sha3 : Bytes → U256) (s : ExpressionClasses) (σ : KnownState) (h : History) : Prop where
  reached : Reached s
  within : Within σ s
  current : ∃ effect, h.moments[h.now]? = some ⟨σ.m_sequenceNumber, effect⟩
  bounded : ∀ x ∈ h.moments, x.sequenceNumber ≤ σ.m_sequenceNumber
  effects : ∀ x ∈ h.moments, x.effect.Within s
  memory : ∀ μ, Consistent sha3 μ s h → ∀ e ∈ σ.m_memoryContent, word (μ.memory h.now) (μ.value s e.1) = μ.value s e.2
  same : ∀ μ, Consistent sha3 μ s h → ∀ (t t' : Nat) (x x' : Moment), h.moments[t]? = some x → h.moments[t']? = some x' →
    x.sequenceNumber = x'.sequenceNumber → μ.memory t = μ.memory t'
  recorded : ∀ o ∈ h.hashings, Recorded sha3 s h o

section

variable {sha3 : Bytes → U256} {s s' : ExpressionClasses} {σ σ' : KnownState} {h : History}

theorem Known.nonempty (hk : Known sha3 s σ h) : h.moments ≠ [] := by
  obtain ⟨effect, hx⟩ := hk.current
  exact List.ne_nil_of_mem (List.mem_of_getElem? hx)

/-- The invariant when classes are added. -/
theorem Known.extends (hk : Known sha3 s σ h) (hs' : Reached s') (he : Extends s s') : Known sha3 s' σ h := by
  have hc : ∀ μ, Consistent sha3 μ s' h → Consistent sha3 μ s h := fun μ hμ => hμ.of_extends hk.reached he hk.effects
  refine ⟨hs', hk.within.extends he, hk.current, hk.bounded, fun x hx => (hk.effects x hx).extends he, fun μ hμ e hm => ?_,
    fun μ hμ => hk.same μ (hc μ hμ), fun o ho => (hk.recorded o ho).mono he (fun _ _ hx => hx) hc⟩
  obtain ⟨hslot, hvalue⟩ := hk.within.memory e hm
  rw [μ.value_extends he hslot, μ.value_extends he hvalue]
  exact hk.memory μ (hc μ hμ) e hm

/-- The invariant when only the stack and the storage change. -/
theorem Known.still (hk : Known sha3 s σ h) (hstill : Still σ σ') (hwithin : Within σ' s) : Known sha3 s σ' h := by
  refine ⟨hk.reached, hwithin, ?_, ?_, hk.effects, fun μ hμ e hm => hk.memory μ hμ e (hstill.memory e hm), hk.same, hk.recorded⟩
  · rw [hstill.same]
    exact hk.current
  · rw [hstill.same]
    exact hk.bounded

/-- The invariant at the next moment. -/
theorem Known.next (hk : Known sha3 s σ h) (hwithin : Within σ' s) (hle : σ.m_sequenceNumber ≤ σ'.m_sequenceNumber) {effect : Effect}
    {hashings : List Hashing} (heffect : effect.Within s)
    (hmemory : ∀ μ, Consistent sha3 μ s h → effect.Holds (μ.value s) (μ.memory h.now) (μ.memory (h.now + 1)) →
      ∀ e ∈ σ'.m_memoryContent, word (μ.memory (h.now + 1)) (μ.value s e.1) = μ.value s e.2)
    (hsame : σ'.m_sequenceNumber = σ.m_sequenceNumber → ∀ μ, Consistent sha3 μ s h →
      effect.Holds (μ.value s) (μ.memory h.now) (μ.memory (h.now + 1)) → μ.memory (h.now + 1) = μ.memory h.now)
    (hrecorded : ∀ o ∈ hashings, Recorded sha3 s h o) :
    Known sha3 s σ' (h.next σ'.m_sequenceNumber effect hashings) := by
  have hne := hk.nonempty
  have hlast := History.getElem?_next_last hne σ'.m_sequenceNumber effect hashings
  have hnow := History.now_next hne σ'.m_sequenceNumber effect hashings
  have hholds : ∀ μ, Consistent sha3 μ s (h.next σ'.m_sequenceNumber effect hashings) →
      effect.Holds (μ.value s) (μ.memory h.now) (μ.memory (h.now + 1)) := fun μ hμ => hμ.effects h.now _ hlast
  have hmem : ∀ x ∈ (h.next σ'.m_sequenceNumber effect hashings).moments, x ∈ h.moments ∨ x = ⟨σ'.m_sequenceNumber, effect⟩ := by
    intro x hx
    exact (List.mem_append.mp hx).imp_right List.mem_singleton.mp
  refine ⟨hk.reached, hwithin, ⟨effect, by rw [hnow]; exact hlast⟩, fun x hx => ?_, fun x hx => ?_, fun μ hμ => ?_,
    fun μ hμ t t' x x' hx hx' hseq => ?_, fun o ho => ?_⟩
  · rcases hmem x hx with hx | rfl
    · exact (hk.bounded x hx).trans hle
    · exact le_refl _
  · rcases hmem x hx with hx | rfl
    · exact hk.effects x hx
    · exact heffect
  · rw [hnow]
    exact hmemory μ hμ.of_next (hholds μ hμ)
  · -- the number of the next moment is that of the last one if the memory is, and greater than those before otherwise
    have hold : ∀ (t : Nat) (x : Moment), h.moments[t]? = some x → x.sequenceNumber = σ'.m_sequenceNumber →
        μ.memory t = μ.memory (h.now + 1) := by
      intro t x hx hseq
      obtain ⟨effect', hcurrent⟩ := hk.current
      have hbound := hk.bounded x (List.mem_of_getElem? hx)
      have heq : σ'.m_sequenceNumber = σ.m_sequenceNumber := by omega
      rw [hsame heq μ hμ.of_next (hholds μ hμ)]
      exact hk.same μ hμ.of_next t h.now x _ hx hcurrent (hseq.trans heq)
    rcases History.getElem?_next_cases hne hx with hx | ⟨rfl, rfl⟩
    · rcases History.getElem?_next_cases hne hx' with hx' | ⟨rfl, rfl⟩
      · exact hk.same μ hμ.of_next t t' x x' hx hx' hseq
      · exact hold t x hx hseq
    · rcases History.getElem?_next_cases hne hx' with hx' | ⟨rfl, rfl⟩
      · exact (hold t' x' hx' hseq.symm).symm
      · rfl
  · have hmono : Recorded sha3 s h o → Recorded sha3 s (h.next σ'.m_sequenceNumber effect hashings) o := fun hrec =>
      hrec.mono (Extends.refl s) (fun t x hx => History.getElem?_next hx _ _ _) fun μ hμ => hμ.of_next
    rcases List.mem_append.mp ho with ho | ho
    · exact hmono (hk.recorded o ho)
    · exact hmono (hrecorded o ho)

/-- The next moment if the memory is kept. -/
theorem Known.calm (hk : Known sha3 s σ h) (hcalm : Calm σ σ') (hwithin : Within σ' s) :
    Known sha3 s σ' (h.next σ'.m_sequenceNumber .keeps []) := by
  refine hk.next hwithin hcalm.sequenceNumber trivial (fun μ hμ hholds e hm => ?_) (fun _ μ _ hholds => hholds)
    fun o ho => absurd ho List.not_mem_nil
  rw [hholds]
  exact hk.memory μ hμ e (hcalm.memory e hm)

/-- The next moment if nothing is known of the memory. -/
theorem Known.changes (hk : Known sha3 s σ h) (hwithin : Within σ' s) (hmemory : σ'.m_memoryContent = [])
    (hlt : σ.m_sequenceNumber < σ'.m_sequenceNumber) :
    Known sha3 s σ' (h.next σ'.m_sequenceNumber .changes []) := by
  refine hk.next hwithin hlt.le trivial (fun μ _ _ e hm => ?_) (fun heq => ?_) fun o ho => absurd ho List.not_mem_nil
  · rw [hmemory] at hm
    exact absurd hm List.not_mem_nil
  · omega

/-- After the next moment, the stack may still change. -/
theorem Known.still_next {effect : Effect} {hashings : List Hashing}
    (hk : Known sha3 s σ (h.next σ.m_sequenceNumber effect hashings)) (hstill : Still σ σ') (hwithin : Within σ' s) :
    Known sha3 s σ' (h.next σ'.m_sequenceNumber effect hashings) := by
  rw [hstill.same]
  exact hk.still hstill hwithin

/-- One more word of the memory is known. -/
theorem Known.learn (hk : Known sha3 s σ h) {slot c : Id} (hslot : Below slot s) (hc : Below c s)
    (hword : ∀ μ, Consistent sha3 μ s h → word (μ.memory h.now) (μ.value s slot) = μ.value s c) :
    Known sha3 s { σ with m_memoryContent := σ.m_memoryContent.setSorted (slot, c) } h := by
  refine ⟨hk.reached, ⟨hk.within.stack, hk.within.storage, fun e hm => ?_, hk.within.tags⟩, hk.current, hk.bounded, hk.effects,
    fun μ hμ e hm => ?_, hk.same, hk.recorded⟩
  · rcases Assoc.mem_setSorted hm with rfl | hm
    · exact ⟨hslot, hc⟩
    · exact hk.within.memory e hm
  · rcases Assoc.mem_setSorted hm with rfl | hm
    · exact hword μ hμ
    · exact hk.memory μ hμ e hm

/-! ## The memory -/

variable {n : Nat} (hn : levels ≤ n)

include hn

theorem storeInMemory_known (hk : Known sha3 s σ h) {slot value : Id} (hslot : Below slot s) (hvalue : Below value s) :
    Grows (storeInMemory n σ slot value) s fun r s' => Known sha3 s' r.2 (h.next r.2.m_sequenceNumber (.stores slot value) []) := by
  rw [storeInMemory]
  split
  · rename_i hfind
    -- the memory is what it was
    have hstored : ∀ μ, Consistent sha3 μ s h → Effect.Holds (μ.value s) (μ.memory h.now) (μ.memory (h.now + 1)) (.stores slot value) →
        μ.memory (h.now + 1) = μ.memory h.now := by
      intro μ hμ hholds
      have hword := hk.memory μ hμ _ (Assoc.mem_of_find_eq_some hfind)
      rw [Effect.Holds] at hholds
      rw [hholds, ← hword, store_word]
    refine Grows.pure hk.reached (hk.next hk.within (le_refl _) ⟨hslot, hvalue⟩ (fun μ hμ hholds e hm => ?_) (fun _ => hstored)
      fun o ho => absurd ho List.not_mem_nil)
    rw [hstored μ hμ hholds]
    exact hk.memory μ hμ e hm
  · -- the entries that are kept are far enough away
    refine (grows_copied (Q := fun e => ∀ β, 32 ≤ (valueOf β s.m_representatives e.1 - valueOf β s.m_representatives slot).toNat ∧
      32 ≤ (valueOf β s.m_representatives slot - valueOf β s.m_representatives e.1).toNat) hk.reached
      fun e he s₁ hs₁ he₁ => ?_).bind fun l s₁ hs₁ he₁ hl => ?_
    · have hslot' := (hk.within.memory e he).1
      refine (grows_knownToBeDifferentBy32 hs₁ hn (he₁.below hslot') (he₁.below hslot)).mono fun r s₂ _ _ hr htrue β => ?_
      rw [← he₁.valueOf_eq β hslot', ← he₁.valueOf_eq β hslot]
      exact hr htrue β
    · have hbelow : ∀ a ∈ [slot, value], Below a s₁ := below_two (he₁.below hslot) (he₁.below hvalue)
      refine (grows_find hs₁ hn hbelow (fun k hk => by cases hk) _).bind fun i s₂ hs₂ he₂ _ => ?_
      have he := he₁.trans he₂
      have hk₂ := hk.extends hs₂ he
      have hwithin : Within { σ with m_memoryContent := l.setSorted (slot, value), m_sequenceNumber := σ.m_sequenceNumber + 1 + 1 } s₂ := by
        refine ⟨hk₂.within.stack, hk₂.within.storage, fun e hm => ?_, hk₂.within.tags⟩
        rcases Assoc.mem_setSorted hm with rfl | hm
        · exact ⟨he.below hslot, he.below hvalue⟩
        · exact hk₂.within.memory e (hl e hm).1
      have heffect : Effect.Within s₂ (.stores slot value) := ⟨he.below hslot, he.below hvalue⟩
      refine Grows.pure hs₂ (hk₂.next hwithin (Nat.le_add_right _ 2) heffect (fun μ hμ hholds e hm => ?_) (fun heq => ?_)
        fun o ho => absurd ho List.not_mem_nil)
      · rw [Effect.Holds] at hholds
        rw [hholds]
        rcases Assoc.mem_setSorted hm with rfl | hm
        · exact word_store _ _ _
        · obtain ⟨hmem, hfar⟩ := hl e hm
          have hslot' := (hk.within.memory e hmem).1
          rw [word_store_apart, hk₂.memory μ hμ e hmem]
          · rw [μ.value_extends he hslot, μ.value_extends he hslot']
            exact (hfar μ.base).2
          · rw [μ.value_extends he hslot, μ.value_extends he hslot']
            exact (hfar μ.base).1
      · have heq : σ.m_sequenceNumber + 1 + 1 = σ.m_sequenceNumber := heq
        omega

theorem loadFromMemory_known (hk : Known sha3 s σ h) {slot : Id} (hslot : Below slot s) :
    Grows (loadFromMemory n σ slot) s fun r s' => Known sha3 s' r.2 h ∧ Below r.1 s' ∧ r.2.m_sequenceNumber = σ.m_sequenceNumber ∧
      r.2.m_knownSha3Hashes = σ.m_knownSha3Hashes ∧
      ∀ μ, Consistent sha3 μ s' h → word (μ.memory h.now) (μ.value s' slot) = μ.value s' r.1 := by
  rw [loadFromMemory]
  cases hfind : σ.m_memoryContent.find slot with
  | some c =>
    have hmem : (slot, c) ∈ σ.m_memoryContent := Assoc.mem_of_find_eq_some hfind
    have hword : ∀ μ, Consistent sha3 μ s h → word (μ.memory h.now) (μ.value s slot) = μ.value s c :=
      fun μ hμ => hk.memory μ hμ (slot, c) hmem
    exact Grows.pure hk.reached ⟨hk, (hk.within.memory _ hmem).2, rfl, rfl, hword⟩
  | none =>
    dsimp only
    have hbelow : ∀ a ∈ [slot], Below a s := fun a ha => List.mem_singleton.mp ha ▸ hslot
    refine (grows_find hk.reached hn hbelow (fun k hk => by cases hk) σ.m_sequenceNumber).bind fun c s' hs' he hc => ?_
    obtain ⟨hc, _, hplain⟩ := hc
    have hclass := hplain (Or.inr rfl)
    have hk' := hk.extends hs' he
    -- the class is that of the word for the sequence number
    have hword : ∀ μ, Consistent sha3 μ s' h → word (μ.memory h.now) (μ.value s' slot) = μ.value s' c := by
      intro μ hμ
      obtain ⟨effect, hcurrent⟩ := hk.current
      have hload := hμ.loads ⟨c, .ofInstruction .MLOAD, [slot], σ.m_sequenceNumber⟩ (List.mem_of_getElem? hclass) rfl slot rfl h.now _
        hcurrent rfl
      exact hload.symm
    exact Grows.pure hs' ⟨hk'.learn (he.below hslot) hc hword, hc, rfl, rfl, hword⟩

/-! ## Hashes -/

theorem loadWords_known (hk : Known sha3 s σ h) {start : Id} (hstart : Below start s) (is : List U256) :
    Grows (loadWords n start is σ) s fun r s' => Known sha3 s' r.2 h ∧ (∀ w ∈ r.1, Below w s') ∧
      r.2.m_sequenceNumber = σ.m_sequenceNumber ∧ r.2.m_knownSha3Hashes = σ.m_knownSha3Hashes ∧
      ∀ μ, Consistent sha3 μ s' h → r.1.map (μ.value s') = is.map fun i => word (μ.memory h.now) (μ.value s' start + i) := by
  induction is generalizing s σ with
  | nil => exact Grows.pure hk.reached ⟨hk, fun w hw => absurd hw List.not_mem_nil, rfl, rfl, fun _ _ => rfl⟩
  | cons i is ih =>
    rw [loadWords]
    refine (grows_find hk.reached hn (fun a ha => absurd ha List.not_mem_nil) (fun k hk => by cases hk) 0).bind
      fun c s₁ hs₁ he₁ hc => ?_
    have hargs : ∀ a ∈ [start, c], Below a s₁ := below_two (he₁.below hstart) hc.1
    refine (grows_find hs₁ hn hargs (fun k hk => by cases hk; rfl) 0).bind fun slot s₂ hs₂ he₂ hslot => ?_
    have hk₂ := hk.extends hs₂ (he₁.trans he₂)
    refine (loadFromMemory_known hn hk₂ hslot.1).bind fun r s₃ hs₃ he₃ hr => ?_
    obtain ⟨w, σ₃⟩ := r
    obtain ⟨hk₃, hw, hseq₃, hhashes₃, hword⟩ := hr
    have hstart₃ := (he₁.trans (he₂.trans he₃)).below hstart
    refine (ih hk₃ hstart₃).bind fun r s₄ hs₄ he₄ hr => ?_
    obtain ⟨ws, σ₄⟩ := r
    obtain ⟨hk₄, hws, hseq₄, hhashes₄, hwords⟩ := hr
    refine Grows.pure hs₄ ⟨hk₄, fun v hv => ?_, hseq₄.trans hseq₃, hhashes₄.trans hhashes₃, fun μ hμ => ?_⟩
    · rcases List.mem_cons.mp hv with rfl | hv
      · exact he₄.below hw
      · exact hws v hv
    · -- the slot is that far behind the start
      have hconst : μ.value s₂ c = i := by
        rw [μ.value_extends he₂ hc.1]
        exact hc.2.1 μ.base i (itemValue_push rfl _)
      have hsum : μ.value s₂ slot = μ.value s₂ start + i := by
        refine hslot.2.1 μ.base _ ((itemValue_ofInstruction rfl _).trans ?_)
        exact congrArg some ((congrArg (· + μ.value s₂ start) hconst).trans (BitVec.add_comm _ _))
      have hfirst := hword μ (hμ.of_extends hs₃ he₄ hk₃.effects)
      rw [μ.value_extends he₃ hslot.1, hsum, ← μ.value_extends (he₃.trans he₄) ((he₁.trans he₂).below hstart),
        ← μ.value_extends he₄ hw] at hfirst
      rw [List.map_cons, List.map_cons, hwords μ hμ, hfirst]

omit hn in
theorem shortLength_cases {length : Id} (hlength : Below length s) :
    shortLength length s = .ok none s ∨ ∃ l, constantOf s length = some l ∧ shortLength length s = .ok (some l) s := by
  have hshort : shortLength length s = .ok ((constantOf s length).bind fun l => if l > 128 then none else some l) s := by
    rw [shortLength]
    refine bind_eq_result_ok.mpr ⟨_, s, knownConstant_eq hlength, ?_⟩
    cases constantOf s length with
    | none => rfl
    | some l => rfl
  rw [hshort]
  cases constantOf s length with
  | none => exact Or.inl rfl
  | some l =>
    rw [Option.bind_some]
    split
    · exact Or.inl rfl
    · exact Or.inr ⟨l, rfl, rfl⟩

omit hn in
theorem mapM_knownConstant {words : List Id} (hwords : ∀ w ∈ words, Below w s) :
    words.mapM ExpressionClasses.knownConstant s = .ok (words.map (constantOf s)) s := by
  induction words with
  | nil => rfl
  | cons w words ih =>
    rw [List.mapM_cons]
    refine bind_eq_result_ok.mpr ⟨_, s, knownConstant_eq (hwords w List.mem_cons_self), bind_eq_result_ok.mpr ⟨_, s, ih fun v hv =>
      hwords v (List.mem_cons_of_mem _ hv), rfl⟩⟩

/-- The operation on the operands is found. -/
theorem findSha3_known (hk : Known sha3 s σ h) {start length : Id} (hstart : Below start s) (hlength : Below length s)
    (words : Option (List Id)) :
    Grows (find n (.ofInstruction .SHA3) [start, length] σ.m_sequenceNumber) s fun v s' => Known sha3 s' σ h ∧ Below v s' ∧
      Founded sha3 s' h ⟨start, length, words, v, h.now⟩ := by
  refine (grows_find hk.reached hn (below_two hstart hlength) (fun k hk => by cases hk) _).mono fun v s' hs' he hv => ?_
  obtain ⟨effect, hcurrent⟩ := hk.current
  refine ⟨hk.extends hs' he, hv.1, Or.inl ⟨start, length, σ.m_sequenceNumber, hv.2.2 (Or.inr rfl), h.now, _, hcurrent, rfl,
    he.below hstart, he.below hlength, fun μ _ => rfl⟩⟩

/-- The class for words that are not known yet is founded. -/
theorem hashWords_known (hk : Known sha3 s σ h) {start length : Id} (hstart : Below start s) (hlength : Below length s) {l : U256}
    (hl : constantOf s length = some l) {words : List Id} (hwords : ∀ w ∈ words, Below w s) :
    Grows (hashWords sha3 n σ start length l words) s fun v s' => Known sha3 s' σ h ∧ Below v s' ∧
      Founded sha3 s' h ⟨start, length, some words, v, h.now⟩ := by
  rw [hashWords]
  refine Grows.bind_ok (mapM_knownConstant hwords) ?_
  split
  · rename_i hall
    have harity : ∀ k, (AssemblyItem.push (sha3 (dataOf (words.map (constantOf s)).reduceOption l))).arity = some k →
        ([] : List Id).length = k := fun k hk => by cases hk
    refine (grows_find hk.reached hn (fun a ha => absurd ha List.not_mem_nil) harity 0).mono fun v s' hs' he hv => ?_
    refine ⟨hk.extends hs' he, hv.1, Or.inr ⟨_, ?_, hv.2.2 (Or.inl fun ht => by cases ht)⟩⟩
    rw [knownData_extends he hlength fun ws hws w hw => hwords w (by cases hws; exact hw), knownData, hl]
    exact if_pos hall
  · exact findSha3_known hn hk hstart hlength (some words)

omit hn in
/-- The next moment after a hash. -/
theorem Known.hash (hk : Known sha3 s σ h) {o : Hashing} (ho : Recorded sha3 s h o) (hashes : Assoc (List Id) Id) :
    Known sha3 s { σ with m_knownSha3Hashes := hashes } (h.next σ.m_sequenceNumber .keeps [o]) := by
  have hwithin : Within { σ with m_knownSha3Hashes := hashes } s :=
    ⟨hk.within.stack, hk.within.storage, hk.within.memory, hk.within.tags⟩
  refine hk.next hwithin (le_refl _) trivial (fun μ hμ hholds e hm => ?_) (fun _ μ _ hholds => hholds)
    fun o' ho' => List.mem_singleton.mp ho' ▸ ho
  rw [hholds]
  exact hk.memory μ hμ e hm

omit hn in
/-- The bytes that are hashed are those of the words. -/
theorem hashed_words (hs : Reached s) {o : Hashing} (hnow : o.moment = h.now) {l : U256} (hl : constantOf s o.length = some l)
    {words : List Id} {μ : Machine}
    (hwords : words.map (μ.value s) = (offsets l).map fun i => word (μ.memory h.now) (μ.value s o.start + i)) :
    μ.hashed s o = dataOf (words.map (μ.value s)) l := by
  have hvalue : μ.value s o.length = l := valueOf_constantOf hs hl μ.base
  rw [Machine.hashed, hnow, hvalue, read_eq_dataOf, hwords]

omit hn in
/-- A hash that is known for as many bytes of the same words is founded as the other one is. -/
theorem Recorded.founded_of_same {o o' : Hashing} (ho' : Recorded sha3 s h o') {words : List Id} (hw : o.words = some words)
    (hw' : o'.words = some words) (hresult : o'.result = o.result) {l : U256} (hl : constantOf s o.length = some l)
    (hsame : constantOf s o'.length = constantOf s o.length)
    (hdata : ∀ μ, Consistent sha3 μ s h → μ.hashed s o = dataOf (words.map (μ.value s)) l) : Founded sha3 s h o := by
  obtain ⟨_, l', hl', hdata'⟩ := ho'.words words hw'
  obtain rfl : l' = l := Option.some.inj (hl'.symm.trans (hsame.trans hl))
  rcases ho'.founded with ⟨start, length, k, hclass, t, x, hx, hk, hstart, hlength, hbytes⟩ | ⟨d, hd, hclass⟩
  · rw [hresult] at hclass
    refine Or.inl ⟨start, length, k, hclass, t, x, hx, hk, hstart, hlength, fun μ hμ => ?_⟩
    rw [hdata μ hμ, ← hdata' μ hμ, hbytes μ hμ]
  · rw [hresult] at hclass
    refine Or.inr ⟨d, ?_, hclass⟩
    rw [← hd, knownData, knownData, hw, hw', hsame]

/-- Every hash that is computed is recorded. -/
theorem applySha3_known (hk : Known sha3 s σ h) {start length v : Id} (hstart : Below start s) (hlength : Below length s)
    (happly : applySha3 sha3 n σ start length s = .ok (v, σ') s')
    (hsame : SameLength σ s' h ⟨start, length, shortWords n σ start length s, v, h.now⟩) :
    Reached s' ∧ Extends s s' ∧ Below v s' ∧
      Known sha3 s' σ' (h.next σ'.m_sequenceNumber .keeps [⟨start, length, shortWords n σ start length s, v, h.now⟩]) := by
  rw [applySha3] at happly
  obtain ⟨r, s₁, hr, happly⟩ := bind_eq_result_ok.mp happly
  rcases shortLength_cases hlength with hshort | ⟨l, hl, hshort⟩
  · have hwords : shortWords n σ start length s = none := by rw [shortWords, hshort]
    rw [hwords]
    rw [hshort] at hr
    cases hr
    obtain ⟨v', s₁, hfind, hpure⟩ := bind_eq_result_ok.mp happly
    cases hpure
    obtain ⟨hs', he, hk', hv, hfounded⟩ := (findSha3_known hn hk hstart hlength none).of_ok hfind
    refine ⟨hs', he, hv, hk'.hash ⟨he.below hstart, he.below hlength, hv, fun words hw => (by cases hw), hfounded⟩ _⟩
  · rw [hshort] at hr
    cases hr
    obtain ⟨⟨words, σ₁⟩, s₁, hload, happly⟩ := bind_eq_result_ok.mp happly
    have hwords : shortWords n σ start length s = some words := by
      rw [shortWords, hshort]
      dsimp only
      rw [hload]
    rw [hwords] at hsame ⊢
    obtain ⟨hs₁, he₁, hk₁, hbelow, hseq, hhashes, hvalues⟩ := (loadWords_known hn hk hstart (offsets l)).of_ok hload
    dsimp only at hk₁ hbelow hseq hhashes hvalues happly
    have hl₁ : constantOf s₁ length = some l := by rw [constantOf_extends he₁ hlength, hl]
    cases hfind : σ₁.m_knownSha3Hashes.find words with
    | some u =>
      rw [hfind] at happly
      cases happly
      -- the hash that is known is for as many bytes
      obtain ⟨o', ho', hw', hresult, hlengths⟩ := hsame words rfl v (by rw [← hhashes]; exact hfind)
      have hrec := hk₁.recorded o' ho'
      have hdata : ∀ μ, Consistent sha3 μ s' h → μ.hashed s' ⟨start, length, some words, v, h.now⟩ = dataOf (words.map (μ.value s')) l :=
        fun μ hμ => hashed_words hs₁ rfl hl₁ (hvalues μ hμ)
      have hfounded := hrec.founded_of_same (o := ⟨start, length, some words, v, h.now⟩) rfl hw' hresult hl₁ hlengths hdata
      have hv : Below v s' := hresult ▸ hrec.result
      refine ⟨hs₁, he₁, hv, hk₁.hash ⟨he₁.below hstart, he₁.below hlength, hv, fun ws hws => ?_, hfounded⟩ _⟩
      cases hws
      exact ⟨hbelow, l, hl₁, hdata⟩
    | none =>
      rw [hfind] at happly
      obtain ⟨u, s₂, hhash, hpure⟩ := bind_eq_result_ok.mp happly
      cases hpure
      obtain ⟨hs', he₂, hk₂, hv, hfounded⟩ :=
        (hashWords_known hn hk₁ (he₁.below hstart) (he₁.below hlength) hl₁ hbelow).of_ok hhash
      have he := he₁.trans he₂
      have hl₂ : constantOf s' length = some l := by rw [constantOf_extends he hlength, hl]
      refine ⟨hs', he, hv, hk₂.hash ⟨he.below hstart, he.below hlength, hv, fun ws hws => ?_, hfounded⟩ _⟩
      cases hws
      refine ⟨fun w hw => he₂.below (hbelow w hw), l, hl₂, fun μ hμ => hashed_words hs' rfl hl₂ ?_⟩
      have hmap : words.map (μ.value s') = words.map (μ.value s₁) := List.map_congr_left fun w hw => μ.value_extends he₂ (hbelow w hw)
      rw [hmap, hvalues μ (hμ.of_extends hs₁ he₂ hk₁.effects), μ.value_extends he₂ (he₁.below hstart)]

/-! ## Items -/

omit hn in
theorem invalidate_memory (σ : KnownState) (i : Instruction) :
    (σ.invalidate i).m_memoryContent = if SemanticInformation.invalidatesMemory i then [] else σ.m_memoryContent := by
  rw [invalidate]
  cases SemanticInformation.invalidatesMemory i <;> cases SemanticInformation.invalidatesStorage i <;> rfl

omit hn in
theorem invalidate_hashes (σ : KnownState) (i : Instruction) : (σ.invalidate i).m_knownSha3Hashes = σ.m_knownSha3Hashes := by
  rw [invalidate]
  cases SemanticInformation.invalidatesMemory i <;> cases SemanticInformation.invalidatesStorage i <;> rfl

omit hn in
theorem invalidate_sequenceNumber (σ : KnownState) (i : Instruction) : (σ.invalidate i).m_sequenceNumber =
    σ.m_sequenceNumber + if SemanticInformation.invalidatesMemory i ∨ SemanticInformation.invalidatesStorage i then 2 else 0 := by
  rw [invalidate]
  cases SemanticInformation.invalidatesMemory i <;> cases SemanticInformation.invalidatesStorage i <;> rfl

/-- The effect of an instruction that neither stores a word nor hashes. -/
def effectOf (i : Instruction) : Effect := if SemanticInformation.invalidatesMemory i then .changes else .keeps

omit hn in
theorem invalidate_known (hk : Known sha3 s σ h) (i : Instruction) :
    Known sha3 s (σ.invalidate i) (h.next (σ.invalidate i).m_sequenceNumber (effectOf i) []) := by
  have hmemory := invalidate_memory σ i
  have hsequence := invalidate_sequenceNumber σ i
  rw [effectOf]
  by_cases hi : SemanticInformation.invalidatesMemory i = true
  · rw [if_pos hi] at hmemory ⊢
    rw [if_pos (Or.inl hi)] at hsequence
    exact hk.changes (hk.within.invalidate i) hmemory (by omega)
  · rw [if_neg hi] at hmemory ⊢
    refine hk.calm ⟨fun e he => ?_, invalidate_hashes σ i, by omega⟩ (hk.within.invalidate i)
    rwa [hmemory] at he

omit hn in
/-- As many arguments are taken as an arithmetic, comparison or bit instruction has. -/
theorem args_of_arity {item : AssemblyItem} {k : Nat} (hk : item.arity = some k) : (instructionInfo item.instruction).args = k := by
  rw [AssemblyItem.arity] at hk
  split at hk
  · cases hi : item.instruction <;> rw [hi] at hk <;> cases hk <;> rfl
  · cases hk

theorem feedArguments_known (hk : Known sha3 s σ h) {item : AssemblyItem} (hstore : item.instruction ≠ .MSTORE)
    (hsha3 : item.instruction ≠ .SHA3) {arguments : List Id} (hargs : ∀ a ∈ arguments, Below a s)
    (hcount : arguments.length = (instructionInfo item.instruction).args) :
    Grows (feedArguments sha3 n item arguments σ) s fun r s' =>
      Known sha3 s' r.2 (h.next r.2.m_sequenceNumber (effectOf item.instruction) []) := by
  unfold feedArguments
  dsimp only
  split
  case h_1 slot value hi =>
    have hslot : Below slot s := hargs slot List.mem_cons_self
    have hvalue : Below value s := hargs value (List.mem_cons_of_mem _ List.mem_cons_self)
    rw [hi]
    refine (grows_storeInStorage hn hk.reached hk.within hslot hvalue).mono fun r s' hs' he hr => ?_
    exact (hk.extends hs' he).calm hr.2 hr.1
  case h_2 slot hi =>
    rw [hi]
    refine (grows_loadFromStorage hn hk.reached hk.within (hargs slot List.mem_cons_self)).bind fun r s' hs' he hr => ?_
    obtain ⟨hc, hwithin, hstill⟩ := hr
    have hall := hstill.trans (still_setStackElement r.2 (σ.m_stackHeight + item.deposit) r.1)
    exact Grows.pure hs' ((hk.extends hs' he).calm hall.toCalm (hwithin.setStackElement _ hc))
  case h_3 hi => exact absurd hi hstore
  case h_4 slot hi =>
    rw [hi]
    refine (loadFromMemory_known hn hk (hargs slot List.mem_cons_self)).bind fun r s' hs' he hr => ?_
    obtain ⟨hk', hc, hseq, hhashes, _⟩ := hr
    exact Grows.pure hs' (hk'.calm (still_setStackElement r.2 _ r.1).toCalm (hk'.within.setStackElement _ hc))
  case h_5 hi => exact absurd hi hsha3
  case h_6 =>
    have hk' := invalidate_known hk item.instruction
    split
    · exact Grows.throw _
    · split
      · refine (grows_find hk'.reached hn hargs (fun k hk => hcount.trans (args_of_arity hk)) 0).bind fun c s' hs' he hc => ?_
        have hk'' := hk'.extends hs' he
        exact Grows.pure hs' (hk''.still_next (still_setStackElement _ _ c) (hk''.within.setStackElement _ hc.1))
      · exact Grows.pure hk'.reached hk'

/-- Two arguments are read off the stack. -/
theorem stackArguments_known (hk : Known sha3 s σ h) {arguments : List Id} {σ₁ : KnownState} {s₁ : ExpressionClasses}
    (hargs : stackArguments n σ.m_stackHeight 2 σ s = .ok (arguments, σ₁) s₁) :
    ∃ a b, arguments = [a, b] ∧ Below a s₁ ∧ Below b s₁ ∧ Extends s s₁ ∧ Still σ σ₁ ∧ Known sha3 s₁ σ₁ h := by
  obtain ⟨hs₁, he₁, hbelow, hlength, hwithin, hstill⟩ := (grows_stackArguments hn hk.reached hk.within _ _).of_ok hargs
  obtain ⟨a, b, rfl⟩ := List.length_eq_two.mp hlength
  exact ⟨a, b, rfl, hbelow a List.mem_cons_self, hbelow b (List.mem_cons_of_mem _ List.mem_cons_self), he₁, hstill,
    (hk.extends hs₁ he₁).still hstill hwithin⟩

/-- A word is stored. -/
theorem feedStore_known (hk : Known sha3 s σ h) {item : AssemblyItem} (ht : item.type = .Operation) (hi : item.instruction = .MSTORE)
    {op : Option StoreOperation} {effect : Effect} {hashings : List Hashing}
    (hobserved : observed sha3 n item σ s h.now = some (effect, hashings)) (hfeed : feedOperation sha3 n item σ s = .ok (op, σ') s') :
    Reached s' ∧ Extends s s' ∧ Known sha3 s' σ' (h.next σ'.m_sequenceNumber effect hashings) := by
  unfold observed at hobserved
  unfold feedOperation at hfeed
  rw [if_neg (not_not.mpr ht)] at hobserved
  rw [hi] at hobserved hfeed
  dsimp only at hobserved hfeed
  obtain ⟨⟨arguments, σ₁⟩, s₁, harguments, hfeed⟩ := bind_eq_result_ok.mp hfeed
  have hargs : stackArguments n σ.m_stackHeight 2 σ s = .ok (arguments, σ₁) s₁ := harguments
  obtain ⟨slot, value, rfl, hslot, hvalue, he₁, -, hk₁⟩ := stackArguments_known hn hk hargs
  rw [hargs] at hobserved
  cases hobserved
  unfold feedArguments at hfeed
  rw [hi] at hfeed
  obtain ⟨hs', he', hk'⟩ := (storeInMemory_known hn hk₁ hslot hvalue).of_ok hfeed
  exact ⟨hs', he₁.trans he', hk'⟩

/-- A hash is computed. -/
theorem feedSha3_known (hk : Known sha3 s σ h) {item : AssemblyItem} (ht : item.type = .Operation) (hi : item.instruction = .SHA3)
    {op : Option StoreOperation} {effect : Effect} {hashings : List Hashing}
    (hobserved : observed sha3 n item σ s h.now = some (effect, hashings)) (hfeed : feedOperation sha3 n item σ s = .ok (op, σ') s')
    (hsame : ∀ o ∈ hashings, SameLength σ s' h o) :
    Reached s' ∧ Extends s s' ∧ Known sha3 s' σ' (h.next σ'.m_sequenceNumber effect hashings) := by
  unfold observed at hobserved
  unfold feedOperation at hfeed
  rw [if_neg (not_not.mpr ht)] at hobserved
  rw [hi] at hobserved hfeed
  dsimp only at hobserved hfeed
  obtain ⟨⟨arguments, σ₁⟩, s₁, harguments, hfeed⟩ := bind_eq_result_ok.mp hfeed
  have hargs : stackArguments n σ.m_stackHeight 2 σ s = .ok (arguments, σ₁) s₁ := harguments
  obtain ⟨start, length, rfl, hstart, hlength, he₁, hstill, hk₁⟩ := stackArguments_known hn hk hargs
  rw [hargs] at hobserved
  dsimp only at hobserved
  unfold feedArguments at hfeed
  rw [hi] at hfeed
  dsimp only at hfeed
  obtain ⟨⟨v, σ₂⟩, s₂, happly, hpure⟩ := bind_eq_result_ok.mp hfeed
  rw [happly] at hobserved
  cases hpure
  cases hobserved
  have hsame₁ : SameLength σ₁ s' h ⟨start, length, shortWords n σ₁ start length s₁, v, h.now⟩ := by
    intro words hw u hu
    rw [hstill.hashes] at hu
    exact hsame _ (List.mem_singleton_self _) words hw u hu
  obtain ⟨hs', he', hv, hk'⟩ := applySha3_known hn hk₁ hstart hlength happly hsame₁
  exact ⟨hs', he₁.trans he', hk'.still_next (still_setStackElement _ _ v) (hk'.within.setStackElement _ hv)⟩

/-- The other operations. -/
theorem feedOther_known (hk : Known sha3 s σ h) {item : AssemblyItem} (hstore : item.instruction ≠ .MSTORE)
    (hsha3 : item.instruction ≠ .SHA3) :
    Grows (feedOperation sha3 n item σ) s fun r s' =>
      Known sha3 s' r.2 (h.next r.2.m_sequenceNumber (effectOf item.instruction) []) := by
  unfold feedOperation
  split
  case h_1 i hi =>
    rw [hi]
    refine (grows_stackElement hn hk.reached hk.within _).bind fun r s' hs' he hr => ?_
    obtain ⟨hc, hwithin, hstill⟩ := hr
    have hall := hstill.trans (still_setStackElement r.2 (r.2.m_stackHeight + 1) r.1)
    exact Grows.pure hs' ((hk.extends hs' he).calm hall.toCalm (hwithin.setStackElement _ hc))
  case h_2 i hi =>
    rw [hi]
    refine (grows_swapStackElements hn hk.reached hk.within _ _).bind fun σ₁ s' hs' he hr => ?_
    exact Grows.pure hs' ((hk.extends hs' he).calm hr.2.toCalm hr.1)
  case h_3 hi =>
    rw [hi]
    exact Grows.pure hk.reached (hk.calm (Calm.refl σ) hk.within)
  case h_4 =>
    refine (grows_stackArguments hn hk.reached hk.within _ _).bind fun r s' hs' he hr => ?_
    obtain ⟨hbelow, hlength, hwithin, hstill⟩ := hr
    exact feedArguments_known hn ((hk.extends hs' he).still hstill hwithin) hstore hsha3 hbelow hlength

/-- Feeding an item keeps the invariant. -/
theorem feedItem_known (hk : Known sha3 s σ h) {item : AssemblyItem} {op : Option StoreOperation} {effect : Effect}
    {hashings : List Hashing} (hobserved : observed sha3 n item σ s h.now = some (effect, hashings))
    (hfeed : feedItem sha3 n item σ s = .ok (op, σ') s') (hsame : ∀ o ∈ hashings, SameLength σ s' h o) :
    Known sha3 s' σ' (h.next σ'.m_sequenceNumber effect hashings) := by
  rw [feedItem] at hfeed
  by_cases ht : item.type = .Operation
  · have htag : item.type ≠ .Tag := by
      rw [ht]
      decide
    rw [if_neg htag, if_neg (not_not.mpr ht)] at hfeed
    obtain ⟨⟨op₁, σ₁⟩, s₁, hoperation, hpure⟩ := bind_eq_result_ok.mp hfeed
    cases hpure
    have hsettle : Still σ₁ (σ₁.settle item) := ⟨⟨fun _ he => he, rfl, le_refl _⟩, rfl⟩
    suffices hall : Reached s' ∧ Extends s s' ∧ Known sha3 s' σ₁ (h.next σ₁.m_sequenceNumber effect hashings) by
      exact hall.2.2.still_next hsettle (hall.2.2.within.settle item)
    by_cases hstore : item.instruction = .MSTORE
    · exact feedStore_known hn hk ht hstore hobserved hoperation
    by_cases hsha3 : item.instruction = .SHA3
    · exact feedSha3_known hn hk ht hsha3 hobserved hoperation hsame
    unfold observed at hobserved
    rw [if_neg (not_not.mpr ht)] at hobserved
    split at hobserved
    · rename_i hi
      exact absurd hi hstore
    · rename_i hi
      exact absurd hi hsha3
    · cases hobserved
      exact (feedOther_known hn hk hstore hsha3).of_ok hoperation
  · rw [observed, if_pos ht] at hobserved
    cases hobserved
    by_cases htag : item.type = .Tag
    · rw [if_pos htag] at hfeed
      cases hfeed
      exact hk.calm (Calm.refl σ) hk.within
    rw [if_neg htag, if_pos ht] at hfeed
    split at hfeed
    · cases hfeed
    · obtain ⟨c, s₁, hfind, hpure⟩ := bind_eq_result_ok.mp hfeed
      cases hpure
      have harity : ∀ k, item.arity = some k → ([] : List Id).length = k := by
        intro k hk
        rw [AssemblyItem.arity, if_neg ht] at hk
        cases hk
      obtain ⟨hs', he, hc, _⟩ := (grows_find hk.reached hn (fun a ha => absurd ha List.not_mem_nil) harity 0).of_ok hfind
      have hk' := hk.extends hs' he
      have hheight : Within { σ with m_stackHeight := σ.m_stackHeight + 1 } s' :=
        ⟨hk'.within.stack, hk'.within.storage, hk'.within.memory, hk'.within.tags⟩
      exact hk'.calm ⟨fun _ h => h, rfl, le_refl _⟩ (hheight.setStackElement _ hc)

end

end KnownState

end Webthree
