import Webthree.Asm.Machine
import Mathlib.Data.List.Forall2
import Mathlib.Logic.Relation

/-!
# Runs that are the same but for tags

Two lists of items that push different tags behave in the same way if those tags lead to the same: their states have the same world
and related stacks after each step.
-/

namespace Webthree

/-- The values are the same, but for tags that are related. -/
inductive StackValue.Rel (T : U256 → U256 → Prop) : StackValue → StackValue → Prop where
  | word (w : U256) : Rel T (.word w) (.word w)
  | tag {t t' : U256} (h : T t t') : Rel T (.tag t) (.tag t')

/-- The outcomes are the same, but for related states. -/
inductive Outcome.Rel {ω : Type} (R : MachineState ω → MachineState ω → Prop) : Outcome ω → Outcome ω → Prop where
  | running {s s' : MachineState ω} (h : R s s') : Rel R (.running s) (.running s')
  | stopped (world : ω) : Rel R (.stopped world) (.stopped world)
  | failed : Rel R .failed .failed
  | misused : Rel R .misused .misused

theorem Outcome.Rel.mono {ω : Type} {R R' : MachineState ω → MachineState ω → Prop} {o o' : Outcome ω} (h : Outcome.Rel R o o') (hR : ∀ s s', R s s' → R' s s') :
    Outcome.Rel R' o o' := by
  cases h with
  | running h => exact .running (hR _ _ h)
  | stopped world => exact .stopped world
  | failed => exact .failed
  | misused => exact .misused

namespace Machine

variable {ω : Type} {M : Machine ω} {T : U256 → U256 → Prop} {R R' : MachineState ω → MachineState ω → Prop}

/-- The states have related stacks, the same world, and related positions. -/
structure StateRel (T : U256 → U256 → Prop) (R : Nat → Nat → Prop) (s s' : MachineState ω) : Prop where
  position : R s.position s'.position
  stack : List.Forall₂ (StackValue.Rel T) s.stack s'.stack
  world : s.world = s'.world

/-- A relation that each step keeps is kept by every run. -/
theorem run_rel {items items' : List AssemblyItem} (hstep : ∀ s s', R s s' → Outcome.Rel R (M.step items s) (M.step items' s'))
    (n : Nat) {s s' : MachineState ω} (h : R s s') : Outcome.Rel R (M.run items n s) (M.run items' n s') := by
  induction n generalizing s s' with
  | zero => exact .running h
  | succ n ih =>
    rw [run, run]
    have hs := hstep s s' h
    revert hs
    generalize M.step items s = o
    generalize M.step items' s' = o'
    intro hs
    cases hs with
    | running h => exact ih h
    | stopped world => exact .stopped world
    | failed => exact .failed
    | misused => exact .misused

theorem words_rel {l l' : List StackValue} (h : List.Forall₂ (StackValue.Rel T) l l') : words l = words l' := by
  induction h with
  | nil => rfl
  | cons hv _ ih =>
    cases hv with
    | word w => rw [words, words, ih]
    | tag ht => rfl

theorem getElem?_rel {α β : Type} {S : α → β → Prop} {l : List α} {l' : List β} (h : List.Forall₂ S l l') (n : Nat) :
    (l[n]? = none ∧ l'[n]? = none) ∨ ∃ v v', l[n]? = some v ∧ l'[n]? = some v' ∧ S v v' := by
  induction h generalizing n with
  | nil => exact Or.inl ⟨rfl, rfl⟩
  | cons hv _ ih =>
    cases n with
    | zero => exact Or.inr ⟨_, _, rfl, rfl, hv⟩
    | succ n => exact ih n

theorem set_rel {α β : Type} {S : α → β → Prop} {l : List α} {l' : List β} (h : List.Forall₂ S l l') (n : Nat) {v : α} {v' : β}
    (hv : S v v') : List.Forall₂ S (l.set n v) (l'.set n v') := by
  induction h generalizing n with
  | nil => exact .nil
  | cons hw h ih =>
    cases n with
    | zero => exact .cons hv h
    | succ n => exact .cons hw (ih n)

/-- The values lead nowhere, or to related positions. -/
def TargetsRel (M : Machine ω) (R : Nat → Nat → Prop) (items items' : List AssemblyItem) (v v' : StackValue) : Prop :=
  (M.target items v = none ∧ M.target items' v' = none) ∨
    ∃ p p', M.target items v = some p ∧ M.target items' v' = some p' ∧ R p p'

/-- The instruction is one that is never followed by the next item. -/
def Leaves (i : Instruction) : Prop := i = .JUMP ∨ i = .STOP ∨ i = .RETURN ∨ i = .SUICIDE

/-- The positions are those after the instruction, or others that are related. -/
def Onward (R : Nat → Nat → Prop) (k k' : Nat) (i : Instruction) (p p' : Nat) : Prop :=
  R p p' ∨ p = k + 1 ∧ p' = k' + 1 ∧ ¬Leaves i

variable {Q : Nat → Nat → Prop} {items items' : List AssemblyItem} {k k' : Nat} {stack stack' : List StackValue}

theorem ordinary_rel (i : Instruction) (hi : i ≠ .JUMP) (h : List.Forall₂ (StackValue.Rel T) stack stack') (world : ω) :
    Outcome.Rel (StateRel T (Onward Q k k' i)) (M.ordinary k i stack world) (M.ordinary k' i stack' world) := by
  have hwords := words_rel (List.forall₂_take (instructionInfo i).args h)
  unfold ordinary
  rw [h.length_eq, hwords]
  by_cases hlen : stack'.length < (instructionInfo i).args
  · rw [if_pos hlen, if_pos hlen]
    exact .failed
  rw [if_neg hlen, if_neg hlen]
  cases words (stack'.take (instructionInfo i).args) with
  | none => exact .misused
  | some args =>
    dsimp only
    cases M.exec i args world with
    | none => exact .failed
    | some r =>
      dsimp only
      by_cases hstop : i = .STOP ∨ i = .RETURN ∨ i = .SUICIDE
      · rw [if_pos hstop, if_pos hstop]
        exact .stopped _
      · rw [if_neg hstop, if_neg hstop]
        refine .running ⟨Or.inr ⟨rfl, rfl, fun hl => hl.elim hi hstop⟩, ?_, rfl⟩
        refine List.rel_append ?_ (List.forall₂_drop (instructionInfo i).args h)
        exact List.forall₂_map_left_iff.mpr (List.forall₂_map_right_iff.mpr (List.forall₂_same.mpr fun w _ => .word w))

theorem jump_rel (hd : TargetsRel M Q items items' v v') (h : List.Forall₂ (StackValue.Rel T) stack stack') (world : ω)
    (i : Instruction) :
    Outcome.Rel (StateRel T (Onward Q k k' i)) (M.jump items v stack world) (M.jump items' v' stack' world) := by
  unfold jump
  rcases hd with ⟨hn, hn'⟩ | ⟨p, p', hp, hp', hq⟩
  · rw [hn, hn']
    exact .failed
  · rw [hp, hp']
    exact .running ⟨Or.inl hq, h, rfl⟩

theorem operate_rel (htarget : ∀ v v', StackValue.Rel T v v' → TargetsRel M Q items items' v v') (i : Instruction)
    (hpc : i = .PC → M.offset k = M.offset k') (h : List.Forall₂ (StackValue.Rel T) stack stack') (world : ω) :
    Outcome.Rel (StateRel T (Onward Q k k' i)) (M.operate items k i stack world) (M.operate items' k' i stack' world) := by
  have hnext : ∀ {l l'}, ¬Leaves i → List.Forall₂ (StackValue.Rel T) l l' →
      Outcome.Rel (StateRel T (Onward Q k k' i)) (.running ⟨k + 1, l, world⟩) (.running ⟨k' + 1, l', world⟩) :=
    fun hi hl => .running ⟨Or.inr ⟨rfl, rfl, hi⟩, hl, rfl⟩
  cases i with
  | JUMP =>
    cases h with
    | nil => exact .failed
    | cons hd h => exact jump_rel (htarget _ _ hd) h world _
  | JUMPI =>
    cases h with
    | nil => exact .failed
    | cons hd h =>
      cases h with
      | nil => exact .failed
      | cons hc h =>
        cases hc with
        | tag _ => exact .misused
        | word c =>
          simp only [operate]
          by_cases hc : c = 0
          · rw [if_pos hc, if_pos hc]
            exact hnext (by simp [Leaves]) h
          · rw [if_neg hc, if_neg hc]
            exact jump_rel (htarget _ _ hd) h world _
  | POP =>
    cases h with
    | nil => exact .failed
    | cons _ h => exact hnext (by simp [Leaves]) h
  | DUP n =>
    simp only [operate]
    rcases getElem?_rel h n.val with ⟨hn, hn'⟩ | ⟨v, v', hv, hv', hvv⟩
    · rw [hn, hn']
      exact .failed
    · rw [hv, hv']
      exact hnext (by simp [Leaves]) (.cons hvv h)
  | SWAP n =>
    cases h with
    | nil => exact .failed
    | cons ht h =>
      simp only [operate]
      rcases getElem?_rel h n.val with ⟨hn, hn'⟩ | ⟨v, v', hv, hv', hvv⟩
      · rw [hn, hn']
        exact .failed
      · rw [hv, hv']
        exact hnext (by simp [Leaves]) (.cons hvv (set_rel h n.val ht))
  | PC =>
    simp only [operate]
    rw [hpc rfl]
    exact hnext (by simp [Leaves]) (.cons (.word _) h)
  | PUSH n => exact ordinary_rel (.PUSH n) (by simp) h world
  | _ => exact ordinary_rel _ (fun he => Instruction.noConfusion he) h world

/-- Running on from a tag. -/
def enter (M : Machine ω) (items : List AssemblyItem) (t : U256) (n : Nat) (stack : List StackValue) (world : ω) : Outcome ω :=
  match M.target items (.tag t) with
  | none => .failed
  | some p => M.run items n ⟨p, stack, world⟩

end Machine

/-- Items that behave in the same way but push tags that are related, and entering them at related tags is the same. -/
structure SameBehaviour {ω : Type} (M : Machine ω) (items items' : List AssemblyItem) (T : U256 → U256 → Prop) : Prop where
  refl : ∀ t, T t t
  pushes : List.Forall₂ (fun x y => x = y ∨ ∃ t t', x = .pushTag t ∧ y = .pushTag t' ∧ T t t') items items'
  start : ∀ n stack stack' world, List.Forall₂ (StackValue.Rel T) stack stack' →
    Outcome.Rel (Machine.StateRel T fun _ _ => True) (M.run items n ⟨0, stack, world⟩) (M.run items' n ⟨0, stack', world⟩)
  tags : ∀ t t', T t t' → ∀ n stack stack' world, List.Forall₂ (StackValue.Rel T) stack stack' →
    Outcome.Rel (Machine.StateRel T fun _ _ => True) (M.enter items t n stack world) (M.enter items' t' n stack' world)

theorem sameBehaviour_self {ω : Type} {M : Machine ω} {items : List AssemblyItem} : SameBehaviour M items items Eq := by
  have hstack : ∀ {stack stack' : List StackValue}, List.Forall₂ (StackValue.Rel Eq) stack stack' → stack = stack' := by
    intro stack stack' h
    induction h with
    | nil => rfl
    | cons hv _ ih =>
      cases hv with
      | word w => rw [ih]
      | tag ht => rw [ih, ht]
  have hself : ∀ o : Outcome ω, Outcome.Rel (Machine.StateRel Eq fun _ _ => True) o o := by
    intro o
    cases o with
    | running s =>
      refine .running ⟨trivial, List.forall₂_same.mpr fun v _ => ?_, rfl⟩
      cases v with
      | word w => exact .word w
      | tag t => exact .tag rfl
    | stopped world => exact .stopped world
    | failed => exact .failed
    | misused => exact .misused
  refine ⟨fun _ => rfl, List.forall₂_same.mpr fun _ _ => Or.inl rfl, ?_, ?_⟩
  · intro n stack stack' world h
    rw [hstack h]
    exact hself _
  · rintro t t' rfl n stack stack' world h
    rw [hstack h]
    exact hself _

section Composition

variable {ω : Type} {M : Machine ω} {T T' : U256 → U256 → Prop}

theorem StackValue.Rel.comp {v v' v'' : StackValue} (h : StackValue.Rel T v v') (h' : StackValue.Rel T' v' v'') :
    StackValue.Rel (Relation.Comp T T') v v'' := by
  cases h with
  | word w =>
    cases h' with
    | word _ => exact .word w
  | tag ht =>
    cases h' with
    | tag ht' => exact .tag ⟨_, ht, ht'⟩

theorem forall₂_comp {α β γ : Type} {S : α → β → Prop} {S' : β → γ → Prop} {S'' : α → γ → Prop}
    (hS : ∀ a b c, S a b → S' b c → S'' a c) {l : List α} {l' : List β} {l'' : List γ} (h : List.Forall₂ S l l')
    (h' : List.Forall₂ S' l' l'') : List.Forall₂ S'' l l'' := by
  induction h generalizing l'' with
  | nil =>
    cases h'
    exact .nil
  | cons ha _ ih =>
    cases h' with
    | cons hb h' => exact .cons (hS _ _ _ ha hb) (ih h')

/-- Between stacks that are related by a composition, there is one in the middle. -/
theorem exists_stack {stack stack'' : List StackValue} (h : List.Forall₂ (StackValue.Rel (Relation.Comp T T')) stack stack'') :
    ∃ stack', List.Forall₂ (StackValue.Rel T) stack stack' ∧ List.Forall₂ (StackValue.Rel T') stack' stack'' := by
  induction h with
  | nil => exact ⟨[], .nil, .nil⟩
  | cons hv _ ih =>
    obtain ⟨stack', h, h'⟩ := ih
    cases hv with
    | word w => exact ⟨.word w :: stack', .cons (.word w) h, .cons (.word w) h'⟩
    | tag ht =>
      obtain ⟨t', ht, ht'⟩ := ht
      exact ⟨.tag t' :: stack', .cons (.tag ht) h, .cons (.tag ht') h'⟩

theorem Outcome.Rel.comp {o o' o'' : Outcome ω} (h : Outcome.Rel (Machine.StateRel T fun _ _ => True) o o')
    (h' : Outcome.Rel (Machine.StateRel T' fun _ _ => True) o' o'') :
    Outcome.Rel (Machine.StateRel (Relation.Comp T T') fun _ _ => True) o o'' := by
  cases h with
  | running h =>
    cases h' with
    | running h' =>
      refine .running ⟨trivial, forall₂_comp ?_ h.stack h'.stack, h.world.trans h'.world⟩
      exact fun _ _ _ hv hv' => hv.comp hv'
  | stopped world =>
    cases h' with
    | stopped _ => exact .stopped world
  | failed =>
    cases h' with
    | failed => exact .failed
  | misused =>
    cases h' with
    | misused => exact .misused

theorem SameBehaviour.comp {items items' items'' : List AssemblyItem} (h : SameBehaviour M items items' T)
    (h' : SameBehaviour M items' items'' T') : SameBehaviour M items items'' (Relation.Comp T T') := by
  refine ⟨fun t => ⟨t, h.refl t, h'.refl t⟩, forall₂_comp ?_ h.pushes h'.pushes, ?_, ?_⟩
  · rintro x y z (rfl | ⟨t, t', rfl, rfl, ht⟩) (rfl | ⟨s, s', hs, rfl, hs'⟩)
    · exact Or.inl rfl
    · exact Or.inr ⟨s, s', hs, rfl, s, h.refl s, hs'⟩
    · exact Or.inr ⟨t, t', rfl, rfl, t', ht, h'.refl t'⟩
    · cases hs
      exact Or.inr ⟨t, s', rfl, rfl, t', ht, hs'⟩
  · intro n stack stack'' world hstack
    obtain ⟨stack', hs, hs'⟩ := exists_stack hstack
    exact (h.start n stack stack' world hs).comp (h'.start n stack' stack'' world hs')
  · rintro t t'' ⟨t', ht, ht'⟩ n stack stack'' world hstack
    obtain ⟨stack', hs, hs'⟩ := exists_stack hstack
    exact (h.tags t t' ht n stack stack' world hs).comp (h'.tags t' t'' ht' n stack' stack'' world hs')

end Composition

end Webthree
