import Mathlib.Tactic.Common

/-!
# Reachable states

The states of a machine that takes one step after the other, where a condition says which step may be taken in which state.
-/

namespace Webthree

variable {σ ι : Type}

/-- The states that allowed steps lead to. -/
inductive Reach (next : σ → ι → σ) (allowed : σ → ι → Prop) (init : σ) : σ → Prop where
  | start : Reach next allowed init init
  | step {s : σ} (i : ι) : Reach next allowed init s → allowed s i → Reach next allowed init (next s i)

/-- Each step of a list is allowed in the state it is taken in. -/
def AllowedFrom (next : σ → ι → σ) (allowed : σ → ι → Prop) : σ → List ι → Prop
  | _, [] => True
  | s, i :: l => allowed s i ∧ AllowedFrom next allowed (next s i) l

variable {next : σ → ι → σ} {allowed allowed' : σ → ι → Prop} {init : σ}

instance [∀ s i, Decidable (allowed s i)] : ∀ (s : σ) (l : List ι), Decidable (AllowedFrom next allowed s l)
  | _, [] => .isTrue trivial
  | s, i :: l =>
    have := instDecidableAllowedFrom (next s i) l
    inferInstanceAs (Decidable (allowed s i ∧ AllowedFrom next allowed (next s i) l))

/-- A run is allowed if its first part is, and its second from where that ends. -/
theorem allowedFrom_append {l l' : List ι} {s : σ} : AllowedFrom next allowed s (l ++ l') ↔
    AllowedFrom next allowed s l ∧ AllowedFrom next allowed (l.foldl next s) l' := by
  induction l generalizing s with
  | nil => simp [AllowedFrom]
  | cons i l ih => simp [AllowedFrom, ih, and_assoc]

/-- From a reached state, allowed inputs lead to reached ones. -/
theorem Reach.foldl {l : List ι} {s : σ} (h : Reach next allowed init s) (hl : AllowedFrom next allowed s l) :
    Reach next allowed init (l.foldl next s) := by
  induction l generalizing s with
  | nil => exact h
  | cons i l ih => exact ih (.step i h hl.1) hl.2

/-- What holds at the start and is kept by every step holds in every state. -/
theorem Reach.invariant {P : σ → Prop} (h₀ : P init) (hstep : ∀ s i, P s → allowed s i → P (next s i)) {s : σ}
    (h : Reach next allowed init s) : P s := by
  induction h with
  | start => exact h₀
  | step i _ hi ih => exact hstep _ i ih hi

/-- What is reached under a stricter rule is reached under a laxer one. -/
theorem Reach.mono (hmono : ∀ s i, allowed s i → allowed' s i) {s : σ} (h : Reach next allowed init s) :
    Reach next allowed' init s := by
  induction h with
  | start => exact .start
  | step i _ hi ih => exact .step i ih (hmono _ i hi)

/-- Steps that are allowed in all states with an invariant, and keep it, are allowed all along a run. -/
theorem allowedFrom_of_invariant (Inv : σ → Prop) (hall : ∀ s i, Inv s → allowed s i) (hkeep : ∀ s i, Inv s → Inv (next s i))
    {l : List ι} {s : σ} (hs : Inv s) : AllowedFrom next allowed s l := by
  induction l generalizing s with
  | nil => trivial
  | cons i l ih => exact ⟨hall s i hs, ih (hkeep s i hs)⟩

/-- Two conditions on steps that agree in states with an invariant, which the steps keep, agree on runs. -/
theorem allowedFrom_congr {Inv : σ → Prop} (hiff : ∀ s i, Inv s → (allowed s i ↔ allowed' s i))
    (hkeep : ∀ s i, Inv s → allowed s i → Inv (next s i)) {l : List ι} {s : σ} (hs : Inv s) :
    AllowedFrom next allowed s l ↔ AllowedFrom next allowed' s l := by
  induction l generalizing s with
  | nil => exact Iff.rfl
  | cons i l ih =>
    rw [AllowedFrom, AllowedFrom, ← hiff s i hs]
    exact and_congr_right fun hi => ih (hkeep s i hs hi)

/-- A property of the states holds after every part of a run exactly if each step of the run is allowed, where a step is allowed
exactly if the property holds after it, in states with an invariant that allowed steps keep. -/
theorem forall_prefix_iff {Inv P : σ → Prop} (hP : ∀ s, Inv s → P s) (hstep : ∀ s i, Inv s → (P (next s i) ↔ allowed s i))
    (hkeep : ∀ s i, Inv s → allowed s i → Inv (next s i)) {l : List ι} {s : σ} (hs : Inv s) :
    (∀ l', l' <+: l → P (l'.foldl next s)) ↔ AllowedFrom next allowed s l := by
  induction l generalizing s with
  | nil =>
    refine ⟨fun _ => trivial, fun _ l' hl => ?_⟩
    rw [List.prefix_nil.mp hl]
    exact hP s hs
  | cons i l ih =>
    constructor
    · intro h
      have hi : allowed s i := (hstep s i hs).mp (h [i] (List.prefix_append [i] l))
      exact ⟨hi, (ih (hkeep s i hs hi)).mp fun l' hl => h (i :: l') (List.cons_prefix_cons.mpr ⟨rfl, hl⟩)⟩
    · rintro ⟨hi, hl⟩ l' hl'
      rcases List.prefix_cons_iff.mp hl' with rfl | ⟨l'', rfl, hl''⟩
      · exact hP s hs
      · exact (ih (hkeep s i hs hi)).mpr hl l'' hl''

end Webthree
