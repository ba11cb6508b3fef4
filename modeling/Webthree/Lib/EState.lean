import Mathlib.Tactic.Common

/-!
# Stateful computations that may throw

What a computation in `EStateM` ends with, as a predicate transformer: `Runs m s Q E` says that `m`, started in `s`, returns
with `Q` or throws with `E`. The rules take a computation apart at its binds, so that a proof about a long computation is a
proof about each of its parts.
-/

namespace Webthree

variable {ε σ τ α β : Type}

/-- `m` started in `s` ends as `Q` says if it returns, and as `E` says if it throws. -/
def Runs (m : EStateM ε σ α) (s : σ) (Q : α → σ → Prop) (E : ε → σ → Prop) : Prop :=
  match m s with
  | .ok a t => Q a t
  | .error e t => E e t

variable {s : σ} {Q : α → σ → Prop} {E : ε → σ → Prop}

@[simp] theorem runs_pure (a : α) : Runs (pure a) s Q E ↔ Q a s := Iff.rfl

/-- A sequence runs as its first part does, with the second one in place of what comes after. -/
@[simp] theorem runs_bind (m : EStateM ε σ β) (f : β → EStateM ε σ α) :
    Runs (m >>= f) s Q E ↔ Runs m s (fun b t => Runs (f b) t Q E) E := by
  unfold Runs
  simp only [bind, EStateM.bind]
  cases m s with
  | ok b t => exact Iff.rfl
  | error e t => exact Iff.rfl

@[simp] theorem runs_throw (e : ε) : Runs (throw e) s Q E ↔ E e s := Iff.rfl

@[simp] theorem runs_get {Q : σ → σ → Prop} : Runs get s Q E ↔ Q s s := Iff.rfl

@[simp] theorem runs_set {Q : PUnit → σ → Prop} (t : σ) : Runs (set t) s Q E ↔ Q ⟨⟩ t := Iff.rfl

@[simp] theorem runs_modify {Q : PUnit → σ → Prop} (f : σ → σ) : Runs (modify f) s Q E ↔ Q ⟨⟩ (f s) := Iff.rfl

theorem estate_get (s : σ) : (EStateM.get : EStateM ε σ σ) s = .ok s s := rfl

theorem estate_set (s t : σ) : (EStateM.set t : EStateM ε σ PUnit) s = .ok ⟨⟩ t := rfl

theorem estate_modifyGet (f : σ → α × σ) (s : σ) : (EStateM.modifyGet f : EStateM ε σ α) s = .ok (f s).1 (f s).2 := rfl

/-- What the handler makes of an exception; the state is kept. -/
theorem runs_tryCatch (m : EStateM ε σ α) (h : ε → EStateM ε σ α) :
    Runs (tryCatch m h) s Q E ↔ Runs m s Q fun e t => Runs (h e) t Q E := by
  simp only [Runs, tryCatch, tryCatchThe, MonadExceptOf.tryCatch, EStateM.tryCatch]
  cases m s with
  | ok a t => rfl
  | error e t => rfl

/-- How a computation ends is how it ends. -/
theorem Runs.self (m : EStateM ε σ α) (s : σ) : Runs m s (fun a t => m s = .ok a t) fun e t => m s = .error e t := by
  unfold Runs
  cases m s with
  | ok a t => rfl
  | error e t => rfl

/-- A choice runs as the branch that is taken. -/
theorem runs_ite (c : Prop) [Decidable c] (m n : EStateM ε σ α) :
    Runs (if c then m else n) s Q E ↔ (c → Runs m s Q E) ∧ (¬c → Runs n s Q E) := by
  by_cases h : c
  · simp [h]
  · simp [h]

/-- Whether a computation ends so is decided by running it. -/
instance (m : EStateM ε σ α) [∀ a t, Decidable (Q a t)] [∀ e t, Decidable (E e t)] : Decidable (Runs m s Q E) :=
  match h : m s with
  | .ok a t => decidable_of_iff (Q a t) (by rw [Runs, h])
  | .error e t => decidable_of_iff (E e t) (by rw [Runs, h])

/-- What is asked of the end can be weakened. -/
theorem Runs.mono {m : EStateM ε σ α} {Q' : α → σ → Prop} {E' : ε → σ → Prop} (h : Runs m s Q E)
    (hQ : ∀ a t, Q a t → Q' a t) (hE : ∀ e t, E e t → E' e t) : Runs m s Q' E' := by
  unfold Runs at *
  cases hm : m s with
  | ok a t => rw [hm] at h; exact hQ a t h
  | error e t => rw [hm] at h; exact hE e t h

/-- Two facts about one computation are one fact. -/
theorem Runs.and {m : EStateM ε σ α} {Q' : α → σ → Prop} {E' : ε → σ → Prop} (h : Runs m s Q E) (h' : Runs m s Q' E') :
    Runs m s (fun a t => Q a t ∧ Q' a t) (fun e t => E e t ∧ E' e t) := by
  unfold Runs at *
  cases hm : m s with
  | ok a t => rw [hm] at h h'; exact ⟨h, h'⟩
  | error e t => rw [hm] at h h'; exact ⟨h, h'⟩

/-- To know the end of a bind whatever the first part does. -/
theorem runs_bind_of_forall {m : EStateM ε σ β} {f : β → EStateM ε σ α} (hf : ∀ b t, Runs (f b) t Q E) (he : ∀ e t, E e t) :
    Runs (m >>= f) s Q E := by
  rw [runs_bind]
  unfold Runs
  cases m s with
  | ok b t => exact hf b t
  | error e t => exact he e t

/-- A computation that returns has done what returning ones do. -/
theorem Runs.of_ok {m : EStateM ε σ α} (h : Runs m s Q E) {a : α} {t : σ} (hm : m s = .ok a t) : Q a t := by
  unfold Runs at h
  rwa [hm] at h

/-- A computation that cannot throw returns. -/
theorem Runs.exists_ok {m : EStateM ε σ α} (h : Runs m s Q fun _ _ => False) : ∃ a t, m s = .ok a t ∧ Q a t := by
  unfold Runs at h
  cases hm : m s with
  | ok a t =>
    rw [hm] at h
    exact ⟨a, t, rfl, h⟩
  | error e t =>
    rw [hm] at h
    exact h.elim

/-- A computation that throws has done what throwing ones do. -/
theorem Runs.of_error {m : EStateM ε σ α} (h : Runs m s Q E) {e : ε} {t : σ} (hm : m s = .error e t) : E e t := by
  unfold Runs at h
  rwa [hm] at h

/-- One operation for each element of a list keeps what each of them keeps. -/
theorem runs_mapM {f : β → EStateM ε σ α} {I : σ → Prop} {l : List β} (hs : I s) (hf : ∀ y t, I t → Runs (f y) t (fun _ u => I u) E) :
    Runs (l.mapM f) s (fun _ u => I u) E := by
  induction l generalizing s with
  | nil =>
    rw [List.mapM_nil]
    exact hs
  | cons y l ih =>
    rw [List.mapM_cons, runs_bind]
    refine (hf y s hs).mono (fun r u hu => ?_) fun _ _ h => h
    rw [runs_bind]
    exact (ih hu).mono (fun _ _ h => h) fun _ _ h => h

/-- What is true of the result for each element is true of the results in their order. -/
theorem runs_mapM_forall₂ {f : β → EStateM ε σ α} {I : σ → Prop} {R : β → α → Prop} {l : List β} (hs : I s)
    (hf : ∀ y ∈ l, ∀ t, I t → Runs (f y) t (fun r u => I u ∧ R y r) E) : Runs (l.mapM f) s (fun rs u => I u ∧ List.Forall₂ R l rs) E := by
  induction l generalizing s with
  | nil =>
    rw [List.mapM_nil]
    exact ⟨hs, .nil⟩
  | cons y l ih =>
    rw [List.mapM_cons, runs_bind]
    refine (hf y List.mem_cons_self s hs).mono (fun r u hu => ?_) fun _ _ h => h
    rw [runs_bind]
    refine (ih hu.1 fun z hz => hf z (List.mem_cons_of_mem _ hz)).mono (fun rs v hv => ?_) fun _ _ h => h
    exact ⟨hv.1, .cons hu.2 hv.2⟩

/-- What is true of the result for an element is true of one of the results. -/
theorem runs_mapM_mem {f : β → EStateM ε σ α} {I : σ → Prop} {Q : α → Prop} {x : β} {l : List β} (hx : x ∈ l) (hs : I s)
    (hf : ∀ y t, I t → Runs (f y) t (fun _ u => I u) E) (hfx : ∀ t, I t → Runs (f x) t (fun r u => I u ∧ Q r) E) :
    Runs (l.mapM f) s (fun rs u => I u ∧ ∃ r ∈ rs, Q r) E := by
  induction l generalizing s with
  | nil => exact absurd hx List.not_mem_nil
  | cons y l ih =>
    rw [List.mapM_cons, runs_bind]
    rcases List.mem_cons.mp hx with rfl | hx
    · refine (hfx s hs).mono (fun r u hu => ?_) fun _ _ h => h
      rw [runs_bind]
      refine (runs_mapM hu.1 hf).mono (fun rs v hv => ?_) fun _ _ h => h
      exact ⟨hv, r, List.mem_cons_self, hu.2⟩
    · refine (hf y s hs).mono (fun r u hu => ?_) fun _ _ h => h
      rw [runs_bind]
      refine (ih hx hu).mono (fun rs v hv => ?_) fun _ _ h => h
      obtain ⟨hI, r', hr', hQ⟩ := hv
      exact ⟨hI, r', List.mem_cons_of_mem _ hr', hQ⟩

/-- A bind that returns is two computations that return. -/
theorem bind_eq_result_ok {m : EStateM ε σ β} {f : β → EStateM ε σ α} {a : α} {t : σ} :
    (m >>= f) s = .ok a t ↔ ∃ b u, m s = .ok b u ∧ f b u = .ok a t := by
  simp only [bind, EStateM.bind]
  cases m s with
  | ok b u =>
    refine ⟨fun h => ⟨b, u, rfl, h⟩, ?_⟩
    rintro ⟨b', u', hm, hf⟩
    cases hm
    exact hf
  | error e u =>
    refine ⟨fun h => (by cases h), ?_⟩
    rintro ⟨b', u', hm, -⟩
    cases hm

/-! ## Computations under an assumption on their end

Where a computation is only right if something holds of the state it ends in, and no step can bring that about. -/

/-- The state a computation ends in, whether it returns or throws. -/
def endState : EStateM.Result ε σ α → σ
  | .ok _ t => t
  | .error _ t => t

/-- The exception that a computation ends with. -/
def raised : EStateM.Result ε σ α → Option ε
  | .ok _ _ => none
  | .error e _ => some e

/-- Whether a computation returns. -/
def returns : EStateM.Result ε σ α → Bool
  | .ok _ _ => true
  | .error _ _ => false

/-- What has returned is known by its state. -/
theorem eq_ok_endState {r : EStateM.Result ε σ Unit} (h : returns r = true) : r = .ok () (endState r) := by
  cases r with
  | ok a t => rfl
  | error e t => cases h

/-- `m` started in `s` returns as `Q` says, provided that `G` holds in the end. -/
def Provided (G : σ → Prop) (m : EStateM ε σ α) (s : σ) (Q : α → σ → Prop) : Prop :=
  G (endState (m s)) → ∃ a t, m s = .ok a t ∧ Q a t

/-- What `G` says after `m` it also says before. -/
def Preserves (G : σ → Prop) (m : EStateM ε σ α) : Prop := ∀ s, G (endState (m s)) → G s

section Provided

variable {G : σ → Prop}

theorem Preserves.pure (a : α) : Preserves G (pure a : EStateM ε σ α) := fun _ h => h

theorem Preserves.throw (e : ε) : Preserves G (throw e : EStateM ε σ α) := fun _ h => h

theorem Preserves.get : Preserves G (get : EStateM ε σ σ) := fun _ h => h

/-- An update preserves what was so after it only if it was so before. -/
theorem Preserves.modify {f : σ → σ} (h : ∀ s, G (f s) → G s) : Preserves G (modify f : EStateM ε σ PUnit) := h

/-- A sequence preserves what its parts do. -/
theorem Preserves.bind {m : EStateM ε σ β} {f : β → EStateM ε σ α} (hm : Preserves G m) (hf : ∀ b, Preserves G (f b)) :
    Preserves G (m >>= f) := by
  intro s h
  have hs := hm s
  simp only [Bind.bind, EStateM.bind] at h
  cases he : m s with
  | ok b t =>
    rw [he] at h hs
    exact hs (hf b t h)
  | error e t =>
    rw [he] at h hs
    exact hs h

/-- What holds at the end of two computations holds at the end of the first. -/
theorem Preserves.of_bind {m : EStateM ε σ β} {f : β → EStateM ε σ α} (hf : ∀ b, Preserves G (f b))
    (h : G (endState ((m >>= f) s))) : G (endState (m s)) := by
  simp only [Bind.bind, EStateM.bind] at h
  cases he : m s with
  | ok b t =>
    rw [he] at h
    exact hf b t h
  | error e t =>
    rw [he] at h
    exact h

/-- A choice preserves what both branches do. -/
theorem Preserves.ite {c : Prop} [Decidable c] {m n : EStateM ε σ α} (hm : Preserves G m) (hn : Preserves G n) :
    Preserves G (if c then m else n) := by
  split
  · exact hm
  · exact hn

theorem Provided.pure {a : α} (h : G s → Q a s) : Provided G (pure a : EStateM ε σ α) s Q := by
  intro hG
  exact ⟨a, s, rfl, h hG⟩

/-- After an update, the assumption is about the new state. -/
theorem Provided.modify {f : σ → σ} {Q : PUnit → σ → Prop} (h : G (f s) → Q ⟨⟩ (f s)) :
    Provided G (modify f : EStateM ε σ PUnit) s Q := by
  intro hG
  exact ⟨⟨⟩, f s, rfl, h hG⟩

/-- In a sequence the assumption is handed back from the second part, which preserves it, to the first one. -/
theorem Provided.bind {m : EStateM ε σ β} {f : β → EStateM ε σ α} {P : β → σ → Prop} (hm : Provided G m s P)
    (hf : ∀ b t, P b t → Provided G (f b) t Q) (hp : ∀ b, Preserves G (f b)) : Provided G (m >>= f) s Q := by
  intro hG
  simp only [Provided, Bind.bind, EStateM.bind] at hG hm ⊢
  cases he : m s with
  | ok b t =>
    rw [he] at hG hm
    obtain ⟨b', t', hb, hP⟩ := hm (hp b t hG)
    cases hb
    exact hf b t hP hG
  | error e t =>
    rw [he] at hG hm
    obtain ⟨b', t', hb, -⟩ := hm hG
    cases hb

/-- What is shown under the assumption can be weakened. -/
theorem Provided.mono {m : EStateM ε σ α} {P : α → σ → Prop} (h : Provided G m s P) (hPQ : ∀ a t, P a t → Q a t) :
    Provided G m s Q := by
  intro hG
  obtain ⟨a, t, he, hP⟩ := h hG
  exact ⟨a, t, he, hPQ a t hP⟩

end Provided

/-! ## Computations that keep a predicate -/

/-- `m` started in a state with `P` ends in one, whether it returns or throws. -/
def Maintains (P : σ → Prop) (m : EStateM ε σ α) : Prop := ∀ s, P s → Runs m s (fun _ t => P t) fun _ t => P t

section Maintains

variable {P : σ → Prop}

theorem Maintains.pure (a : α) : Maintains P (pure a : EStateM ε σ α) := fun _ h => h

theorem Maintains.throw (e : ε) : Maintains P (throw e : EStateM ε σ α) := fun _ h => h

/-- An update maintains what it leads from states to states with. -/
theorem Maintains.modify {f : σ → σ} (h : ∀ s, P s → P (f s)) : Maintains P (modify f : EStateM ε σ PUnit) := h

/-- A sequence maintains what its parts do. -/
theorem Maintains.bind {m : EStateM ε σ β} {f : β → EStateM ε σ α} (hm : Maintains P m) (hf : ∀ b, Maintains P (f b)) :
    Maintains P (m >>= f) := by
  intro s hs
  rw [runs_bind]
  exact (hm s hs).mono (fun b t ht => hf b t ht) fun _ _ ht => ht

/-- What is computed after `get` may depend on the state having `P`. -/
theorem Maintains.get_bind {f : σ → EStateM ε σ α} (hf : ∀ s, P s → Runs (f s) s (fun _ t => P t) fun _ t => P t) :
    Maintains P (get >>= f) := by
  intro s hs
  rw [runs_bind, runs_get]
  exact hf s hs

/-- What holds however a computation ends holds of its last state. -/
theorem Runs.endState {m : EStateM ε σ α} (h : Runs m s (fun _ t => P t) fun _ t => P t) : P (endState (m s)) := by
  unfold Runs at h
  cases he : m s with
  | ok a t => rw [he] at h; exact h
  | error e t => rw [he] at h; exact h

end Maintains

/-! ## Recursions that are cut off

A recursion without a bound of its own is given so many levels, and raises an exception of its own where they run out. With more levels
it ends in the same way where it was not cut off. -/

/-- Where `m` is not cut off with `e`, `m'` ends in the same way. -/
def Refines (e : ε) (m m' : EStateM ε σ α) : Prop := ∀ s, raised (m s) = some e ∨ m' s = m s

section Refines

variable {e : ε}

/-- Every computation refines itself. -/
theorem Refines.refl (m : EStateM ε σ α) : Refines e m m := fun _ => .inr rfl

/-- Refinements can be put together. -/
theorem Refines.trans {m m' m'' : EStateM ε σ α} (h : Refines e m m') (h' : Refines e m' m'') : Refines e m m'' := by
  intro s
  rcases h s with hs | hs
  · exact .inl hs
  · rw [← hs]
    exact h' s

/-- What is not cut off is not cut off with more levels. -/
theorem Refines.eq {m m' : EStateM ε σ α} (h : Refines e m m') (hm : raised (m s) ≠ some e) : m' s = m s := (h s).resolve_left hm

/-- What the first part of a sequence throws, the sequence throws. -/
theorem raised_bind {m : EStateM ε σ β} (f : β → EStateM ε σ α) (h : raised (m s) = some e) : raised ((m >>= f) s) = some e := by
  simp only [bind, EStateM.bind]
  cases hm : m s with
  | ok b t =>
    rw [hm] at h
    cases h
  | error e' t =>
    rw [hm] at h
    exact h

/-- If the first part returns, the sequence throws what the second one does. -/
theorem raised_bind_of_ok {m : EStateM ε σ β} (f : β → EStateM ε σ α) {b : β} {t : σ} (h : m s = .ok b t) :
    raised ((m >>= f) s) = raised (f b t) := by
  simp only [Bind.bind, EStateM.bind, h]

/-- The parts of a sequence can be refined one by one. -/
theorem Refines.bind {m m' : EStateM ε σ β} {f f' : β → EStateM ε σ α} (h : Refines e m m') (hf : ∀ b, Refines e (f b) (f' b)) :
    Refines e (m >>= f) (m' >>= f') := by
  intro s
  rcases h s with hs | hs
  · exact .inl (raised_bind f hs)
  · simp only [Bind.bind, EStateM.bind, hs]
    cases m s with
    | ok b t => exact hf b t
    | error e' t => exact .inr rfl

/-- The computations for more and more levels. -/
theorem refines_of_le {m : Nat → EStateM ε σ α} (h : ∀ n, Refines e (m n) (m (n + 1))) {n k : Nat} (hnk : n ≤ k) :
    Refines e (m n) (m k) := by
  induction hnk with
  | refl => exact .refl _
  | step _ ih => exact ih.trans (h _)

/-- Where one of them returns, the others return the same or are cut off. -/
theorem levels_ok {m : Nat → EStateM ε σ α} (h : ∀ n, Refines e (m n) (m (n + 1))) {n k : Nat} {a : α} {t : σ} (hk : m k s = .ok a t) :
    raised (m n s) = some e ∨ m n s = .ok a t := by
  rcases Nat.le_total n k with hle | hle
  · rcases refines_of_le h hle s with hs | hs
    · exact .inl hs
    · exact .inr (hs.symm.trans hk)
  · have hs : raised (m k s) ≠ some e := by
      rw [hk]
      exact nofun
    exact .inr (((refines_of_le h hle).eq hs).trans hk)

/-- Two of them that are not cut off end in the same way. -/
theorem levels_eq {m : Nat → EStateM ε σ α} (h : ∀ n, Refines e (m n) (m (n + 1))) {n k : Nat} (hn : raised (m n s) ≠ some e)
    (hk : raised (m k s) ≠ some e) : m n s = m k s := by
  rcases Nat.le_total n k with hle | hle
  · exact ((refines_of_le h hle).eq hn).symm
  · exact (refines_of_le h hle).eq hk

end Refines

/-!
## Computations that may throw

The inversion of a bind, once, so that a computation is taken apart with `obtain`.
-/

/-- A bind returns when both parts do. -/
theorem bind_eq_ok {ε α β : Type} {x : Except ε α} {f : α → Except ε β} {r : β} :
    (x >>= f) = .ok r ↔ ∃ a, x = .ok a ∧ f a = .ok r := by
  cases x with
  | error e => simp [bind, Except.bind]
  | ok a => simp [bind, Except.bind]

theorem ok_bind {ε α β : Type} (a : α) (f : α → Except ε β) : ((.ok a : Except ε α) >>= f) = f a := rfl

theorem error_bind {ε α β : Type} (e : ε) (f : α → Except ε β) : ((.error e : Except ε α) >>= f) = .error e := rfl

theorem pure_eq_ok {ε α : Type} (a : α) : (pure a : Except ε α) = .ok a := rfl

theorem throw_eq_error {ε α : Type} (e : ε) : (throw e : Except ε α) = .error e := rfl

/-- A loop over a list whose turns all return. -/
theorem mapM_eq_ok {ε α β : Type} {f : α → Except ε β} {g : α → β} {l : List α} (h : ∀ a ∈ l, f a = .ok (g a)) :
    l.mapM f = .ok (l.map g) := by
  induction l with
  | nil => rfl
  | cons a l ih =>
    rw [List.mapM_cons, h a List.mem_cons_self, ok_bind, ih fun b hb => h b (List.mem_cons_of_mem a hb)]
    rfl

/-- Each result of a loop over a list is that of its turn. -/
theorem forall₂_of_mapM {ε α β : Type} {f : α → Except ε β} {l : List α} {r : List β} (h : l.mapM f = .ok r) :
    List.Forall₂ (fun a b => f a = .ok b) l r := by
  induction l generalizing r with
  | nil =>
    cases h
    exact .nil
  | cons a l ih =>
    simp only [List.mapM_cons, bind_eq_ok] at h
    obtain ⟨b, hb, r', hr', h⟩ := h
    cases h
    exact .cons hb (ih hr')

/-- What each turn of a loop keeps, where the turns are numbered, holds after the loop. -/
theorem foldlM_invariant {ε σ α : Type} {f : σ → α → Except ε σ} {P : Nat → σ → Prop} {l : List α} {s s' : σ} (h₀ : P 0 s)
    (hstep : ∀ k x t t', l[k]? = some x → P k t → f t x = .ok t' → P (k + 1) t') (h : l.foldlM f s = .ok s') : P l.length s' := by
  induction l generalizing s P with
  | nil =>
    cases h
    exact h₀
  | cons x l ih =>
    rw [List.foldlM_cons, bind_eq_ok] at h
    obtain ⟨t, ht, h⟩ := h
    exact ih (P := fun k => P (k + 1)) (hstep 0 x s t rfl h₀ ht) (fun k y u u' hy => hstep (k + 1) y u u' hy) h

end Webthree
