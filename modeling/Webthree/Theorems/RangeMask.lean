import Webthree.Lemmas.RangeMask

/-!
# Range masks denote sets

After any operations a mask denotes the set that they denote, unless it has been subtracted from itself.
-/

namespace Webthree

namespace RangeMask

/-- The set that an operand stands for, of a mask with a set. -/
def Operand.denote (S : Set Nat) : Operand → Set Nat
  | .item i => {i}
  | .range r => Set.Ico r.1 r.2
  | .mask x => x.itemSet
  | .self => S

/-- The set that is left by an operation. -/
def Op.denote (all : Nat × Nat) (S : Set Nat) : Op → Set Nat
  | .unionWith x => S ∪ x.denote S
  | .subtract x => S \ x.denote S
  | .invert => Set.Ico all.1 all.2 \ S
  | .lowest k => lowestOf k S
  | .clear => ∅

/-- An operand in a ground range. -/
def Operand.Inside (all : Nat × Nat) : Operand → Prop
  | .item i => i ∈ Set.Ico all.1 all.2
  | .range r => Set.Ico r.1 r.2 ⊆ Set.Ico all.1 all.2
  | .mask x => x.Proper ∧ all.1 ≤ x.m_all.1 ∧ x.m_all.2 ≤ all.2
  | .self => True

def Op.Inside (all : Nat × Nat) : Op → Prop
  | .unionWith x => x.Inside all
  | .subtract x => x.Inside all
  | _ => True

/-- A mask that denotes a set, in its ground range. -/
structure Denotes (m : RangeMask) (all : Nat × Nat) (S : Set Nat) : Prop where
  all_eq : m.m_all = all
  items_eq : m.itemSet = S
  contains_iff : ∀ i, m.contains i = true ↔ i ∈ S
  full_iff : m.full = true ↔ S = Set.Ico all.1 all.2
  empty_iff : m.empty = true ↔ S = ∅
  size_eq : m.size = S.ncard
  firstOut_least : IsLeast {x | all.1 ≤ x ∧ x ∉ S} m.firstOut
  lastIn_greatest : S.Nonempty → IsGreatest S m.lastIn
  iterate_eq : ∃ l, m.iterate = .ok l ∧ l.Pairwise (· < ·) ∧ ∀ x, x ∈ l ↔ x ∈ S
  /-- The stored ranges are not empty, and in the ground range. -/
  ranges_in : ∀ r ∈ m.m_ranges, all.1 ≤ r.1 ∧ r.1 < r.2 ∧ r.2 ≤ all.2
  /-- They are in order, and neither overlap nor touch. -/
  ranges_apart : m.m_ranges.Pairwise fun r s => r.2 < s.1

theorem Proper.denotes {m : RangeMask} (h : m.Proper) : m.Denotes m.m_all m.itemSet where
  all_eq := rfl
  items_eq := rfl
  contains_iff := RangeMask.contains_iff h
  full_iff := RangeMask.full_iff h
  empty_iff := RangeMask.empty_iff h
  size_eq := RangeMask.size_eq h
  firstOut_least := firstOut_spec h
  lastIn_greatest := lastIn_spec h
  iterate_eq := iterate_spec h
  ranges_in r hr := ⟨(h.within r hr).1, h.apart.1 r hr, (h.within r hr).2⟩
  ranges_apart := h.apart.2

theorem unionWith_spec {m : RangeMask} (h : m.Proper) {x : Operand} (hx : x.Inside m.m_all) :
    ∃ m', m.unionWith x = .ok m' ∧ m'.m_all = m.m_all ∧ m'.Proper ∧ m'.itemSet = m.itemSet ∪ x.denote m.itemSet := by
  cases x with
  | item i =>
    have hone : Set.Ico i (i + 1) = {i} := by
      refine Set.ext fun y => ?_
      simp only [Set.mem_Ico, Set.mem_singleton_iff]
      omega
    have hsubset : Set.Ico i (i + 1) ⊆ Set.Ico m.m_all.1 m.m_all.2 := by
      rw [hone]
      exact Set.singleton_subset_iff.mpr hx
    obtain ⟨m', hrun, hall, h', hitems⟩ := unionRange_spec h (r := (i, i + 1)) hsubset
    exact ⟨m', hrun, hall, h', hitems.trans (by rw [hone]; rfl)⟩
  | range r => exact unionRange_spec h hx
  | mask x =>
    obtain ⟨hproper, hfirst, hlast⟩ := hx
    exact unionMask_spec h hfirst hlast (hproper.subset.trans (Set.Ico_subset_Ico hfirst hlast))
  | self => exact unionMask_spec h (le_refl _) (le_refl _) h.subset

/-- What is subtracted is the operand, or for the mask itself its complement. -/
theorem subtract_spec {m : RangeMask} (h : m.Proper) {x : Operand} (hx : x.Inside m.m_all) :
    ∃ m', m.subtract x = .ok m' ∧ m'.m_all = m.m_all ∧ m'.Proper ∧ m'.itemSet = m.itemSet \ x.denote m.inverted.itemSet := by
  obtain ⟨hall₁, h₁, hitems₁⟩ := inverted_spec h
  obtain ⟨m₂, hrun, hall₂, h₂, hitems₂⟩ := unionWith_spec h₁ (x := x) (by rwa [hall₁])
  obtain ⟨hall₃, h₃, hitems₃⟩ := inverted_spec h₂
  refine ⟨m₂.inverted, by rw [subtract, hrun]; rfl, by rw [hall₃, hall₂, hall₁], h₃, ?_⟩
  have hsubset := h.subset
  rw [hitems₃, hitems₂, hall₂, hall₁]
  refine Set.ext fun y => ?_
  have hy := @hsubset y
  have hinverted : y ∈ m.inverted.itemSet ↔ y ∈ Set.Ico m.m_all.1 m.m_all.2 ∧ y ∉ m.itemSet := by rw [hitems₁, Set.mem_sdiff]
  simp only [Set.mem_sdiff, Set.mem_union, hinverted]
  tauto

/-- Whatever is subtracted is taken away, if it is not the mask itself, or that is empty. -/
theorem apply_spec {m : RangeMask} (h : m.Proper) {op : Op} (hop : op.Inside m.m_all) :
    ∃ m', m.apply op = .ok m' ∧ m'.m_all = m.m_all ∧ m'.Proper ∧
      ((op ≠ .subtract .self ∨ m.itemSet = ∅) → m'.itemSet = op.denote m.m_all m.itemSet) := by
  cases op with
  | unionWith x =>
    obtain ⟨m', hrun, hall, h', hitems⟩ := unionWith_spec h hop
    exact ⟨m', hrun, hall, h', fun _ => hitems⟩
  | subtract x =>
    obtain ⟨m', hrun, hall, h', hitems⟩ := subtract_spec h hop
    refine ⟨m', hrun, hall, h', fun hself => ?_⟩
    rw [hitems]
    cases x with
    | self =>
      have hempty := hself.resolve_left fun hne => hne rfl
      rw [Op.denote, hempty, Set.empty_sdiff, Set.empty_sdiff]
    | item i => rfl
    | range r => rfl
    | mask x => rfl
  | invert =>
    obtain ⟨hall, h', hitems⟩ := inverted_spec h
    exact ⟨m.inverted, rfl, hall, h', fun _ => hitems⟩
  | lowest k =>
    obtain ⟨hall, h', hitems⟩ := lowest_spec h k
    exact ⟨m.lowest k, rfl, hall, h', fun _ => hitems⟩
  | clear => exact ⟨m.clear, rfl, rfl, ⟨h.ground, Ranges.apart_nil, fun r hr => absurd hr List.not_mem_nil⟩, fun _ => Ranges.items_nil⟩

/-- The masks that operations make of an empty one, each with the set that the operations denote. Which operations are carried out on a
mask of a set is limited further. -/
inductive Run (all : Nat × Nat) (limit : Op → Set Nat → Prop) : RangeMask → Set Nat → Prop
  | new : Run all limit (new all) ∅
  | apply {m m' : RangeMask} {S : Set Nat} (op : Op) : Run all limit m S → op.Inside all → limit op S → m.apply op = .ok m' →
      Run all limit m' (op.denote all S)

/-- Nothing is subtracted from itself, unless it is empty. -/
def NotSelf (op : Op) (S : Set Nat) : Prop := op ≠ .subtract .self ∨ S = ∅

/-- After any operations of which none subtracts a mask from itself, the mask denotes the set that they denote; and each operation in
the ground range is carried out. -/
theorem run_denotes {all : Nat × Nat} (hall : all.1 ≤ all.2) {m : RangeMask} {S : Set Nat} (h : Run all NotSelf m S) :
    m.Denotes all S ∧ ∀ op : Op, op.Inside all → ∃ m', m.apply op = .ok m' := by
  have hinvariant : m.m_all = all ∧ m.Proper ∧ m.itemSet = S := by
    induction h with
    | new => exact ⟨rfl, ⟨hall, Ranges.apart_nil, fun r hr => absurd hr List.not_mem_nil⟩, Ranges.items_nil⟩
    | apply op _ hop hlimit hrun ih =>
      obtain ⟨rfl, hproper, rfl⟩ := ih
      obtain ⟨m', hrun', hall', hproper', hitems⟩ := apply_spec hproper hop
      rw [hrun, Except.ok.injEq] at hrun'
      subst hrun'
      exact ⟨hall', hproper', hitems hlimit⟩
  obtain ⟨rfl, hproper, rfl⟩ := hinvariant
  refine ⟨hproper.denotes, fun op hop => ?_⟩
  obtain ⟨m', hrun, -⟩ := apply_spec hproper hop
  exact ⟨m', hrun⟩

/-- Items 2 and 4, from the range of 2 to 4 without 3. -/
theorem run_denotes_sample : (⟨(0, 10), [(2, 3), (4, 5)]⟩ : RangeMask).Denotes (0, 10) ((∅ ∪ Set.Ico 2 5) \ {3}) := by
  have hunion : Run (0, 10) NotSelf ⟨(0, 10), [(2, 5)]⟩ (∅ ∪ Set.Ico 2 5) :=
    .apply (.unionWith (.range (2, 5))) .new (Set.Ico_subset_Ico (by decide) (by decide)) (.inl (by decide)) (by decide)
  have hsubtract : Run (0, 10) NotSelf ⟨(0, 10), [(2, 3), (4, 5)]⟩ ((∅ ∪ Set.Ico 2 5) \ {3}) :=
    .apply (.subtract (.item 3)) hunion ⟨by decide, by decide⟩ (.inl (by decide)) (by decide)
  exact (run_denotes (by decide) hsubtract).1

/-- A mask that is subtracted from itself is as it was. -/
theorem subtract_self {m : RangeMask} (h : m.Proper) : ∃ m', m.subtract .self = .ok m' ∧ m'.itemSet = m.itemSet := by
  obtain ⟨m', hrun, -, -, hitems⟩ := subtract_spec h (x := .self) trivial
  refine ⟨m', hrun, hitems.trans ?_⟩
  obtain ⟨-, -, hinverted⟩ := inverted_spec h
  rw [Operand.denote, hinverted]
  refine Set.ext fun x => ?_
  simp only [Set.mem_sdiff]
  tauto

/-- The item 3 is left when its mask is subtracted from itself. -/
theorem not_run_denotes : ¬ ∀ (all : Nat × Nat) (m : RangeMask) (S : Set Nat), all.1 ≤ all.2 → Run all (fun _ _ => True) m S →
    m.Denotes all S := by
  intro h
  have hunion : Run (0, 10) (fun _ _ => True) ⟨(0, 10), [(3, 4)]⟩ (∅ ∪ {3}) :=
    .apply (.unionWith (.item 3)) .new ⟨by decide, by decide⟩ trivial (by decide)
  have hsubtract : Run (0, 10) (fun _ _ => True) ⟨(0, 10), [(3, 4)]⟩ ((∅ ∪ {3}) \ (∅ ∪ {3})) :=
    .apply (.subtract .self) hunion trivial trivial (by decide)
  have hcontains := ((h _ _ _ (by decide) hsubtract).contains_iff 3).mp (by decide)
  exact hcontains.2 hcontains.1

end RangeMask

end Webthree
