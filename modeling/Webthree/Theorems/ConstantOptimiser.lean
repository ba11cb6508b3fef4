import Webthree.Lemmas.ConstantOptimiser

/-!
# Computed constants are right unless a power of two is missing

The search for a routine comes to an end, and what it finds pushes one value and does nothing else. The value is the constant exactly
if no negative low part is taken with a high part that is not zero, for the constant itself or for a part that is computed in turn.
-/

namespace Webthree

namespace ComputeMethod

open Machine

variable {P : ConstantParams} {find : U256 → Option (List AssemblyItem)}

/-! ## The cost of a value -/

/-- The gas of the routine for the parts, where `cost` says what the parts themselves cost. -/
def partsCost (P : ConstantParams) (cost : U256 → Nat) (p : Parts) : Nat :=
  (if p.lowerPart ≠ 0 then cost (BitVec.ofInt 256 |p.lowerPart|) else 0) +
    gasNeeded P [.push (BitVec.ofNat 256 p.bits), .push 2, .ofInstruction .EXP] +
    (if p.upperPart ≠ 1 ∧ p.upperPart ≠ 0 then cost p.upperPart + gasNeeded P [.ofInstruction .MUL] else 0) +
    if 0 < p.lowerPart then gasNeeded P [.ofInstruction .ADD] else if p.lowerPart < 0 then gasNeeded P [.ofInstruction .SUB] else 0

/-- The parts at a position are kept if they cost less than what has been kept up to now. -/
def keep (P : ConstantParams) (cost : U256 → Nat) (value : U256) (s : Nat × Option Parts) (bits : Nat) : Nat × Option Parts :=
  match partsAt value bits with
  | none => s
  | some p => if partsCost P cost p < s.1 then (partsCost P cost p, some p) else s

/-- The least cost, and the parts that are cheaper to compute with than all others and than the literal, if there are any. -/
def kept (P : ConstantParams) (cost : U256 → Nat) (value : U256) : Nat × Option Parts :=
  positions.foldl (keep P cost value) (gasNeeded P [.push value], none)

/-- What a value costs: that of the literal, of the negated value and a `NOT`, or of the cheapest parts. -/
def cost (P : ConstantParams) : Nat → U256 → Nat
  | 0, _ => 0
  | n + 1, value =>
    if value < 0x10000 then gasNeeded P [.push value]
    else if bytesRequired (~~~value).toNat < bytesRequired value.toNat then cost P n (~~~value) + gasNeeded P [.ofInstruction .NOT]
    else (kept P (cost P n) value).1

/-- No negative low part is taken with a high part that is not zero: not in the cheapest parts of the value, nor in those of its parts. -/
def Exact (P : ConstantParams) : Nat → U256 → Prop
  | 0, _ => True
  | n + 1, value =>
    if value < 0x10000 then True
    else if bytesRequired (~~~value).toNat < bytesRequired value.toNat then Exact P n (~~~value)
    else
      match (kept P (cost P n) value).2 with
      | none => True
      | some p => ¬(p.lowerPart < 0 ∧ p.upperPart ≠ 0) ∧ (p.lowerPart ≠ 0 → Exact P n (BitVec.ofInt 256 |p.lowerPart|)) ∧
          (p.upperPart ≠ 1 ∧ p.upperPart ≠ 0 → Exact P n p.upperPart)

/-! ## The parts that are kept -/

/-- The gas of two routines, one after the other, is the sum. -/
theorem gasNeeded_append (r r' : List AssemblyItem) : gasNeeded P (r ++ r') = gasNeeded P r + gasNeeded P r' := by
  simp only [gasNeeded, combineGas, List.count_append, List.map_append, List.sum_append]
  ring

theorem gasNeeded_nil : gasNeeded P [] = 0 := by
  simp [gasNeeded, combineGas]

/-- The routine for the parts costs what they do, if those for the parts themselves do. -/
theorem gasNeeded_newRoutine {cost : U256 → Nat} (hfind : ∀ x r, find x = some r → gasNeeded P r = cost x) {p : Parts}
    {r : List AssemblyItem} (hr : newRoutine find p = some r) : gasNeeded P r = partsCost P cost p := by
  obtain ⟨lower, hlower, hr⟩ := Option.bind_eq_some_iff.mp hr
  obtain ⟨upper, hupper, hr⟩ := Option.bind_eq_some_iff.mp hr
  cases hr
  have hl : gasNeeded P lower = if p.lowerPart ≠ 0 then cost (BitVec.ofInt 256 |p.lowerPart|) else 0 := by
    rw [lowerRoutine] at hlower
    split
    · rename_i hz
      rw [if_pos hz] at hlower
      exact hfind _ _ hlower
    · rename_i hz
      rw [if_neg hz] at hlower
      cases hlower
      exact gasNeeded_nil
  have hu : gasNeeded P upper = if p.upperPart ≠ 1 ∧ p.upperPart ≠ 0 then cost p.upperPart + gasNeeded P [.ofInstruction .MUL] else 0 := by
    rw [upperRoutine] at hupper
    split
    · rename_i hz
      rw [if_pos hz] at hupper
      obtain ⟨u, hu, rfl⟩ := Option.map_eq_some_iff.mp hupper
      rw [gasNeeded_append, hfind _ _ hu]
    · rename_i hz
      rw [if_neg hz] at hupper
      cases hupper
      exact gasNeeded_nil
  rw [partsCost, gasNeeded_append, gasNeeded_append, gasNeeded_append, hl, hu]
  congr 1
  split
  · rfl
  · split
    · rfl
    · exact gasNeeded_nil

/-- The best routine costs the least, and is the one before or is for parts at one of the positions. -/
theorem foldl_keep {cost : U256 → Nat} (hfind : ∀ x r, find x = some r → gasNeeded P r = cost x) {value : U256} {l : List Nat}
    {best b : Best} (hbest : best.gas = gasNeeded P best.routine) (h : l.foldlM (tryAt P find value) best = some b) (k : Option Parts) :
    ((l.foldl (keep P cost value) (best.gas, k)).1 = gasNeeded P b.routine) ∧
      ((l.foldl (keep P cost value) (best.gas, k)).2 = k ∧ b = best ∨
        ∃ bits ∈ l, ∃ p, (l.foldl (keep P cost value) (best.gas, k)).2 = some p ∧ partsAt value bits = some p ∧
          newRoutine find p = some b.routine) := by
  induction l generalizing best k with
  | nil =>
    cases h
    exact ⟨hbest, .inl ⟨rfl, rfl⟩⟩
  | cons bits l ih =>
    obtain ⟨best₁, h₁, hrest⟩ := Option.bind_eq_some_iff.mp (List.foldlM_cons.symm.trans h)
    rw [List.foldl_cons]
    have hskip : best₁ = best → keep P cost value (best.gas, k) bits = (best.gas, k) →
        ((l.foldl (keep P cost value) (keep P cost value (best.gas, k) bits)).1 = gasNeeded P b.routine) ∧
          ((l.foldl (keep P cost value) (keep P cost value (best.gas, k) bits)).2 = k ∧ b = best ∨
            ∃ bits' ∈ bits :: l, ∃ p, (l.foldl (keep P cost value) (keep P cost value (best.gas, k) bits)).2 = some p ∧
              partsAt value bits' = some p ∧ newRoutine find p = some b.routine) := by
      rintro rfl hkeep
      rw [hkeep]
      obtain ⟨hb, hcases⟩ := ih hbest hrest k
      refine ⟨hb, hcases.imp id ?_⟩
      rintro ⟨bits', hmem, hp⟩
      exact ⟨bits', List.mem_cons_of_mem _ hmem, hp⟩
    rw [tryAt] at h₁
    cases hp : partsAt value bits with
    | none =>
      rw [hp] at h₁
      cases h₁
      exact hskip rfl (by rw [keep, hp])
    | some p =>
      rw [hp] at h₁
      obtain ⟨routine, hr, h₁⟩ := Option.bind_eq_some_iff.mp h₁
      cases h₁
      have hcost := gasNeeded_newRoutine hfind hr
      by_cases hgas : gasNeeded P routine < best.gas
      · have hkeep : keep P cost value (best.gas, k) bits = (gasNeeded P routine, some p) := by
          rw [keep, hp, hcost]
          rw [hcost] at hgas
          exact if_pos hgas
        rw [hkeep]
        rw [if_pos hgas] at hrest
        obtain ⟨hb, hcases⟩ := ih rfl hrest (some p)
        refine ⟨hb, .inr ?_⟩
        rcases hcases with ⟨hk, rfl⟩ | ⟨bits', hmem, hp'⟩
        · exact ⟨bits, List.mem_cons_self, p, hk, hp, hr⟩
        · exact ⟨bits', List.mem_cons_of_mem _ hmem, hp'⟩
      · refine hskip (if_neg hgas) ?_
        rw [keep, hp]
        rw [hcost] at hgas
        exact if_neg hgas

/-- The gas of the routine that is found is the cost of the value. -/
theorem gasNeeded_findRepresentation (n : Nat) : ∀ x r, findRepresentation P n x = some r → gasNeeded P r = cost P n x := by
  induction n with
  | zero =>
    intro x r h
    cases h
  | succ n ih =>
    intro x r h
    rw [findRepresentation] at h
    rw [cost]
    split
    · rename_i hsmall
      rw [if_pos hsmall] at h
      cases h
      rfl
    · rename_i hsmall
      rw [if_neg hsmall] at h
      split
      · rename_i hnegated
        rw [if_pos hnegated] at h
        obtain ⟨u, hu, rfl⟩ := Option.map_eq_some_iff.mp h
        rw [gasNeeded_append, ih _ _ hu]
      · rename_i hnegated
        rw [if_neg hnegated] at h
        obtain ⟨b, hb, rfl⟩ := Option.map_eq_some_iff.mp h
        exact (foldl_keep ih rfl hb none).1.symm

theorem mem_positions {bits : Nat} (h : bits ∈ positions) : 9 ≤ bits ∧ bits ≤ 255 := by
  rw [positions, List.mem_reverse, List.mem_range'_1] at h
  omega

/-! ## What the routine for the parts pushes -/

theorem Near.congr {x y : Int} {c c' : Prop} (h : Near x y c) (hc : c ↔ c') : Near x y c' := ⟨h.dvd, h.iff.trans hc, h.ge, h.le⟩

theorem toNat_ofInt_abs {p : Parts} {bits : Nat} (hhigh : bits ≤ 255) (h : 256 * |p.lowerPart| < 2 ^ bits) :
    ((BitVec.ofInt 256 |p.lowerPart|).toNat : Int) = |p.lowerPart| ∧ (BitVec.ofInt 256 |p.lowerPart|).toNat < 2 ^ 248 := by
  have hpow : (2 ^ bits : Int) ≤ 2 ^ 255 := pow_le_pow_right₀ (by norm_num) hhigh
  have hnonneg := abs_nonneg p.lowerPart
  rw [BitVec.toNat_ofInt]
  generalize |p.lowerPart| = L at *
  omega

/-- The high part is small beside the value. -/
theorem upperPart_le {v : U256} {bits : Nat} {p : Parts} (hlow : 9 ≤ bits) (hhigh : bits ≤ 255) (hp : partsAt v bits = some p) :
    p.upperPart.toNat * 2 ^ 9 ≤ v.toNat := by
  obtain ⟨-, hsmall, -, hcases⟩ := partsAt_cases hlow hhigh hp
  have hpow : (2 : Int) ^ 9 ≤ 2 ^ bits := pow_le_pow_right₀ (by norm_num) hlow
  have hmul : (p.upperPart.toNat : Int) * 2 ^ 9 ≤ p.upperPart.toNat * 2 ^ bits := mul_le_mul_of_nonneg_left hpow (by omega)
  have habs := abs_le.mp (le_refl |p.lowerPart|)
  rcases hcases with ⟨h0, -, hval⟩ | ⟨-, -, hval⟩
  · omega
  · rw [add_mul] at hval
    omega

/-- The routine for the parts, if those for the parts that it uses come near them. -/
theorem near_of_parts {S : U256 → Prop} (ih : ∀ x : U256, x.toNat < 2 ^ 248 → ∀ r, find x = some r →
      ∃ y : Int, Pushes r (BitVec.ofInt 256 y) ∧ Near x.toNat y (S x)) {v : U256} {bits : Nat} {p : Parts} {r : List AssemblyItem}
    (hlow : 9 ≤ bits) (hhigh : bits ≤ 255) (hp : partsAt v bits = some p) (hr : newRoutine find p = some r) :
    ∃ y : Int, Pushes r (BitVec.ofInt 256 y) ∧ Near v.toNat y (¬(p.lowerPart < 0 ∧ p.upperPart ≠ 0) ∧
      (p.lowerPart ≠ 0 → S (BitVec.ofInt 256 |p.lowerPart|)) ∧ (p.upperPart ≠ 1 ∧ p.upperPart ≠ 0 → S p.upperPart)) := by
  obtain ⟨hbits, hsmall, -, hcases⟩ := partsAt_cases hlow hhigh hp
  obtain ⟨hlower, hlower'⟩ := toNat_ofInt_abs hhigh hsmall
  have hdvd : (512 : Int) ∣ 2 ^ bits := pow_dvd_pow 2 hlow
  have hnonneg := abs_nonneg p.lowerPart
  -- the low part
  obtain ⟨yl, hzero, hl, hnear⟩ : ∃ yl : Int, (p.lowerPart = 0 → yl = 0) ∧
      (p.lowerPart ≠ 0 → ∀ l, find (BitVec.ofInt 256 |p.lowerPart|) = some l → Pushes l (BitVec.ofInt 256 yl)) ∧
      Near |p.lowerPart| yl (p.lowerPart ≠ 0 → S (BitVec.ofInt 256 |p.lowerPart|)) := by
    by_cases hz : p.lowerPart = 0
    · refine ⟨0, fun _ => rfl, fun h => absurd hz h, ?_⟩
      rw [hz, abs_zero]
      exact (near_self 0).congr ⟨fun _ h => absurd rfl h, fun _ => trivial⟩
    · obtain ⟨lower, hfind, -⟩ := Option.bind_eq_some_iff.mp hr
      rw [lowerRoutine, if_pos hz] at hfind
      obtain ⟨yl, hpush, hnear⟩ := ih _ hlower' lower hfind
      refine ⟨yl, fun h => absurd h hz, fun _ l hl => ?_, ?_⟩
      · cases hfind.symm.trans hl
        exact hpush
      · rw [hlower] at hnear
        exact hnear.congr ⟨fun h _ => h, fun h => h hz⟩
  -- the high part
  have hupper' : p.upperPart.toNat < 2 ^ 248 := by
    have hle := upperPart_le hlow hhigh hp
    have hv := v.isLt
    omega
  obtain ⟨yu, hone, hu, hnear'⟩ : ∃ yu : Int, (p.upperPart = 1 ∨ p.upperPart = 0 → yu = 1) ∧
      (p.upperPart ≠ 1 ∧ p.upperPart ≠ 0 → ∀ u, find p.upperPart = some u → Pushes u (BitVec.ofInt 256 yu)) ∧
      (p.upperPart ≠ 0 → Near p.upperPart.toNat yu (p.upperPart ≠ 1 ∧ p.upperPart ≠ 0 → S p.upperPart)) := by
    by_cases hz : p.upperPart ≠ 1 ∧ p.upperPart ≠ 0
    · obtain ⟨lower, -, hr⟩ := Option.bind_eq_some_iff.mp hr
      obtain ⟨upper, hfind, -⟩ := Option.bind_eq_some_iff.mp hr
      rw [upperRoutine, if_pos hz] at hfind
      obtain ⟨u, hfind, -⟩ := Option.map_eq_some_iff.mp hfind
      obtain ⟨yu, hpush, hnear⟩ := ih _ hupper' u hfind
      refine ⟨yu, fun h => absurd h (by tauto), fun _ u' hu' => ?_, fun _ => hnear.congr ⟨fun h _ => h, fun h => h hz⟩⟩
      cases hfind.symm.trans hu'
      exact hpush
    · refine ⟨1, fun _ => rfl, fun h => absurd h hz, fun h0 => ?_⟩
      have h1 : p.upperPart = 1 := by tauto
      have hnat : ((p.upperPart.toNat : Nat) : Int) = 1 := by rw [h1]; rfl
      rw [hnat]
      exact (near_self 1).congr ⟨fun _ h => absurd h hz, fun _ => trivial⟩
  refine ⟨p.combine yu yl, newRoutine_pushes (by omega) hr hzero hl hone hu, ?_⟩
  rw [Parts.combine, hbits]
  have hvacuous : p.upperPart = 0 → p.upperPart ≠ 1 ∧ p.upperPart ≠ 0 → S p.upperPart := fun h0 h => absurd h0 h.2
  generalize (p.lowerPart ≠ 0 → S (BitVec.ofInt 256 |p.lowerPart|)) = cl at hnear ⊢
  generalize (p.upperPart ≠ 1 ∧ p.upperPart ≠ 0 → S p.upperPart) = cu at hnear' hvacuous ⊢
  rcases hcases with ⟨h0, hu₀, hval⟩ | ⟨hneg, hne, hval⟩
  · have hu0 : p.upperPart ≠ 0 := by
      intro h
      rw [h] at hu₀
      exact absurd hu₀ (by decide)
    rw [abs_of_nonneg h0] at hnear hsmall
    rw [if_neg (not_lt.mpr h0), hval]
    exact (near_add (hnear' hu0) hnear (by omega) h0 hsmall hdvd).congr ⟨fun h => ⟨fun h' => absurd h'.1 (not_lt.mpr h0), h⟩, And.right⟩
  · rw [if_pos hneg]
    have habs : p.lowerPart = -|p.lowerPart| := by rw [abs_of_neg hneg, neg_neg]
    rw [habs, ← sub_eq_add_neg] at hval
    rw [hval]
    by_cases hu0 : p.upperPart = 0
    · have hnat : ((p.upperPart.toNat : Nat) : Int) = 0 := by rw [hu0]; rfl
      rw [hnat, zero_add, one_mul, hone (Or.inr hu0), one_mul]
      exact (near_sub_power hnear hnonneg hsmall).congr ⟨fun h => ⟨fun h' => h'.2 hu0, h, hvacuous hu0⟩, fun h => h.2.1⟩
    · have hu₀ : (1 : Int) ≤ p.upperPart.toNat := by
        have : p.upperPart.toNat ≠ 0 := fun h => hu0 (BitVec.eq_of_toNat_eq h)
        omega
      exact (near_sub (hnear' hu0) hnear hu₀ hnonneg hsmall hdvd).congr ⟨False.elim, fun h => h.1 ⟨hneg, hu0⟩⟩

/-! ## The search -/

theorem pushes_literal (v : U256) : Pushes [.push v] (BitVec.ofInt 256 v.toNat) := by
  rw [BitVec.ofInt_natCast, BitVec.ofNat_toNat, BitVec.setWidth_eq]
  exact pushes_push v

/-- What the loop finds comes near the value, if the routines for parts do. -/
theorem near_of_positions {n : Nat} (ih : ∀ x : U256, x.toNat < 2 ^ 248 → ∀ r, findRepresentation P n x = some r →
      ∃ y : Int, Pushes r (BitVec.ofInt 256 y) ∧ Near x.toNat y (Exact P n x)) {v : U256} (hv : ¬v < 0x10000)
    (hn : ¬bytesRequired (~~~v).toNat < bytesRequired v.toNat) {r : List AssemblyItem} (h : findRepresentation P (n + 1) v = some r) :
    ∃ y : Int, Pushes r (BitVec.ofInt 256 y) ∧ Near v.toNat y (Exact P (n + 1) v) := by
  rw [findRepresentation, if_neg hv, if_neg hn] at h
  obtain ⟨b, hb, rfl⟩ := Option.map_eq_some_iff.mp h
  rw [Exact, if_neg hv, if_neg hn, kept]
  obtain ⟨-, ⟨hkept, rfl⟩ | ⟨bits, hmem, p, hkept, hp, hr⟩⟩ := foldl_keep (gasNeeded_findRepresentation n) rfl hb none
  · rw [hkept]
    exact ⟨v.toNat, pushes_literal v, near_self _⟩
  · rw [hkept]
    obtain ⟨hlow, hhigh⟩ := mem_positions hmem
    exact near_of_parts ih hlow hhigh hp hr

theorem not_negated {x : U256} (hx : x.toNat < 2 ^ 248) : ¬bytesRequired (~~~x).toNat < bytesRequired x.toNat := by
  intro h
  have hle : bytesRequired x.toNat ≤ 31 := (bytesRequired_le_iff _ _).mpr hx
  have hlt : (~~~x).toNat < 256 ^ 31 := (bytesRequired_le_iff _ _).mp (by omega)
  rw [BitVec.toNat_not] at hlt
  omega

/-- Of a part, and of any value that is not negated, the routine comes near. -/
theorem near_findRepresentation (n : Nat) : ∀ x : U256, x.toNat < 2 ^ 248 → ∀ r, findRepresentation P n x = some r →
    ∃ y : Int, Pushes r (BitVec.ofInt 256 y) ∧ Near x.toNat y (Exact P n x) := by
  induction n with
  | zero => exact fun x _ r h => by cases h
  | succ n ih =>
    intro x hx r h
    by_cases hv : x < 0x10000
    · rw [findRepresentation, if_pos hv] at h
      cases h
      rw [Exact, if_pos hv]
      exact ⟨x.toNat, pushes_literal x, near_self _⟩
    · exact near_of_positions ih hv (not_negated hx) h

/-- A value that comes near is the value only if it is so without regard to overflow. -/
theorem Near.ofInt_eq_iff {v : U256} {y : Int} {c : Prop} (h : Near v.toNat y c) : BitVec.ofInt 256 y = v ↔ c := by
  rw [← h.iff]
  have hv := v.isLt
  obtain ⟨hge, hle⟩ := h.small (by omega)
  rw [← BitVec.toNat_inj, BitVec.toNat_ofInt]
  omega

/-- What the routine for a value pushes is the value exactly under the condition. -/
theorem pushes_findRepresentation {n : Nat} {v : U256} {r : List AssemblyItem} (h : findRepresentation P n v = some r) :
    ∃ x, Pushes r x ∧ (x = v ↔ Exact P n v) := by
  cases n with
  | zero => cases h
  | succ n =>
    by_cases hv : v < 0x10000
    · rw [findRepresentation, if_pos hv] at h
      cases h
      rw [Exact, if_pos hv]
      exact ⟨v, pushes_push v, by simp⟩
    · by_cases hn : bytesRequired (~~~v).toNat < bytesRequired v.toNat
      · rw [findRepresentation, if_neg hv, if_pos hn] at h
        rw [Exact, if_neg hv, if_pos hn]
        obtain ⟨r, hr, rfl⟩ := Option.map_eq_some_iff.mp h
        have hsmall : (~~~v).toNat < 2 ^ 248 := by
          have hle : bytesRequired v.toNat ≤ 32 := (bytesRequired_le_iff _ _).mpr v.isLt
          exact (bytesRequired_le_iff _ 31).mp (by omega)
        obtain ⟨y, hpush, hnear⟩ := near_findRepresentation n _ hsmall r hr
        refine ⟨_, hpush.not, ?_⟩
        rw [← hnear.ofInt_eq_iff]
        constructor
        · rintro rfl
          rw [BitVec.not_not]
        · intro heq
          rw [heq, BitVec.not_not]
      · obtain ⟨y, hpush, hnear⟩ := near_of_positions (near_findRepresentation n) hv hn h
        exact ⟨_, hpush, hnear.ofInt_eq_iff⟩

theorem exists_foldlM {α β : Type} {f : β → α → Option β} {l : List α} (h : ∀ a ∈ l, ∀ b, ∃ b', f b a = some b') (b : β) :
    ∃ b', l.foldlM f b = some b' := by
  induction l generalizing b with
  | nil => exact ⟨b, rfl⟩
  | cons a l ih =>
    obtain ⟨b', hb'⟩ := h a List.mem_cons_self b
    obtain ⟨b'', hb''⟩ := ih (fun a ha => h a (List.mem_cons_of_mem _ ha)) b'
    refine ⟨b'', ?_⟩
    rw [List.foldlM_cons, hb']
    exact hb''

/-- The recursion ends: each value that is looked for is shorter by a bit. -/
theorem exists_findRepresentation (n : Nat) : ∀ x : U256, x.toNat < 2 ^ n → ∃ r, findRepresentation P (n + 1) x = some r := by
  induction n with
  | zero =>
    intro x hx
    have hzero : x = 0 := BitVec.eq_of_toNat_eq (by simpa using hx)
    rw [findRepresentation, hzero, if_pos (by decide)]
    exact ⟨_, rfl⟩
  | succ n ih =>
    intro x hx
    rw [findRepresentation]
    by_cases hv : x < 0x10000
    · rw [if_pos hv]
      exact ⟨_, rfl⟩
    rw [if_neg hv]
    by_cases hn : bytesRequired (~~~x).toNat < bytesRequired x.toNat
    · rw [if_pos hn]
      have hshort : (~~~x).toNat < 2 ^ n := by
        -- the value has a byte more than its negation
        have hle : (~~~x).toNat < 256 ^ (bytesRequired x.toNat - 1) := (bytesRequired_le_iff _ _).mp (by omega)
        have hge : 256 ^ (bytesRequired x.toNat - 1) ≤ x.toNat := by
          by_contra hlt
          have := (bytesRequired_le_iff x.toNat (bytesRequired x.toNat - 1)).mpr (by omega)
          omega
        have hpow : (2 : Nat) ^ (8 * (bytesRequired x.toNat - 1)) < 2 ^ (n + 1) := by
          rw [pow_mul]
          exact lt_of_le_of_lt hge hx
        have hexp := (Nat.pow_lt_pow_iff_right (by decide)).mp hpow
        calc (~~~x).toNat < 256 ^ (bytesRequired x.toNat - 1) := hle
          _ = 2 ^ (8 * (bytesRequired x.toNat - 1)) := (pow_mul 2 8 _).symm
          _ ≤ 2 ^ n := Nat.pow_le_pow_right (by decide) (by omega)
      obtain ⟨r, hr⟩ := ih _ hshort
      rw [hr]
      exact ⟨_, rfl⟩
    · rw [if_neg hn]
      suffices hfold : ∃ b, positions.foldlM (tryAt P (findRepresentation P (n + 1)) x) ⟨[.push x], gasNeeded P [.push x]⟩ = some b by
        obtain ⟨b, hb⟩ := hfold
        refine ⟨b.routine, ?_⟩
        dsimp only
        rw [hb]
        rfl
      refine exists_foldlM (fun bits hmem best => ?_) _
      obtain ⟨hlow, hhigh⟩ := mem_positions hmem
      rw [tryAt]
      cases hp : partsAt x bits with
      | none => exact ⟨_, rfl⟩
      | some p =>
        obtain ⟨-, hsmall, hge, hcases⟩ := partsAt_cases hlow hhigh hp
        obtain ⟨hlower, -⟩ := toNat_ofInt_abs hhigh hsmall
        have hx' : (x.toNat : Int) < 2 * 2 ^ n := by
          rw [← pow_succ']
          exact_mod_cast hx
        have hlow' : ∃ l, lowerRoutine (findRepresentation P (n + 1)) p = some l := by
          rw [lowerRoutine]
          by_cases hz : p.lowerPart ≠ 0
          · rw [if_pos hz]
            refine ih _ ?_
            have : ((BitVec.ofInt 256 |p.lowerPart|).toNat : Int) < 2 ^ n := by omega
            exact_mod_cast this
          · rw [if_neg hz]
            exact ⟨_, rfl⟩
        have hupp' : ∃ u, upperRoutine (findRepresentation P (n + 1)) p = some u := by
          rw [upperRoutine]
          by_cases hz : p.upperPart ≠ 1 ∧ p.upperPart ≠ 0
          · rw [if_pos hz]
            have hle := upperPart_le hlow hhigh hp
            obtain ⟨u, hu⟩ := ih p.upperPart (by omega)
            rw [hu]
            exact ⟨_, rfl⟩
          · rw [if_neg hz]
            exact ⟨_, rfl⟩
        obtain ⟨lower, hl⟩ := hlow'
        obtain ⟨upper, hu⟩ := hupp'
        dsimp only
        rw [newRoutine, hl, hu]
        exact ⟨_, rfl⟩

/-- For every constant the search ends with a routine, and the routine pushes the constant, on any machine and any stack, and does
nothing else, exactly if no negative low part has been taken with a high part that is not zero. -/
theorem findRepresentation_exact (P : ConstantParams) (value : U256) : ∃ routine, findRepresentation P 257 value = some routine ∧
    ∀ (ω : Type) (M : Machine ω) (stack : List StackValue) (world : ω),
      M.withArithmetic.run routine routine.length ⟨0, stack, world⟩ = .running ⟨routine.length, .word value :: stack, world⟩ ↔
        Exact P 257 value := by
  obtain ⟨routine, hr⟩ := exists_findRepresentation (P := P) 256 value value.isLt
  obtain ⟨x, hpush, hx⟩ := pushes_findRepresentation hr
  refine ⟨routine, hr, fun ω M stack world => ?_⟩
  have hrun := hpush ω M [] [] stack world
  rw [List.nil_append, List.append_nil, List.length_nil, Nat.zero_add] at hrun
  rw [← hx]
  constructor
  · intro h
    have heq := hrun.symm.trans h
    injection heq with heq
    injection heq with _ hstack
    injection (List.cons.inj hstack).1
  · rintro rfl
    exact hrun

/-- For a value one below an odd multiple of a power of two, the routine takes the power of two one time less. -/
theorem findRepresentation_not_exact : ∃ routine, findRepresentation ⟨true, 1, 1⟩ 257 (0x1235 * 2 ^ 200 - 1) = some routine ∧
    ∀ (ω : Type) (M : Machine ω) (stack : List StackValue) (world : ω),
      M.withArithmetic.run routine routine.length ⟨0, stack, world⟩ =
        .running ⟨routine.length, .word (0x1234 * 2 ^ 200 - 1) :: stack, world⟩ := by
  have hpush : Pushes [.push 1, .push 200, .push 2, .ofInstruction .EXP, .push 0x1234, .ofInstruction .MUL, .ofInstruction .SUB]
      (BitVec.ofInt 256 (Parts.combine ⟨200, 0x1234, -1⟩ 0x1234 1)) :=
    @newRoutine_pushes (fun x => some [.push x]) _ _ (by decide) rfl _ _ (by decide) (fun _ l hl => Option.some.inj hl ▸ pushes_push _)
      (by decide) fun _ u hu => Option.some.inj hu ▸ pushes_push _
  refine ⟨[.push 1, .push 200, .push 2, .ofInstruction .EXP, .push 0x1234, .ofInstruction .MUL, .ofInstruction .SUB],
    by decide +kernel, fun ω M stack world => ?_⟩
  have hrun := hpush ω M [] [] stack world
  rw [show BitVec.ofInt 256 (Parts.combine ⟨200, 0x1234, -1⟩ 0x1234 1) = 0x1234 * 2 ^ 200 - 1 by decide +kernel] at hrun
  exact hrun

end ComputeMethod

end Webthree
