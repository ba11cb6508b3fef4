import Webthree.Asm.Machine
import Webthree.Evm.Arithmetic
import Webthree.Lemmas.Rules
import Mathlib.Algebra.Order.Ring.Abs
import Mathlib.Tactic.NormNum
import Mathlib.Tactic.Ring
import Webthree.Asm.ConstantOptimiser

/-!
# Computed constants

Items without jumps and tags, as far as they do arithmetic: what they make of the top of the stack, wherever they are in the code.

What a routine for the parts of a value pushes, and by how much it misses the value. A negative low part belongs to the next higher
multiple of the power of two, but the routine takes the high part as it is.
-/

namespace Webthree

/-! ## Items in a straight line -/

namespace Machine

variable {ω : Type}

/-- A machine in which the arithmetic instructions do what they should. -/
def withArithmetic (M : Machine ω) : Machine ω :=
  { M with
    exec := fun i args world =>
      match arith i args with
      | some v => some ([v], world)
      | none => M.exec i args world }

variable {M : Machine ω}

theorem run_add (items : List AssemblyItem) (n k : Nat) (s : MachineState ω) :
    M.run items (n + k) s =
      match M.run items n s with
      | .running s => M.run items k s
      | o => o := by
  induction n generalizing s with
  | zero => rw [Nat.zero_add, run]
  | succ n ih =>
    rw [Nat.succ_add, run, run]
    cases M.step items s with
    | running s => exact ih s
    | stopped world => rfl
    | failed => rfl
    | misused => rfl

/-- Wherever the items are, they turn one top of the stack into the other. -/
def Straight (M : Machine ω) (items : List AssemblyItem) (top top' : List StackValue) : Prop :=
  ∀ pre post rest world, M.run (pre ++ items ++ post) items.length ⟨pre.length, top ++ rest, world⟩ =
    .running ⟨pre.length + items.length, top' ++ rest, world⟩

theorem Straight.nil (top : List StackValue) : Straight M [] top top := fun _ _ _ _ => rfl

theorem Straight.append {a b : List AssemblyItem} {top top₁ top₂ : List StackValue} (h : Straight M a top top₁)
    (h' : Straight M b top₁ top₂) : Straight M (a ++ b) top top₂ := by
  intro pre post rest world
  have ha := h pre (b ++ post) rest world
  have hb := h' (pre ++ a) post rest world
  rw [List.length_append, run_add]
  simp only [List.append_assoc, List.length_append, Nat.add_assoc] at ha hb ⊢
  rw [ha]
  exact hb

/-- What is beneath the top stays there. -/
theorem Straight.frame {items : List AssemblyItem} {top top' : List StackValue} (h : Straight M items top top')
    (below : List StackValue) : Straight M items (top ++ below) (top' ++ below) := by
  intro pre post rest world
  have h := h pre post (below ++ rest) world
  rwa [← List.append_assoc, ← List.append_assoc] at h

/-- What items make of the top of the stack is one thing. -/
theorem Straight.unique {items : List AssemblyItem} {top : List StackValue} {v v' : StackValue} (h : Straight M items top [v])
    (h' : Straight M items top [v']) (world : ω) : v = v' := by
  have heq := (h [] [] [] world).symm.trans (h' [] [] [] world)
  injection heq with heq
  injection heq with _ hstack
  exact (List.cons.inj hstack).1

/-- One item that is not a tag. -/
theorem straight_single {item : AssemblyItem} {top top' : List StackValue} (ht : item.type ≠ .Tag)
    (h : ∀ items k rest world, M.perform items k item (top ++ rest) world = .running ⟨k + 1, top' ++ rest, world⟩) :
    Straight M [item] top top' := by
  intro pre post rest world
  have hfetch : fetch ((pre ++ [item] ++ post).drop pre.length) pre.length = some (pre.length, item) := by
    rw [List.append_assoc, List.drop_left, List.singleton_append, fetch, if_neg ht]
  have hstep : M.step (pre ++ [item] ++ post) ⟨pre.length, top ++ rest, world⟩ = .running ⟨pre.length + 1, top' ++ rest, world⟩ := by
    rw [step, hfetch]
    exact h _ _ _ _
  rw [List.length_singleton, run, hstep]
  rfl

theorem straight_push (v : U256) : Straight M [.push v] [] [.word v] := straight_single nofun fun _ _ _ _ => rfl

theorem words_append_words (args : List U256) : words (args.map .word) = some args := by
  induction args with
  | nil => rfl
  | cons a args ih => rw [List.map_cons, words, ih, Option.map_some]

/-- An arithmetic instruction on as many arguments as it takes. -/
theorem straight_arith {i : Instruction} (args : List U256) {v : U256} (h : arith i args = some v)
    (hargs : (instructionInfo i).args = args.length) :
    Straight M.withArithmetic [.ofInstruction i] (args.map .word) [.word v] := by
  refine straight_single nofun fun items k rest world => ?_
  obtain ⟨o, ho, -⟩ := Option.bind_eq_some_iff.mp h
  have hperform : ∀ stack, M.withArithmetic.perform items k (.ofInstruction i) stack world =
      M.withArithmetic.ordinary k i stack world := fun stack => by
    have hinstr : (AssemblyItem.ofInstruction i).instruction = i := instruction_ofInstruction (by rw [ho]; rfl)
    change M.withArithmetic.operate items k (AssemblyItem.ofInstruction i).instruction stack world = _
    rw [hinstr]
    cases i <;> first | rfl | cases ho
  have hlen : (args.map StackValue.word).length = args.length := List.length_map _
  have htake : (args.map StackValue.word ++ rest).take args.length = args.map .word := by
    rw [← hlen, List.take_left]
  have hdrop : (args.map StackValue.word ++ rest).drop args.length = rest := by
    rw [← hlen, List.drop_left]
  have hexec : M.withArithmetic.exec i args world = some ([v], world) := by
    rw [withArithmetic]
    dsimp only
    rw [h]
  have hstop : ¬(i = .STOP ∨ i = .RETURN ∨ i = .SUICIDE) := by
    rintro (rfl | rfl | rfl) <;> cases ho
  rw [hperform, ordinary, hargs, if_neg (by rw [List.length_append, hlen]; omega), htake, words_append_words]
  dsimp only
  rw [hexec]
  dsimp only
  rw [if_neg hstop, hdrop]
  rfl

end Machine

/-! ## Computed constants -/

theorem powm_eq (e : Nat) : ∀ b m, 0 < m → powm b e m = b ^ e % m := by
  induction e using Nat.strongRecOn with
  | _ e ih =>
    intro b m hm
    rw [powm]
    by_cases he : e = 0
    · rw [if_pos he, he, pow_zero]
    · have hhalf : (b * b % m) ^ (e / 2) % m = b ^ (2 * (e / 2)) % m := by
        rw [← Nat.pow_mod, pow_mul, pow_two]
      rw [if_neg he, ih (e / 2) (by omega) _ m hm, hhalf]
      dsimp only
      by_cases hodd : e % 2 = 1
      · have hsplit : b ^ e = b * b ^ (2 * (e / 2)) := by
          rw [← pow_succ']
          congr 1
          omega
        rw [if_pos hodd, hsplit, Nat.mul_mod_mod]
      · rw [if_neg hodd]
        congr 2
        omega

namespace ComputeMethod

open Machine

/-! ## Parts -/

/-- The two forms of a value that is taken apart: with a low part after a one, or with a negative one after a zero. -/
theorem partsAt_cases {v : U256} {bits : Nat} {p : Parts} (hlow : 9 ≤ bits) (hhigh : bits ≤ 255) (h : partsAt v bits = some p) :
    p.bits = bits ∧ 256 * |p.lowerPart| < 2 ^ bits ∧ (2 ^ bits : Int) ≤ 2 * v.toNat ∧
      (0 ≤ p.lowerPart ∧ 1 ≤ p.upperPart.toNat ∧ (v.toNat : Int) = p.upperPart.toNat * 2 ^ bits + p.lowerPart ∨
        p.lowerPart < 0 ∧ p.upperPart ≠ 1 ∧ (v.toNat : Int) = (p.upperPart.toNat + 1) * 2 ^ bits + p.lowerPart) := by
  have hpow : 2 ^ bits = 256 * 2 ^ (bits - 8) := by
    rw [show (256 : Nat) = 2 ^ 8 from rfl, ← pow_add]
    congr 1
    omega
  have hlt : 2 ^ bits < 2 ^ 256 := Nat.pow_lt_pow_right (by omega) (by omega)
  have htwo : ((1 : U256) <<< bits).toNat = 2 ^ bits := by
    rw [BitVec.toNat_shiftLeft, show (1 : U256).toNat = 1 from rfl, Nat.one_shiftLeft, Nat.mod_eq_of_lt hlt]
  have hmask : (v &&& ((1 : U256) <<< bits - 1)).toNat = v.toNat % 2 ^ bits := by
    have hone : ((1 : U256) <<< bits - 1).toNat = 2 ^ bits - 1 := by
      rw [BitVec.toNat_sub_of_le, htwo]
      · rfl
      · rw [BitVec.le_def, htwo]
        exact Nat.one_le_two_pow
    rw [BitVec.toNat_and, hone, Nat.and_two_pow_sub_one_eq_mod]
  have hgap : unsigned (v >>> (bits - 8)).toNat &&& 0x1ff = v.toNat / 2 ^ (bits - 8) % 512 := by
    rw [unsigned, BitVec.toNat_ushiftRight, Nat.shiftRight_eq_div_pow]
    have := Nat.and_two_pow_sub_one_eq_mod (v.toNat / 2 ^ (bits - 8) % 2 ^ 32) 9
    rw [show (0x1ff : Nat) = 2 ^ 9 - 1 from rfl, this]
    omega
  have hupper : (v >>> bits).toNat = v.toNat / 2 ^ bits := by rw [BitVec.toNat_ushiftRight, Nat.shiftRight_eq_div_pow]
  have hcheck : ((1 : U256) <<< bits >>> 8).toNat = 2 ^ (bits - 8) := by
    rw [BitVec.toNat_ushiftRight, htwo, Nat.shiftRight_eq_div_pow, hpow, Nat.mul_div_cancel_left _ (by decide)]
  have hpos : 0 < 2 ^ (bits - 8) := Nat.two_pow_pos _
  rw [partsAt, hgap] at h
  by_cases hdetect : v.toNat / 2 ^ (bits - 8) % 512 ≠ 0xff ∧ v.toNat / 2 ^ (bits - 8) % 512 ≠ 0x100
  · rw [if_pos hdetect] at h
    cases h
  rw [if_neg hdetect] at h
  dsimp only at h
  rw [hmask, htwo, hcheck] at h
  have hpowZ : (2 : Int) ^ bits = 256 * (2 ^ (bits - 8) : Nat) := by exact_mod_cast hpow
  rw [hpow] at h hupper
  rw [hpowZ]
  generalize v.toNat = x at *
  generalize 2 ^ (bits - 8) = C at *
  have hmod : x % (256 * C) = x / C % 256 * C + x % C := by
    rw [Nat.mul_comm 256 C, Nat.mod_mul]
    ring
  have hdiv : x / (256 * C) = x / C / 256 := by rw [Nat.mul_comm, Nat.div_div_eq_div_mul]
  have hr : x % C < C := Nat.mod_lt _ hpos
  have hx : x = x / C * C + x % C := (Nat.div_add_mod' x C).symm
  rw [hdiv] at hupper
  rw [hmod] at h
  generalize x % C = r at *
  generalize x / C = q at *
  rcases (by omega : q % 512 = 255 ∨ q % 512 = 256) with hq | hq
  · -- ones below a zero
    have hup : q / 256 = 2 * (q / 512) := by omega
    have hlo : q % 256 = 255 := by omega
    have hneg : (if |((256 * C : Nat) : Int) - (255 * C + r : Nat)| < (255 * C + r : Nat) then ((255 * C + r : Nat) : Int) - (256 * C : Nat)
        else (255 * C + r : Nat)) = (r : Int) - C := by
      rw [abs_of_nonneg (by omega), if_pos (by omega)]
      omega
    have habs : |(r : Int) - C| = C - r := by rw [abs_of_neg (by omega)]; omega
    rw [hlo, hneg, habs] at h
    by_cases hsmall : (C : Int) - r ≥ C
    · rw [if_pos hsmall] at h
      cases h
    rw [if_neg hsmall] at h
    cases h
    have hval : (x : Int) = (((v >>> bits).toNat : Int) + 1) * (256 * C) + (r - C) := by
      have hk : q = 512 * (q / 512) + 255 := by omega
      rw [hupper, hup, hx]
      generalize q / 512 = k at *
      subst hk
      push_cast
      ring
    refine ⟨rfl, ?_, ?_, Or.inr ⟨?_, ?_, hval⟩⟩
    · rw [habs]
      omega
    · have : 255 * C ≤ q * C := Nat.mul_le_mul_right _ (by omega)
      omega
    · dsimp only
      omega
    · intro hone
      dsimp only at hone
      rw [hone, hup] at hupper
      have : (1 : U256).toNat = 1 := rfl
      omega
  · -- zeros below a one
    have hup : q / 256 = 2 * (q / 512) + 1 := by omega
    have hlo : q % 256 = 0 := by omega
    have hplain : (if |((256 * C : Nat) : Int) - (0 * C + r : Nat)| < (0 * C + r : Nat) then ((0 * C + r : Nat) : Int) - (256 * C : Nat)
        else (0 * C + r : Nat)) = (r : Int) := by
      rw [abs_of_nonneg (by omega), if_neg (by omega)]
      omega
    rw [hlo, hplain, abs_of_nonneg (by omega : (0 : Int) ≤ r), if_neg (by omega)] at h
    cases h
    have hval : (x : Int) = ((v >>> bits).toNat : Int) * (256 * C) + r := by
      have hk : q = 512 * (q / 512) + 256 := by omega
      rw [hupper, hup, hx]
      generalize q / 512 = k at *
      subst hk
      push_cast
      ring
    refine ⟨rfl, ?_, ?_, Or.inl ⟨?_, ?_, hval⟩⟩
    · rw [abs_of_nonneg (by omega : (0 : Int) ≤ r)]
      omega
    · have : 256 * C ≤ q * C := Nat.mul_le_mul_right _ (by omega)
      omega
    · dsimp only
      omega
    · rw [hupper, hup]
      omega

/-! ## Routines -/

/-- On every machine the items push the value and do nothing else. -/
def Pushes (items : List AssemblyItem) (v : U256) : Prop :=
  ∀ (ω : Type) (M : Machine ω), Straight M.withArithmetic items [] [.word v]

theorem pushes_push (v : U256) : Pushes [.push v] v := fun _ _ => straight_push v

theorem Pushes.not {items : List AssemblyItem} {v : U256} (h : Pushes items v) :
    Pushes (items ++ [.ofInstruction .NOT]) (~~~v) := fun ω M => (h ω M).append (straight_arith [v] rfl rfl)

/-- The items take the value on the top of the stack to another. -/
theorem Pushes.append {a b : List AssemblyItem} {v v' : U256} (h : Pushes a v)
    (h' : ∀ (ω : Type) (M : Machine ω), Straight M.withArithmetic b [.word v] [.word v']) : Pushes (a ++ b) v' :=
  fun ω M => (h ω M).append (h' ω M)

theorem pushes_power (bits : Nat) (h : bits ≤ 255) :
    Pushes [.push (BitVec.ofNat 256 bits), .push 2, .ofInstruction .EXP] (BitVec.ofInt 256 (2 ^ bits)) := by
  intro ω M
  have htwo := (straight_push (M := M.withArithmetic) 2).frame [.word (BitVec.ofNat 256 bits)]
  have hexp : arith .EXP [2, BitVec.ofNat 256 bits] = some (BitVec.ofInt 256 (2 ^ bits)) := by
    have hbits : (BitVec.ofNat 256 bits).toNat = bits := by
      rw [BitVec.toNat_ofNat]
      omega
    have hval : (2 ^ bits : Int) = (2 ^ bits : Nat) := by push_cast; rfl
    change some (BitVec.ofNat 256 (powm (2 : U256).toNat (BitVec.ofNat 256 bits).toNat (2 ^ 256))) = _
    rw [hbits, powm_eq _ _ _ (by decide), hval, BitVec.ofInt_natCast, show (2 : U256).toNat = 2 from rfl]
    congr 1
    apply BitVec.eq_of_toNat_eq
    rw [BitVec.toNat_ofNat, BitVec.toNat_ofNat, Nat.mod_mod]
  exact ((straight_push (M := M.withArithmetic) _).append htwo).append (straight_arith [2, BitVec.ofNat 256 bits] hexp rfl)

/-- What a routine for the parts computes from what the routines for them do. -/
def Parts.combine (p : Parts) (upper lower : Int) : Int :=
  if p.lowerPart < 0 then upper * 2 ^ p.bits - lower else upper * 2 ^ p.bits + lower

/-- What stands for the high part in the routine takes the power of two to a multiple. -/
theorem straight_upper {find : U256 → Option (List AssemblyItem)} {p : Parts} {upper : List AssemblyItem} {yu : Int} (power : Int)
    (hupper : upperRoutine find p = some upper) (hone : p.upperPart = 1 ∨ p.upperPart = 0 → yu = 1)
    (hfind : p.upperPart ≠ 1 ∧ p.upperPart ≠ 0 → ∀ u, find p.upperPart = some u → Pushes u (BitVec.ofInt 256 yu)) (ω : Type)
    (M : Machine ω) : Straight M.withArithmetic upper [.word (BitVec.ofInt 256 power)] [.word (BitVec.ofInt 256 (yu * power))] := by
  rw [upperRoutine] at hupper
  by_cases hu : p.upperPart ≠ 1 ∧ p.upperPart ≠ 0
  · rw [if_pos hu] at hupper
    obtain ⟨u, hu', rfl⟩ := Option.map_eq_some_iff.mp hupper
    have hmul : arith .MUL [BitVec.ofInt 256 yu, BitVec.ofInt 256 power] = some (BitVec.ofInt 256 (yu * power)) := by
      rw [mul_comm, BitVec.ofInt_mul]
      rfl
    exact ((hfind hu u hu' ω M).frame [.word (BitVec.ofInt 256 power)]).append (straight_arith [_, _] hmul rfl)
  · rw [if_neg hu] at hupper
    cases hupper
    rw [hone (by tauto), one_mul]
    exact Straight.nil _

theorem newRoutine_pushes {find : U256 → Option (List AssemblyItem)} {p : Parts} {r : List AssemblyItem} (hbits : p.bits ≤ 255)
    (h : newRoutine find p = some r) {yu yl : Int} (hzero : p.lowerPart = 0 → yl = 0)
    (hlower : p.lowerPart ≠ 0 → ∀ l, find (BitVec.ofInt 256 |p.lowerPart|) = some l → Pushes l (BitVec.ofInt 256 yl))
    (hone : p.upperPart = 1 ∨ p.upperPart = 0 → yu = 1)
    (hfind : p.upperPart ≠ 1 ∧ p.upperPart ≠ 0 → ∀ u, find p.upperPart = some u → Pushes u (BitVec.ofInt 256 yu)) :
    Pushes r (BitVec.ofInt 256 (p.combine yu yl)) := by
  rw [newRoutine] at h
  obtain ⟨lower, hl, h⟩ := Option.bind_eq_some_iff.mp h
  obtain ⟨upper, hu, h⟩ := Option.bind_eq_some_iff.mp h
  cases h
  have hpower := pushes_power p.bits hbits
  have hupper := straight_upper (2 ^ p.bits) hu hone hfind
  rw [lowerRoutine] at hl
  by_cases hz : p.lowerPart = 0
  · rw [if_neg (not_not.mpr hz)] at hl
    cases hl
    rw [Parts.combine, hz, hzero hz, if_neg (lt_irrefl _), if_neg (lt_irrefl _), if_neg (lt_irrefl _), List.append_nil, List.nil_append,
      add_zero]
    exact hpower.append hupper
  · rw [if_pos hz] at hl
    intro ω M
    have hall := ((hlower hz lower hl ω M).append ((hpower ω M).frame [.word (BitVec.ofInt 256 yl)])).append
      ((hupper ω M).frame [.word (BitVec.ofInt 256 yl)])
    rcases lt_or_gt_of_ne hz with hneg | hpos
    · rw [Parts.combine, if_neg (not_lt_of_gt hneg), if_pos hneg, if_pos hneg]
      refine hall.append (straight_arith [_, _] ?_ rfl)
      rw [sub_eq_add_neg, BitVec.ofInt_add, BitVec.ofInt_neg, ← BitVec.sub_eq_add_neg]
      rfl
    · rw [Parts.combine, if_pos hpos, if_neg (not_lt_of_gt hpos)]
      refine hall.append (straight_arith [_, _] ?_ rfl)
      rw [add_comm, BitVec.ofInt_add]
      rfl

/-! ## How far a routine misses -/

/-- What is computed for a value is the value exactly under the condition, and otherwise not too far from it. -/
structure Near (x y : Int) (exact : Prop) : Prop where
  dvd : 512 ∣ x - y
  iff : x = y ↔ exact
  ge : x ≠ y → -x ≤ 4 * (x - y)
  le : x ≠ y → 4 * (x - y) ≤ 3 * x - 4

theorem near_self (x : Int) : Near x x True := ⟨by simp, by simp, fun h => absurd rfl h, fun h => absurd rfl h⟩

/-- A multiple of the power of two is missed by at least the power. -/
theorem le_abs_mul {d B : Int} (hd : d ≠ 0) (hB : 0 < B) : B ≤ |d * B| := by
  rw [abs_mul, abs_of_pos hB]
  exact le_mul_of_one_le_left hB.le (Int.one_le_abs hd)

/-- The error is small, whether there is one or not. -/
theorem Near.small {x y : Int} {c : Prop} (h : Near x y c) (hx : 0 ≤ x) : -x ≤ 4 * (x - y) ∧ 4 * (x - y) ≤ 3 * x := by
  by_cases heq : x = y
  · omega
  · have := h.ge heq
    have := h.le heq
    omega

theorem Near.missed_lt {x y B : Int} {c : Prop} (h : Near x y c) (hx : 0 ≤ x) (hB : x < B) : |x - y| < B := by
  obtain ⟨h₁, h₂⟩ := h.small hx
  rw [abs_lt]
  omega

/-- What the error of the high part contributes. -/
theorem Near.scaled {u yu B : Int} {c : Prop} (h : Near u yu c) (hB : 0 < B) (hne : u ≠ yu) :
    -(u * B) ≤ 4 * ((u - yu) * B) ∧ 4 * ((u - yu) * B) ≤ 3 * (u * B) - 4 * B := by
  have h₁ := mul_le_mul_of_nonneg_right (h.ge hne) hB.le
  have h₂ := mul_le_mul_of_nonneg_right (h.le hne) hB.le
  constructor
  · linarith only [h₁]
  · linarith only [h₂]

variable {u yu L yl B : Int} {cu cl : Prop}

/-- A low part that is added: the value is exact if both parts are. -/
theorem near_add (hu : Near u yu cu) (hl : Near L yl cl) (hu₀ : 1 ≤ u) (hL : 0 ≤ L) (hLB : 256 * L < B) (hB : 512 ∣ B) :
    Near (u * B + L) (yu * B + yl) (cl ∧ cu) := by
  have hpos : 0 < B := by omega
  have hdiff : u * B + L - (yu * B + yl) = (u - yu) * B + (L - yl) := by ring
  obtain ⟨hge, hle⟩ := hl.small hL
  have hUB : B ≤ u * B := le_mul_of_one_le_left hpos.le hu₀
  have hiff : u * B + L = yu * B + yl ↔ cl ∧ cu := by
    rw [← hl.iff, ← hu.iff, ← sub_eq_zero, hdiff]
    constructor
    · intro h0
      have hz : u - yu = 0 := by
        by_contra hne
        have hbig := le_abs_mul hne hpos
        have hsmall := hl.missed_lt hL (B := B) (by omega)
        rw [eq_neg_of_add_eq_zero_left h0, abs_neg] at hbig
        omega
      rw [hz, zero_mul, zero_add] at h0
      exact ⟨sub_eq_zero.mp h0, sub_eq_zero.mp hz⟩
    · rintro ⟨rfl, rfl⟩
      ring
  have hbound : u * B + L ≠ yu * B + yl → -(u * B + L) ≤ 4 * ((u - yu) * B + (L - yl)) ∧
      4 * ((u - yu) * B + (L - yl)) ≤ 3 * (u * B + L) - 4 := by
    intro hne
    by_cases heq : u = yu
    · rw [← heq, sub_self, zero_mul]
      omega
    · obtain ⟨h₁, h₂⟩ := hu.scaled hpos heq
      omega
  rw [← hdiff] at hbound
  refine ⟨?_, hiff, fun hne => (hbound hne).1, fun hne => (hbound hne).2⟩
  rw [hdiff]
  exact dvd_add (Dvd.dvd.mul_left hB _) hl.dvd

/-- A low part that is subtracted from the power of two itself. -/
theorem near_sub_power (hl : Near L yl cl) (hL : 0 ≤ L) (hLB : 256 * L < B) : Near (B - L) (B - yl) cl := by
  have hdiff : B - L - (B - yl) = -(L - yl) := by ring
  obtain ⟨hge, hle⟩ := hl.small hL
  refine ⟨?_, ?_, fun hne => ?_, fun hne => ?_⟩
  · rw [hdiff, Int.dvd_neg]
    exact hl.dvd
  · rw [← hl.iff]
    omega
  · rw [hdiff]
    omega
  · rw [hdiff]
    omega

/-- A low part that is subtracted from another multiple: one power of two is missing. -/
theorem near_sub (hu : Near u yu cu) (hl : Near L yl cl) (hu₀ : 1 ≤ u) (hL : 0 ≤ L) (hLB : 256 * L < B) (hB : 512 ∣ B) :
    Near ((u + 1) * B - L) (yu * B - yl) False := by
  have hpos : 0 < B := by omega
  have hdiff : (u + 1) * B - L - (yu * B - yl) = (u - yu + 1) * B - (L - yl) := by ring
  have hstep : (u - yu + 1) * B = (u - yu) * B + B := by ring
  have hval : (u + 1) * B = u * B + B := by ring
  obtain ⟨hge, hle⟩ := hl.small hL
  have hUB : B ≤ u * B := le_mul_of_one_le_left hpos.le hu₀
  have hbound : -((u + 1) * B - L) ≤ 4 * ((u - yu + 1) * B - (L - yl)) ∧
      4 * ((u - yu + 1) * B - (L - yl)) ≤ 3 * ((u + 1) * B - L) - 4 := by
    rw [hstep, hval]
    by_cases heq : u = yu
    · rw [← heq, sub_self, zero_mul]
      omega
    · obtain ⟨h₁, h₂⟩ := hu.scaled hpos heq
      omega
  rw [← hdiff] at hbound
  refine ⟨?_, ?_, fun _ => hbound.1, fun _ => hbound.2⟩
  · rw [hdiff]
    exact dvd_sub (Dvd.dvd.mul_left hB _) hl.dvd
  · rw [iff_false, ← sub_eq_zero, hdiff]
    intro h0
    have hd := hu.dvd
    have hbig := le_abs_mul (d := u - yu + 1) (by omega) hpos
    have hsmall := hl.missed_lt hL (B := B) (by omega)
    rw [sub_eq_zero.mp h0] at hbig
    omega

end ComputeMethod

end Webthree
