import Webthree.Chain.Elhash
import Webthree.Lib.EState

/-!
# What is proposed is accepted

The gas limit and the difficulty that Elhash gives to a child are those that it demands, and no operation on the way wraps. Between the
limit that is proposed and the window that is demanded there is one unit of gas.
-/

namespace Webthree

namespace Elhash

open WordOps

variable {A : WordOps 256} {E : Elhash} {bi parent : BlockHeader} {floorTarget : U256}

/-- Parameters and a parent within the bounds under which the rules agree. -/
structure Sane (E : Elhash) (parent : BlockHeader) : Prop where
  limits : E.minGasLimit.toNat ≤ E.maxGasLimit.toNat
  maxGasLimit : E.maxGasLimit.toNat < 2 ^ 250
  gasLimitBoundDivisor : 0 < E.gasLimitBoundDivisor.toNat
  difficultyBoundDivisor : 0 < E.difficultyBoundDivisor.toNat
  least : E.minGasLimit.toNat ≤ parent.gasLimit.toNat
  room : 4 ≤ parent.gasLimit.toNat / E.gasLimitBoundDivisor.toNat
  most : parent.gasLimit.toNat + parent.gasLimit.toNat / E.gasLimitBoundDivisor.toNat ≤ E.maxGasLimit.toNat
  gasUsed : parent.gasUsed.toNat ≤ parent.gasLimit.toNat
  number : parent.number.toNat < 2 ^ 32 - 1
  difficulty : parent.difficulty.toNat < 2 ^ 255
  timestamp : parent.timestamp.toNat + E.durationLimit.toNat < 2 ^ 255

/-- A limit strictly inside of the window around that of the parent, and within the limits of the chain. -/
structure InWindow (E : Elhash) (parent : BlockHeader) (gasLimit : U256) : Prop where
  above : parent.gasLimit.toNat - parent.gasLimit.toNat / E.gasLimitBoundDivisor.toNat < gasLimit.toNat
  below : gasLimit.toNat < parent.gasLimit.toNat + parent.gasLimit.toNat / E.gasLimitBoundDivisor.toNat
  least : E.minGasLimit.toNat ≤ gasLimit.toNat
  most : gasLimit.toNat ≤ E.maxGasLimit.toNat

/-! ## The gas limit -/

/-- The ends of the window do not wrap. -/
theorem toNat_window (h : Sane E parent) :
    (parent.gasLimit - parent.gasLimit / E.gasLimitBoundDivisor).toNat =
        parent.gasLimit.toNat - parent.gasLimit.toNat / E.gasLimitBoundDivisor.toNat ∧
      (parent.gasLimit + parent.gasLimit / E.gasLimitBoundDivisor).toNat =
        parent.gasLimit.toNat + parent.gasLimit.toNat / E.gasLimitBoundDivisor.toNat := by
  have hquot : (parent.gasLimit / E.gasLimitBoundDivisor).toNat = parent.gasLimit.toNat / E.gasLimitBoundDivisor.toNat :=
    BitVec.toNat_udiv
  have hq := Nat.div_le_self parent.gasLimit.toNat E.gasLimitBoundDivisor.toNat
  have hmost := h.most
  have hmax := h.maxGasLimit
  exact ⟨by rw [toNat_sub (by omega), hquot], by rw [toNat_add (by omega), hquot]⟩

/-- Six fifths of the gas used take no more than the window leaves. -/
theorem used_lt {l u d : Nat} (hd : 0 < d) (hul : u ≤ l) (hroom : 4 ≤ l / d) : u * 6 / 5 / d + 1 < 2 * (l / d) := by
  have hl : l < d * (l / d + 1) := by
    have hsplit := Nat.div_add_mod l d
    have hlt := Nat.mod_lt l hd
    rw [Nat.mul_add, Nat.mul_one]
    omega
  have hx : d * (u * 6 / 5 / d) ≤ u * 6 / 5 := Nat.mul_div_le _ _
  have hfive : 5 * (u * 6 / 5) ≤ u * 6 := Nat.mul_div_le _ _
  have hprod : d * (5 * (u * 6 / 5 / d)) < d * (6 * (l / d + 1)) := by
    calc d * (5 * (u * 6 / 5 / d)) = 5 * (d * (u * 6 / 5 / d)) := by ring
      _ ≤ 5 * (u * 6 / 5) := Nat.mul_le_mul_left 5 hx
      _ ≤ 6 * l := by omega
      _ < 6 * (d * (l / d + 1)) := by omega
      _ = d * (6 * (l / d + 1)) := by ring
  have hlt := Nat.lt_of_mul_lt_mul_left hprod
  omega

/-- What is proposed with a target for the floor, whatever way the operations are done that need no wrapping. -/
theorem childGasLimit_spec (h : Sane E parent) (hleast : E.minGasLimit.toNat ≤ floorTarget.toNat)
    (hmost : floorTarget.toNat ≤ E.maxGasLimit.toNat) (hfloor : floorTarget ≠ Invalid256) :
    ∃ g, (∀ A : WordOps 256, A.Exact → E.childGasLimit A parent floorTarget = .ok g) ∧ InWindow E parent g := by
  have hdiv : ∀ a : U256, WordOps.div a E.gasLimitBoundDivisor = .ok (a / E.gasLimitBoundDivisor) :=
    fun a => div_eq h.gasLimitBoundDivisor
  have hfive : ∀ a : U256, WordOps.div a 5 = .ok (a / 5) := fun a => div_eq (by decide)
  have hquot : (parent.gasLimit / E.gasLimitBoundDivisor).toNat = parent.gasLimit.toNat / E.gasLimitBoundDivisor.toNat :=
    BitVec.toNat_udiv
  have hq := Nat.div_le_self parent.gasLimit.toNat E.gasLimitBoundDivisor.toNat
  have hone : (1 : U256).toNat = 1 := rfl
  have hsix : (6 : U256).toNat = 6 := rfl
  have hfive' : (5 : U256).toNat = 5 := rfl
  have hmax := h.maxGasLimit
  have hroom := h.room
  have hmost' := h.most
  have hmin := h.least
  have hused := used_lt h.gasLimitBoundDivisor h.gasUsed hroom
  obtain ⟨hdiff, hsum⟩ := toNat_window h
  by_cases hlow : parent.gasLimit < floorTarget
  · have hlow' := BitVec.lt_def.mp hlow
    have hraised : (parent.gasLimit + parent.gasLimit / E.gasLimitBoundDivisor - 1).toNat =
        parent.gasLimit.toNat + parent.gasLimit.toNat / E.gasLimitBoundDivisor.toNat - 1 := by
      rw [toNat_sub (by omega), hsum, hone]
    refine ⟨if parent.gasLimit + parent.gasLimit / E.gasLimitBoundDivisor - 1 < floorTarget then
      parent.gasLimit + parent.gasLimit / E.gasLimitBoundDivisor - 1 else floorTarget, fun A hA => ?_, ?_⟩
    · rw [childGasLimit]
      simp only [if_neg hfloor, if_pos hlow, hdiv, ok_bind, pure_eq_ok]
      rw [hA.add _ _ (by omega), ok_bind, hA.sub _ _ (by omega), ok_bind]
    · split
      · rename_i hle
        have hle' := BitVec.lt_def.mp hle
        constructor <;> omega
      · rename_i hle
        have hle' : ¬ _ := fun hlt => hle (BitVec.lt_def.mpr hlt)
        constructor <;> omega
  · have hlow' : ¬ _ := fun hlt => hlow (BitVec.lt_def.mpr hlt)
    have hlowered : (parent.gasLimit - parent.gasLimit / E.gasLimitBoundDivisor + 1).toNat =
        parent.gasLimit.toNat - parent.gasLimit.toNat / E.gasLimitBoundDivisor.toNat + 1 := by
      rw [toNat_add (by omega), hdiff, hone]
    have hle := h.gasUsed
    have hsmall : parent.gasUsed.toNat * (6 : U256).toNat < 2 ^ 256 := by
      rw [hsix]
      omega
    have hmul : (parent.gasUsed * 6).toNat = parent.gasUsed.toNat * 6 := by
      rw [toNat_mul hsmall, hsix]
    have hshare : (parent.gasUsed * 6 / 5 / E.gasLimitBoundDivisor).toNat =
        parent.gasUsed.toNat * 6 / 5 / E.gasLimitBoundDivisor.toNat := by
      rw [BitVec.toNat_udiv, BitVec.toNat_udiv, hmul, hfive']
    have htotal : (parent.gasLimit - parent.gasLimit / E.gasLimitBoundDivisor + 1 +
        parent.gasUsed * 6 / 5 / E.gasLimitBoundDivisor).toNat =
        parent.gasLimit.toNat - parent.gasLimit.toNat / E.gasLimitBoundDivisor.toNat + 1 +
          parent.gasUsed.toNat * 6 / 5 / E.gasLimitBoundDivisor.toNat := by
      rw [toNat_add (by omega), hlowered, hshare]
    refine ⟨if floorTarget < parent.gasLimit - parent.gasLimit / E.gasLimitBoundDivisor + 1 +
      parent.gasUsed * 6 / 5 / E.gasLimitBoundDivisor then parent.gasLimit - parent.gasLimit / E.gasLimitBoundDivisor + 1 +
      parent.gasUsed * 6 / 5 / E.gasLimitBoundDivisor else floorTarget, fun A hA => ?_, ?_⟩
    · rw [childGasLimit]
      simp only [if_neg hfloor, if_neg hlow, hdiv, ok_bind, pure_eq_ok]
      rw [hA.sub _ _ (by omega), ok_bind, hA.add _ _ (by omega), ok_bind, hA.mul _ _ hsmall, ok_bind, hfive, ok_bind,
        hA.add _ _ (by omega), ok_bind]
    · split
      · rename_i hgt
        have hgt' := BitVec.lt_def.mp hgt
        constructor <;> omega
      · rename_i hgt
        have hgt' : ¬ _ := fun hlt => hgt (BitVec.lt_def.mpr hlt)
        constructor <;> omega

/-! ## The difficulty -/

/-- Whatever the block, the difficulty is at least the least one. -/
theorem minimumDifficulty_le {d : U256} (h : E.calculateDifficulty A bi parent = .ok d) : E.minimumDifficulty.toNat ≤ d.toNat := by
  have hmin := E.minimumDifficulty.isLt
  rw [calculateDifficulty] at h
  split at h
  · cases h
  · obtain ⟨target, -, h⟩ := bind_eq_ok.mp h
    obtain ⟨next, -, h⟩ := bind_eq_ok.mp h
    obtain rfl := Except.ok.inj h
    generalize (if next.toNat % 2 ^ 32 / c_expDiffPeriod > 1 then target + 2 ^ (next.toNat % 2 ^ 32 / c_expDiffPeriod - 2)
      else target) = o
    have hlow : 0 ≤ min (max (E.minimumDifficulty.toNat : Int) o) (2 ^ 256 - 1) := by omega
    have hhigh : min (max (E.minimumDifficulty.toNat : Int) o) (2 ^ 256 - 1) < 2 ^ 256 := by omega
    have hle : (E.minimumDifficulty.toNat : Int) ≤ min (max (E.minimumDifficulty.toNat : Int) o) (2 ^ 256 - 1) := by omega
    rw [BitVec.toNat_ofInt]
    generalize min (max (E.minimumDifficulty.toNat : Int) o) (2 ^ 256 - 1) = v at hlow hhigh hle
    have hmod : v % ((2 ^ 256 : Nat) : Int) = v := Int.emod_eq_of_lt hlow (by exact_mod_cast hhigh)
    rw [hmod]
    omega

/-- It depends on the number and the time of the block alone. -/
theorem calculateDifficulty_congr {bi' : BlockHeader} (hnumber : bi.number = bi'.number) (htimestamp : bi.timestamp = bi'.timestamp) :
    E.calculateDifficulty A bi parent = E.calculateDifficulty A bi' parent := by
  simp only [calculateDifficulty, target, hnumber, htimestamp]

theorem target_spec (h : Sane E parent) (bi : BlockHeader) : ∃ t, ∀ A : WordOps 256, A.Exact → E.target A bi parent = .ok t := by
  have hdiv : WordOps.div parent.difficulty E.difficultyBoundDivisor = .ok (parent.difficulty / E.difficultyBoundDivisor) :=
    div_eq h.difficultyBoundDivisor
  have hquot : (parent.difficulty / E.difficultyBoundDivisor).toNat ≤ parent.difficulty.toNat := by
    rw [BitVec.toNat_udiv]
    exact Nat.div_le_self _ _
  have hdifficulty := h.difficulty
  have htimestamp := h.timestamp
  by_cases hfrontier : bi.number < E.frontierCompatibilityModeLimit
  · by_cases hlate : bi.timestamp ≥ parent.timestamp + E.durationLimit
    · refine ⟨(parent.difficulty - parent.difficulty / E.difficultyBoundDivisor).toNat, fun A hA => ?_⟩
      rw [target, if_pos hfrontier, hA.add _ _ (by omega), ok_bind, if_pos hlate, hdiv, ok_bind, hA.sub _ _ hquot]
      rfl
    · refine ⟨(parent.difficulty + parent.difficulty / E.difficultyBoundDivisor).toNat, fun A hA => ?_⟩
      rw [target, if_pos hfrontier, hA.add _ _ (by omega), ok_bind, if_neg hlate, hdiv, ok_bind, hA.add _ _ (by omega)]
      rfl
  · refine ⟨parent.difficulty.toNat + (parent.difficulty / 2048).toNat *
      max (1 - ((bi.timestamp.toNat : Int) - parent.timestamp.toNat).tdiv 10) (-99), fun A _ => ?_⟩
    rw [target, if_neg hfrontier]
    rfl

theorem toNat_number_add (h : Sane E parent) : (parent.number + 1).toNat = parent.number.toNat + 1 := by
  have hnumber := h.number
  have hone : (1 : U256).toNat = 1 := rfl
  rw [toNat_add (by omega), hone]

theorem number_add (h : Sane E parent) (hA : A.Exact) : A.add parent.number 1 = .ok (parent.number + 1) := by
  have hnumber := h.number
  have hone : (1 : U256).toNat = 1 := rfl
  exact hA.add _ _ (by omega)

theorem number_ne_zero (h : Sane E parent) : parent.number + 1 ≠ 0 := by
  intro hzero
  have hsum := toNat_number_add h
  rw [hzero] at hsum
  simp at hsum

theorem calculateDifficulty_spec (h : Sane E parent) (hnumber : bi.number ≠ 0) :
    ∃ d, ∀ A : WordOps 256, A.Exact → E.calculateDifficulty A bi parent = .ok d := by
  obtain ⟨t, ht⟩ := target_spec h bi
  have hsame : ∀ A : WordOps 256, A.Exact → E.calculateDifficulty A bi parent = E.calculateDifficulty (wrapping 256) bi parent := by
    intro A hA
    simp only [calculateDifficulty, ht A hA, ht _ exact_wrapping, number_add h hA, number_add h exact_wrapping]
  have hok : ∃ d, E.calculateDifficulty (wrapping 256) bi parent = .ok d := by
    simp only [calculateDifficulty, if_neg hnumber, ht _ exact_wrapping, number_add h exact_wrapping, word, Except.mapError, ok_bind]
    exact ⟨_, rfl⟩
  obtain ⟨d, hd⟩ := hok
  exact ⟨d, fun A hA => by rw [hsame A hA, hd]⟩

/-! ## The child -/

/-- What `populateFromParent` makes of a header, its gas limit and its difficulty given. -/
def childOf (bi parent : BlockHeader) (m_hash : H256) (gasLimit difficulty : U256) : BlockHeader :=
  { bi with
    stateRoot := parent.stateRoot, number := parent.number + 1, parentHash := m_hash, gasLimit := gasLimit
    difficulty := difficulty, gasUsed := 0 }

/-- What `verify` asks of the contents of a block. -/
def verifyHashes (bi : BlockHeader) (block : Option BlockHashes) : Except ElhashError Unit :=
  match block with
  | none => pure ()
  | some b => do
    if bi.transactionsRoot ≠ b.transactionsRoot then throw (.InvalidTransactionsRoot b.transactionsRoot bi.transactionsRoot)
    if bi.sha3Uncles ≠ b.sha3Uncles then throw (.InvalidUnclesHash b.sha3Uncles bi.sha3Uncles)

/-- What `verify` asks besides: nothing of the numbers of a header. -/
def verifyOthers (E : Elhash) (s : Strictness) (bi : BlockHeader) (block : Option BlockHashes) : Except ElhashError Unit := do
  verifyHashes bi block
  if s ≠ .CheckNothingNew then E.verifyExtraData bi
  E.verifySealOf s bi

theorem verifyLimits_ok (hwindow : InWindow E parent bi.gasLimit) (hdifficulty : E.minimumDifficulty.toNat ≤ bi.difficulty.toNat) :
    E.verifyLimits bi = .ok () := by
  have hlow : ¬ bi.difficulty < E.minimumDifficulty := fun hlt => Nat.not_lt.mpr hdifficulty (BitVec.lt_def.mp hlt)
  have hleast : ¬ bi.gasLimit < E.minGasLimit := fun hlt => Nat.not_lt.mpr hwindow.least (BitVec.lt_def.mp hlt)
  have hmost : ¬ bi.gasLimit > E.maxGasLimit := fun hlt => Nat.not_lt.mpr hwindow.most (BitVec.lt_def.mp hlt)
  rw [verifyLimits, if_neg hlow, if_neg hleast, if_neg hmost]
  rfl

/-- Strictly inside the window, the gas limit is good. -/
theorem badGasLimit_eq (h : Sane E parent) (hA : A.Exact) {g : U256} (hwindow : InWindow E parent g) :
    E.badGasLimit A g parent.gasLimit = .ok false := by
  have hdiv : WordOps.div parent.gasLimit E.gasLimitBoundDivisor = .ok (parent.gasLimit / E.gasLimitBoundDivisor) :=
    div_eq h.gasLimitBoundDivisor
  have hquot : (parent.gasLimit / E.gasLimitBoundDivisor).toNat = parent.gasLimit.toNat / E.gasLimitBoundDivisor.toNat :=
    BitVec.toNat_udiv
  have hq := Nat.div_le_self parent.gasLimit.toNat E.gasLimitBoundDivisor.toNat
  have hmost := h.most
  have hmax := h.maxGasLimit
  have habove := hwindow.above
  have hbelow := hwindow.below
  obtain ⟨hlow, hhigh⟩ := toNat_window h
  have hlimits : ¬ (g < E.minGasLimit ∨ g > E.maxGasLimit) := by
    rintro (hlt | hlt)
    · exact Nat.not_lt.mpr hwindow.least (BitVec.lt_def.mp hlt)
    · exact Nat.not_lt.mpr hwindow.most (BitVec.lt_def.mp hlt)
  have hinside : ¬ g ≤ parent.gasLimit - parent.gasLimit / E.gasLimitBoundDivisor := by
    rw [BitVec.le_def]
    omega
  have hnot : ¬ g ≥ parent.gasLimit + parent.gasLimit / E.gasLimitBoundDivisor := by
    rw [ge_iff_le, BitVec.le_def]
    omega
  rw [badGasLimit, if_neg hlimits, hdiv, ok_bind, hA.sub _ _ (by omega), ok_bind, if_neg hinside, ok_bind, hA.add _ _ (by omega),
    ok_bind, decide_eq_false hnot]
  rfl

theorem verifyParent_ok (h : Sane E parent) (hA : A.Exact) (hwindow : InWindow E parent bi.gasLimit)
    (hdifficulty : E.calculateDifficulty A bi parent = .ok bi.difficulty) : E.verifyParent A bi parent = .ok () := by
  have hsame : ¬ bi.difficulty ≠ bi.difficulty := fun hne => hne rfl
  simp only [verifyParent, hdifficulty, ok_bind, if_neg hsame, badGasLimit_eq h hA hwindow, word, Except.mapError]
  rfl

theorem isSet_of_sane (h : Sane E parent) : isSet parent = true := by
  refine decide_eq_true ?_
  intro hinvalid
  have htimestamp := h.timestamp
  have hall : Invalid256.toNat = 2 ^ 256 - 1 := by decide
  rw [hinvalid] at htimestamp
  omega

/-- The header of a child is right in all that its parent decides. -/
theorem verifyHeader_child (h : Sane E parent) (hA : A.Exact) (hlater : parent.timestamp < bi.timestamp) {m_hash : H256}
    (hmemo : m_hash = nullHash ∨ m_hash = E.hash parent) (g d : U256) (s : Strictness) (block : Option BlockHashes) :
    E.verifyHeader A s (childOf bi parent m_hash g d) parent block = verifyHashes (childOf bi parent m_hash g d) block := by
  have hnumber := h.number
  have hsum := toNat_number_add h
  have hsmall : ¬ (childOf bi parent m_hash g d).number.toNat > 2 ^ 32 - 1 := by
    show ¬ (parent.number + 1).toNat > 2 ^ 32 - 1
    omega
  have hused : ¬ (s ≠ .CheckNothingNew ∧ (childOf bi parent m_hash g d).gasUsed > (childOf bi parent m_hash g d).gasLimit) := by
    rintro ⟨-, hgt⟩
    exact absurd (BitVec.lt_def.mp hgt) (by simp [childOf])
  have hhash : ¬ ((childOf bi parent m_hash g d).parentHash ≠ nullHash ∧ E.hash parent ≠ (childOf bi parent m_hash g d).parentHash) :=
    fun hne => hmemo.elim hne.1 fun heq => hne.2 heq.symm
  have htime : ¬ (childOf bi parent m_hash g d).timestamp ≤ parent.timestamp := BitVec.not_le.mpr hlater
  have hnext : ¬ (childOf bi parent m_hash g d).number ≠ parent.number + 1 := fun hne => hne rfl
  simp only [verifyHeader, if_neg hsmall, if_neg hused, if_pos (isSet_of_sane h), if_neg hhash, if_neg htime, number_add h hA, word,
    Except.mapError, ok_bind, if_neg hnext]
  cases block <;> rfl

/-- A child whose limits are right passes if it passes what else there is. -/
theorem verify_child (h : Sane E parent) (hA : A.Exact) (hlater : parent.timestamp < bi.timestamp) {m_hash : H256}
    (hmemo : m_hash = nullHash ∨ m_hash = E.hash parent) {g d : U256} (hwindow : InWindow E parent g)
    (hdifficulty : E.calculateDifficulty A (childOf bi parent m_hash g d) parent = .ok d) (s : Strictness) (block : Option BlockHashes) :
    E.verify A s (childOf bi parent m_hash g d) parent block = verifyOthers E s (childOf bi parent m_hash g d) block := by
  have hdifficult : E.minimumDifficulty.toNat ≤ (childOf bi parent m_hash g d).difficulty.toNat := minimumDifficulty_le hdifficulty
  have hlimits : E.verifyLimits (childOf bi parent m_hash g d) = .ok () := verifyLimits_ok hwindow hdifficult
  have hparent : E.verifyParent A (childOf bi parent m_hash g d) parent = .ok () := verifyParent_ok h hA hwindow hdifficulty
  simp only [verify, verifyOthers, verifyHeader_child h hA hlater hmemo, hlimits, hparent, if_pos (isSet_of_sane h), ok_bind]

/-- What `populateFromParent` makes of a header, whatever way the operations are done that need no wrapping. -/
theorem populateFromParent_spec (h : Sane E parent) (hfloor : E.minGasLimit.toNat ≤ 3141562) (hfloor' : 3141562 ≤ E.maxGasLimit.toNat)
    (bi : BlockHeader) (m_hash : H256) : ∃ g d,
      (∀ A : WordOps 256, A.Exact → E.populateFromParent A bi parent m_hash = .ok (childOf bi parent m_hash g d)) ∧
      InWindow E parent g ∧ ∀ A : WordOps 256, A.Exact → E.calculateDifficulty A (childOf bi parent m_hash g d) parent = .ok d := by
  have htarget : (3141562 : U256).toNat = 3141562 := rfl
  have hgas : ∃ g, (∀ A : WordOps 256, A.Exact → E.childGasLimit A parent 3141562 = .ok g) ∧ InWindow E parent g :=
    childGasLimit_spec h (by rw [htarget]; exact hfloor) (by rw [htarget]; exact hfloor') (by decide)
  obtain ⟨g, hg, hwindow⟩ := hgas
  have hnumber : (childOf bi parent m_hash parent.gasLimit 1).number ≠ 0 := number_ne_zero h
  obtain ⟨d, hd⟩ := calculateDifficulty_spec h hnumber
  -- the default stands for that target
  have hdefault : ∀ A : WordOps 256, A.Exact → E.childGasLimit A parent Invalid256 = .ok g := by
    intro A hA
    have hset : ¬ (3141562 : U256) = Invalid256 := by decide
    rw [← hg A hA, childGasLimit, childGasLimit, if_pos rfl, if_neg hset]
  refine ⟨g, d, fun A hA => ?_, hwindow, fun A hA => ?_⟩
  · have hheader : populateHeader A bi parent m_hash = .ok (childOf bi parent m_hash parent.gasLimit 1) := by
      rw [populateHeader, number_add h hA]
      rfl
    simp only [populateFromParent, hheader, word, Except.mapError, ok_bind, hd A hA, hdefault A hA]
    rfl
  · rw [← hd A hA]
    exact calculateDifficulty_congr rfl rfl

/-- Within the bounds, the limit that is proposed for any target is strictly inside the window; no difficulty is below the least one; and
a header made from its parent, whether the hash of that is memoised or not and for any later time, passes all checks of its numbers. All
this is also so with operations that refuse to wrap. -/
theorem limits_agree (E : Elhash) (parent : BlockHeader) (h : Sane E parent) :
    (∀ T : U256, E.minGasLimit ≤ T → T ≤ E.maxGasLimit → ∃ g, E.childGasLimit (wrapping 256) parent T = .ok g ∧
      E.childGasLimit (checked 256) parent T = .ok g ∧ InWindow E parent g) ∧
    (∀ bi before d, E.calculateDifficulty (wrapping 256) bi before = .ok d → E.minimumDifficulty ≤ d) ∧
    (E.minGasLimit ≤ 3141562 → 3141562 ≤ E.maxGasLimit → ∀ bi : BlockHeader, parent.timestamp < bi.timestamp →
      ∀ m_hash, m_hash = nullHash ∨ m_hash = E.hash parent → ∃ g d,
        E.populateFromParent (wrapping 256) bi parent m_hash = .ok (childOf bi parent m_hash g d) ∧
        E.populateFromParent (checked 256) bi parent m_hash = .ok (childOf bi parent m_hash g d) ∧ InWindow E parent g ∧
        ∀ s block,
          E.verify (wrapping 256) s (childOf bi parent m_hash g d) parent block = verifyOthers E s (childOf bi parent m_hash g d) block ∧
          E.verify (checked 256) s (childOf bi parent m_hash g d) parent block = verifyOthers E s (childOf bi parent m_hash g d) block) := by
  refine ⟨fun T hleast hmost => ?_, fun bi before d hd => ?_, fun hleast hmost bi hlater m_hash hmemo => ?_⟩
  · have hmax := h.maxGasLimit
    have hmost' := BitVec.le_def.mp hmost
    have hfloor : T ≠ Invalid256 := by
      rintro rfl
      have hall : Invalid256.toNat = 2 ^ 256 - 1 := by decide
      omega
    obtain ⟨g, hg, hwindow⟩ := childGasLimit_spec h (BitVec.le_def.mp hleast) hmost' hfloor
    exact ⟨g, hg _ exact_wrapping, hg _ exact_checked, hwindow⟩
  · exact BitVec.le_def.mpr (minimumDifficulty_le hd)
  · obtain ⟨g, d, hchild, hwindow, hdifficulty⟩ :=
      populateFromParent_spec h (BitVec.le_def.mp hleast) (BitVec.le_def.mp hmost) bi m_hash
    refine ⟨g, d, hchild _ exact_wrapping, hchild _ exact_checked, hwindow, fun s block => ⟨?_, ?_⟩⟩
    · exact verify_child h exact_wrapping hlater hmemo hwindow (hdifficulty _ exact_wrapping) s block
    · exact verify_child h exact_checked hlater hmemo hwindow (hdifficulty _ exact_checked) s block

/-- The default parameters, without a seal. -/
def sampleEngine : Elhash where
  minGasLimit := 0x1388
  maxGasLimit := 0x7fffffffffffffff
  gasLimitBoundDivisor := 0x0400
  minimumDifficulty := 0x020000
  difficultyBoundDivisor := 0x0800
  durationLimit := 0x0d
  frontierCompatibilityModeLimit := 0
  maximumExtraDataSize := 0x20
  hash _ := nullHash
  verifySeal _ := true
  quickVerifySeal _ := true

def sampleParent : BlockHeader where
  parentHash := nullHash
  sha3Uncles := nullHash
  author := 0
  stateRoot := nullHash
  transactionsRoot := nullHash
  receiptsRoot := nullHash
  logBloom := 0
  difficulty := 0x020000
  number := 7
  gasLimit := 3141592
  gasUsed := 3141592
  timestamp := 1000
  extraData := []
  sealFields := []

theorem limits_agree_sample : ∃ g d,
    sampleEngine.populateFromParent (wrapping 256) { sampleParent with timestamp := 1010 } sampleParent (sampleEngine.hash sampleParent) =
      .ok (childOf { sampleParent with timestamp := 1010 } sampleParent (sampleEngine.hash sampleParent) g d) ∧
    sampleEngine.verify (wrapping 256) .CheckEverything
      (childOf { sampleParent with timestamp := 1010 } sampleParent (sampleEngine.hash sampleParent) g d) sampleParent none = .ok () := by
  have hsane : Sane sampleEngine sampleParent := by constructor <;> decide
  obtain ⟨g, d, hchild, -, -, hverify⟩ := (limits_agree sampleEngine sampleParent hsane).2.2 (by decide) (by decide)
    { sampleParent with timestamp := 1010 } (by decide) _ (.inr rfl)
  refine ⟨g, d, hchild, ?_⟩
  rw [(hverify .CheckEverything none).1]
  rfl

end Elhash

end Webthree
