import Mathlib.Data.Nat.Digits.Lemmas
import Mathlib.Tactic.Linarith
import Mathlib.Tactic.Ring

/-!
# Numerals

Numbers written in a base up to 36, with letters behind the ten digits: what a numeral is worth, the numeral of a number, and zeros in
front of it.
-/

namespace Webthree

/-- A digit, as a lower-case character. -/
def digitChar (d : Nat) : Char := if d < 10 then Char.ofNat (48 + d) else Char.ofNat (87 + d)

/-- The value of a digit, in lower or upper case. -/
def digitValue (c : Char) : Option Nat :=
  if '0' ≤ c ∧ c ≤ '9' then some (c.toNat - 48)
  else if 'a' ≤ c ∧ c ≤ 'z' then some (c.toNat - 87)
  else if 'A' ≤ c ∧ c ≤ 'Z' then some (c.toNat - 55)
  else none

/-- A digit in the base. -/
def isDigitIn (b : Nat) (c : Char) : Bool := (digitValue c).any (· < b)

/-- What a row of digits is worth, behind a number. -/
def numberFrom (b n : Nat) (s : List Char) : Nat := s.foldl (fun n c => n * b + (digitValue c).getD 0) n

/-- What a row of digits is worth. -/
def numberOf (b : Nat) (s : List Char) : Nat := numberFrom b 0 s

/-- The number that a string is the numeral of, if it is one. -/
def ofNumeral (b : Nat) (s : List Char) : Option Nat := if s ≠ [] ∧ s.all (isDigitIn b) = true then some (numberOf b s) else none

/-- The digits of a number, the most significant one first. -/
def digitsOf (b n : Nat) : List Char := (Nat.digits b n).reverse.map digitChar

/-- The numeral of a number: zero has a digit too. -/
def numeral (b n : Nat) : List Char := if n = 0 then ['0'] else digitsOf b n

variable {b n : Nat}

/-! ## Values -/

/-- Digits are taken in one after the other. -/
theorem numberFrom_append (n : Nat) (s t : List Char) : numberFrom b n (s ++ t) = numberFrom b (numberFrom b n s) t := List.foldl_append

/-- The digits before are worth their number times a power of the base. -/
theorem numberFrom_eq (n : Nat) (s : List Char) : numberFrom b n s = n * b ^ s.length + numberOf b s := by
  induction s using List.reverseRecOn with
  | nil => simp [numberFrom, numberOf]
  | append_singleton s c ih =>
    have hsnoc : ∀ m, numberFrom b m (s ++ [c]) = numberFrom b m s * b + (digitValue c).getD 0 := fun m => numberFrom_append m s [c]
    rw [numberOf, hsnoc, hsnoc, ih, ← numberOf, List.length_append, List.length_singleton, Nat.pow_succ]
    ring

/-- Two rows of digits, one behind the other, are one number. -/
theorem numberOf_append (s t : List Char) : numberOf b (s ++ t) = numberOf b s * b ^ t.length + numberOf b t := by
  rw [numberOf, numberFrom_append, numberFrom_eq, ← numberOf]

/-- Zeros in front do not count. -/
theorem numberOf_zeros (k : Nat) (s : List Char) : numberOf b (List.replicate k '0' ++ s) = numberOf b s := by
  have hzero : numberOf b (List.replicate k '0') = 0 := by
    induction k with
    | zero => rfl
    | succ k ih => rwa [List.replicate_succ, numberOf, ← List.singleton_append, numberFrom_append, show numberFrom b 0 ['0'] = 0 by
        simp [numberFrom, digitValue]]
  rw [numberOf_append, hzero, Nat.zero_mul, Nat.zero_add]

/-! ## Digits -/

/-- Each digit has its value. -/
theorem digitValue_digitChar : ∀ d < 36, digitValue (digitChar d) = some d := by decide

/-- So has each digit in upper case. -/
theorem digitValue_toUpper_digitChar : ∀ d < 36, digitValue (digitChar d).toUpper = some d := by decide

/-- Decimal digits are those between two codes. -/
theorem isDigit_iff (c : Char) : c.isDigit = true ↔ 48 ≤ c.toNat ∧ c.toNat ≤ 57 := by
  rw [Char.isDigit, Bool.and_eq_true, decide_eq_true_eq, decide_eq_true_eq]
  rfl

/-- The value of a decimal digit is its distance from the first one. -/
theorem digitValue_of_isDigit {c : Char} (hc : c.isDigit = true) : digitValue c = some (c.toNat - 48) := if_pos ((isDigit_iff c).mp hc)

/-- In base ten, digits are what they are for the language. -/
theorem isDigitIn_ten (c : Char) : isDigitIn 10 c = c.isDigit := by
  have hd := isDigit_iff c
  cases hc : c.isDigit with
  | true =>
    have := hd.mp hc
    rw [isDigitIn, digitValue_of_isDigit hc, Option.any_some, decide_eq_true]
    omega
  | false =>
    have hn : ¬ ('0' ≤ c ∧ c ≤ '9') := fun h => by rw [hd.mpr h] at hc; cases hc
    rw [isDigitIn, digitValue, if_neg hn]
    split
    · rename_i hl
      have hl : 97 ≤ c.toNat ∧ c.toNat ≤ 122 := hl
      simp only [Option.any_some, decide_eq_false_iff_not]
      omega
    · split
      · rename_i hu
        have hu : 65 ≤ c.toNat ∧ c.toNat ≤ 90 := hu
        simp only [Option.any_some, decide_eq_false_iff_not]
        omega
      · rfl

/-- So many digits are less than that power of the base. -/
theorem numberOf_lt {s : List Char} (hs : s.all (isDigitIn b) = true) : numberOf b s < b ^ s.length := by
  induction s using List.reverseRecOn with
  | nil => simp [numberOf, numberFrom]
  | append_singleton s c ih =>
    rw [List.all_append, Bool.and_eq_true] at hs
    have hc : numberOf b [c] < b := by
      have h : isDigitIn b c = true := by simpa using hs.2
      rw [isDigitIn] at h
      cases hd : digitValue c with
      | none => rw [hd] at h; cases h
      | some d =>
        rw [hd] at h
        simpa [numberOf, numberFrom, hd] using h
    have hlt := ih hs.1
    rw [numberOf_append, List.length_append, List.length_singleton, Nat.pow_one, Nat.pow_succ]
    nlinarith

/-- Rows of digits of one length and one value are the same, if the letters are in lower case. -/
theorem numberOf_injective (hb : b ≤ 36) {s t : List Char} (hs : ∀ c ∈ s, ∃ d < b, c = digitChar d) (ht : ∀ c ∈ t, ∃ d < b, c = digitChar d)
    (hlen : s.length = t.length) (hv : numberOf b s = numberOf b t) : s = t := by
  have hdigit : ∀ {d}, d < b → numberOf b [digitChar d] = d := fun {d} hd => by
    rw [numberOf, numberFrom, List.foldl_cons, List.foldl_nil, digitValue_digitChar d (by omega), Option.getD_some, Nat.zero_mul, Nat.zero_add]
  induction s using List.reverseRecOn generalizing t with
  | nil => exact (List.length_eq_zero_iff.mp hlen.symm).symm
  | append_singleton s c ih =>
    obtain ⟨t', c', rfl⟩ : ∃ t' c', t = t' ++ [c'] := by
      rcases List.eq_nil_or_concat t with rfl | ⟨t', c', h⟩
      · simp at hlen
      · exact ⟨t', c', by rw [h, List.concat_eq_append]⟩
    obtain ⟨d, hd, rfl⟩ := hs c (by simp)
    obtain ⟨d', hd', rfl⟩ := ht c' (by simp)
    rw [numberOf_append, numberOf_append, hdigit hd, hdigit hd', List.length_singleton, List.length_singleton, Nat.pow_one] at hv
    have hlast : d = d' := by
      have h := congrArg (· % b) hv
      rwa [Nat.mul_add_mod_of_lt hd, Nat.mul_add_mod_of_lt hd'] at h
    have hfront : numberOf b s = numberOf b t' := by
      subst hlast
      exact Nat.eq_of_mul_eq_mul_right (by omega) (Nat.add_right_cancel hv)
    rw [ih (fun c hc => hs c (by simp [hc])) (fun c hc => ht c (by simp [hc])) (by simpa using hlen) hfront, hlast]

/-- Digits of a number are digits of the base. -/
theorem digit_of_mem (hb : 2 ≤ b) {c : Char} (hc : c ∈ digitsOf b n) : ∃ d < b, c = digitChar d := by
  obtain ⟨d, hd, rfl⟩ := List.mem_map.mp hc
  exact ⟨d, Nat.digits_lt_base hb (List.mem_reverse.mp hd), rfl⟩

/-- Zero has no digits. -/
theorem digitsOf_zero (b : Nat) : digitsOf b 0 = [] := by simp [digitsOf]

/-- The last digit is what remains, the others are those of the quotient. -/
theorem digitsOf_pos (hb : 2 ≤ b) (hn : 0 < n) : digitsOf b n = digitsOf b (n / b) ++ [digitChar (n % b)] := by
  rw [digitsOf, Nat.digits_def' hb hn, List.reverse_cons, List.map_append]
  rfl

/-- The digits of a number, whatever their case, are worth the number. -/
theorem numberOf_map_digitsOf {f : Char → Char} (hb : 2 ≤ b) (hf : ∀ d < b, digitValue (f (digitChar d)) = some d) (n : Nat) :
    numberOf b ((digitsOf b n).map f) = n := by
  induction n using Nat.strongRecOn with
  | ind n ih =>
    by_cases hn : n = 0
    · subst hn
      rw [digitsOf_zero]
      rfl
    · have hpos : 0 < n := Nat.pos_of_ne_zero hn
      have hlast : numberOf b [f (digitChar (n % b))] = n % b := by
        rw [numberOf, numberFrom, List.foldl_cons, List.foldl_nil, hf _ (Nat.mod_lt _ (by omega)), Option.getD_some, Nat.zero_mul, Nat.zero_add]
      rw [digitsOf_pos hb hpos, List.map_append, numberOf_append, ih _ (Nat.div_lt_self hpos hb), List.map_singleton, hlast,
        List.length_singleton, Nat.pow_one]
      exact Nat.div_add_mod' n b

/-- The digits of a number are worth it. -/
theorem numberOf_digitsOf (hb : 2 ≤ b) (hb' : b ≤ 36) (n : Nat) : numberOf b (digitsOf b n) = n := by
  have h := numberOf_map_digitsOf hb (f := id) (fun d hd => digitValue_digitChar d (by omega)) n
  rwa [List.map_id] at h

/-- A number has so many digits if it is less than that power of the base. -/
theorem length_digitsOf_le_iff (hb : 2 ≤ b) (k : Nat) : (digitsOf b n).length ≤ k ↔ n < b ^ k := by
  rw [digitsOf, List.length_map, List.length_reverse]
  exact Nat.digits_length_le_iff hb n

/-! ## Numerals -/

/-- A numeral is not empty. -/
theorem numeral_ne_nil (hb : 2 ≤ b) (n : Nat) : numeral b n ≠ [] := by
  rw [numeral]
  split
  · exact List.cons_ne_nil _ _
  · rename_i hn
    rw [digitsOf_pos hb (Nat.pos_of_ne_zero hn)]
    exact List.append_ne_nil_of_right_ne_nil _ (List.cons_ne_nil _ _)

/-- A numeral is worth its number. -/
theorem numberOf_numeral (hb : 2 ≤ b) (hb' : b ≤ 36) (n : Nat) : numberOf b (numeral b n) = n := by
  rw [numeral]
  split
  · rename_i hn
    rw [hn]
    simp [numberOf, numberFrom, digitValue]
  · exact numberOf_digitsOf hb hb' n

/-- A numeral has digits of the base. -/
theorem digit_of_mem_numeral (hb : 2 ≤ b) {c : Char} (hc : c ∈ numeral b n) : ∃ d < b, c = digitChar d := by
  rw [numeral] at hc
  split at hc
  · exact ⟨0, by omega, List.mem_singleton.mp hc⟩
  · exact digit_of_mem hb hc

/-- A numeral has nothing but digits. -/
theorem all_numeral (hb : 2 ≤ b) (hb' : b ≤ 36) (n : Nat) : (numeral b n).all (isDigitIn b) = true := by
  refine List.all_eq_true.mpr fun c hc => ?_
  obtain ⟨d, hd, rfl⟩ := digit_of_mem_numeral hb hc
  rw [isDigitIn, digitValue_digitChar d (by omega), Option.any_some, decide_eq_true hd]

/-- The length of a numeral says how large the number can be. -/
theorem length_numeral_le_iff (hb : 2 ≤ b) {k : Nat} (hk : 0 < k) : (numeral b n).length ≤ k ↔ n < b ^ k := by
  rw [numeral]
  split
  · rename_i hn
    rw [hn]
    exact iff_of_true hk (Nat.pow_pos (by omega))
  · exact length_digitsOf_le_iff hb k

/-- A numeral with zeros in front is read as its number. -/
theorem ofNumeral_zeros (hb : 2 ≤ b) (hb' : b ≤ 36) (k n : Nat) : ofNumeral b (List.replicate k '0' ++ numeral b n) = some n := by
  have hall : (List.replicate k '0' ++ numeral b n).all (isDigitIn b) = true := by
    rw [List.all_append, all_numeral hb hb', Bool.and_true, List.all_eq_true]
    intro c hc
    rw [List.eq_of_mem_replicate hc]
    simp [isDigitIn, digitValue]
    omega
  rw [ofNumeral, if_pos ⟨List.append_ne_nil_of_right_ne_nil _ (numeral_ne_nil hb n), hall⟩, numberOf_zeros, numberOf_numeral hb hb']

/-- Zeros in front make no difference to what is read. -/
theorem ofNumeral_leftpad (hb : 2 ≤ b) (hb' : b ≤ 36) (k n : Nat) : ofNumeral b ((numeral b n).leftpad k '0') = some n :=
  ofNumeral_zeros hb hb' _ n

end Webthree
