import Webthree.Core.Base58
import Webthree.Lib.EState
import Webthree.Lib.Radix

/-!
# Base 58 and back

The buffers are always large enough. What is written is read back if there is a digit that is not zero, as long as the zeros in front can
be counted, and the alphabet has the character 1 for them.
-/

namespace Webthree

namespace Base58

/-! ## Buffers -/

/-- The number in a buffer. -/
def valueOf (base : Nat) (buffer : Bytes) : Nat := Radix.value base (buffer.map UInt8.toNat)

/-- A buffer of digits. -/
def Within (base : Nat) (buffer : Bytes) : Prop := ∀ x ∈ buffer.map UInt8.toNat, x < base

section

variable {factor base : Nat} (hbase : 1 < base) (hbyte : base ≤ 256)

include hbase hbyte

/-- The loop keeps the number, with what is carried out of the buffer. -/
theorem carryLoop_spec (it : Bytes) (carry : Nat) : (carryLoop factor base it carry).1.length = it.length ∧
    Within base (carryLoop factor base it carry).1 ∧
    Nat.ofDigits base ((carryLoop factor base it carry).1.map UInt8.toNat) + base ^ it.length * (carryLoop factor base it carry).2 =
      factor * Nat.ofDigits base (it.map UInt8.toNat) + carry := by
  induction it generalizing carry with
  | nil => exact ⟨rfl, fun x hx => absurd hx List.not_mem_nil, by simp [carryLoop]⟩
  | cons x it ih =>
    obtain ⟨hlength, hwithin, hvalue⟩ := ih ((carry + factor * x.toNat) / base)
    have hmod : (carry + factor * x.toNat) % base < base := Nat.mod_lt _ (by omega)
    have hdigit : (UInt8.ofNat ((carry + factor * x.toNat) % base)).toNat = (carry + factor * x.toNat) % base := by
      rw [UInt8.toNat_ofNat', Nat.mod_eq_of_lt (by omega)]
    have hsplit := Nat.div_add_mod (carry + factor * x.toNat) base
    rw [carryLoop]
    refine ⟨congrArg (· + 1) hlength, ?_, ?_⟩
    · intro y hy
      rw [List.map_cons, hdigit] at hy
      rcases List.mem_cons.mp hy with rfl | hy
      · exact hmod
      · exact hwithin y hy
    · simp only [List.map_cons, Nat.ofDigits_cons, hdigit, List.length_cons, pow_succ]
      calc (carry + factor * x.toNat) % base +
            base * Nat.ofDigits base ((carryLoop factor base it ((carry + factor * x.toNat) / base)).1.map UInt8.toNat) +
            base ^ it.length * base * (carryLoop factor base it ((carry + factor * x.toNat) / base)).2
          = (carry + factor * x.toNat) % base + base * (Nat.ofDigits base
              ((carryLoop factor base it ((carry + factor * x.toNat) / base)).1.map UInt8.toNat) +
              base ^ it.length * (carryLoop factor base it ((carry + factor * x.toNat) / base)).2) := by ring
        _ = (carry + factor * x.toNat) % base + base * (factor * Nat.ofDigits base (it.map UInt8.toNat) +
              (carry + factor * x.toNat) / base) := by rw [hvalue]
        _ = factor * (x.toNat + base * Nat.ofDigits base (it.map UInt8.toNat)) + carry := by
          rw [Nat.mul_add, Nat.mul_add]
          linarith

/-- The assertion holds where the buffer has room for the result. -/
theorem multiplyAdd_ok {buffer : Bytes} {carry : Nat} (hfits : factor * valueOf base buffer + carry < base ^ buffer.length) :
    ∃ buffer', multiplyAdd factor base buffer carry = .ok buffer' ∧ buffer'.length = buffer.length ∧ Within base buffer' ∧
      valueOf base buffer' = factor * valueOf base buffer + carry := by
  obtain ⟨hlength, hwithin, hvalue⟩ := @carryLoop_spec factor base hbase hbyte buffer.reverse carry
  have hold : Nat.ofDigits base (buffer.reverse.map UInt8.toNat) = valueOf base buffer := by
    rw [valueOf, Radix.value, List.map_reverse]
  have hnew : valueOf base (carryLoop factor base buffer.reverse carry).1.reverse =
      Nat.ofDigits base ((carryLoop factor base buffer.reverse carry).1.map UInt8.toNat) := by
    rw [valueOf, Radix.value, List.map_reverse, List.reverse_reverse]
  rw [hold, List.length_reverse] at hvalue
  have hnone : (carryLoop factor base buffer.reverse carry).2 = 0 := by
    by_contra hne
    have hle : base ^ buffer.length * 1 ≤ base ^ buffer.length * (carryLoop factor base buffer.reverse carry).2 :=
      Nat.mul_le_mul_left _ (Nat.pos_of_ne_zero hne)
    omega
  rw [hnone, Nat.mul_zero, Nat.add_zero] at hvalue
  refine ⟨(carryLoop factor base buffer.reverse carry).1.reverse, ?_, ?_, ?_, ?_⟩
  · rw [multiplyAdd]
    exact if_pos hnone
  · rw [List.length_reverse, hlength, List.length_reverse]
  · intro x hx
    rw [List.map_reverse] at hx
    exact hwithin x (List.mem_reverse.mp hx)
  · rw [hnew, hvalue]

variable {α : Type} {digit : α → Except Base58Error Nat} {d : α → Nat}

/-- The number of all that is converted, behind the one that is in the buffer. -/
theorem convertLoop_ok (hfactor : 0 < factor) {xs : List α} (hdigit : ∀ x ∈ xs, digit x = .ok (d x)) {buffer : Bytes} (hwithin : Within base buffer)
    (hfits : valueOf base buffer * factor ^ xs.length + Radix.value factor (xs.map d) < base ^ buffer.length) :
    ∃ buffer', convertLoop factor base digit xs buffer = .ok buffer' ∧ Within base buffer' ∧
      valueOf base buffer' = valueOf base buffer * factor ^ xs.length + Radix.value factor (xs.map d) := by
  induction xs generalizing buffer with
  | nil => exact ⟨buffer, rfl, hwithin, by simp⟩
  | cons x xs ih =>
    have hsplit : valueOf base buffer * factor ^ (x :: xs).length + Radix.value factor ((x :: xs).map d) =
        (factor * valueOf base buffer + d x) * factor ^ xs.length + Radix.value factor (xs.map d) := by
      rw [List.map_cons, Radix.value_cons, List.length_map, List.length_cons, pow_succ]
      ring
    rw [hsplit] at hfits ⊢
    have hstep : factor * valueOf base buffer + d x < base ^ buffer.length := by
      have hle := Nat.le_mul_of_pos_right (factor * valueOf base buffer + d x) (Nat.pow_pos (n := xs.length) hfactor)
      omega
    obtain ⟨buffer₁, hadd, hlength, hwithin₁, hvalue⟩ := multiplyAdd_ok hbase hbyte hstep
    rw [← hvalue] at hfits ⊢
    rw [← hlength] at hfits
    obtain ⟨buffer', hloop, hwithin', hvalue'⟩ := ih (fun y hy => hdigit y (List.mem_cons_of_mem _ hy)) hwithin₁ hfits
    refine ⟨buffer', ?_, hwithin', hvalue'⟩
    rw [convertLoop, hdigit x List.mem_cons_self, ok_bind, hadd, ok_bind, hloop]

/-- In a buffer of the estimated length, what is converted is left behind zeros. -/
theorem convertLoop_zeros (hfactor : 1 < factor) {p q : Nat} (hq : 0 < q) (hshare : factor ^ q ≤ base ^ p) {xs : List α}
    (hdigit : ∀ x ∈ xs, digit x = .ok (d x)) (hd : ∀ x ∈ xs, d x < factor) :
    ∃ buffer, convertLoop factor base digit xs (List.replicate (xs.length * p / q + 1) 0) = .ok buffer ∧
      (buffer.dropWhile (· = 0)).map UInt8.toNat = Radix.digits base (Radix.value factor (xs.map d)) := by
  have hzeros : (List.replicate (xs.length * p / q + 1) (0 : UInt8)).map UInt8.toNat = List.replicate (xs.length * p / q + 1) 0 :=
    List.map_replicate
  have hzero : valueOf base (List.replicate (xs.length * p / q + 1) 0) = 0 := by
    rw [valueOf, hzeros, Radix.value_zeros]
  have hwithin : Within base (List.replicate (xs.length * p / q + 1) 0) := by
    intro x hx
    rw [hzeros] at hx
    rw [List.eq_of_mem_replicate hx]
    omega
  have hlt : Radix.value factor (xs.map d) < factor ^ xs.length := by
    have hall : ∀ x ∈ xs.map d, x < factor := List.forall_mem_map.mpr hd
    have hlt := Radix.value_lt hfactor hall
    rwa [List.length_map] at hlt
  have hroom := Radix.pow_le_pow_share (by omega) hq hshare xs.length
  obtain ⟨buffer, hloop, hwithin', hvalue⟩ := convertLoop_ok hbase hbyte (Nat.zero_lt_of_lt hfactor) hdigit hwithin
    (by rw [hzero, Nat.zero_mul, Nat.zero_add, List.length_replicate]; omega)
  rw [hzero, Nat.zero_mul, Nat.zero_add] at hvalue
  refine ⟨buffer, hloop, ?_⟩
  have hdrop : (buffer.map UInt8.toNat).dropWhile (fun x => decide (x = 0)) = (buffer.dropWhile (· = 0)).map UInt8.toNat := by
    rw [List.dropWhile_map]
    congr 2
    funext x
    rw [Function.comp_apply, decide_eq_decide, ← UInt8.toNat_inj]
    rfl
  rw [← hdrop, Radix.dropWhile_eq_digits hbase hwithin', ← valueOf, hvalue]

end

/-! ## Zeros in front -/

/-- The leading zero bytes are counted, while they fit into an `int`. -/
theorem skipZeroes_eq (d : Bytes) {zeroes : Nat} (hz : zeroes < 2 ^ 31) : skipZeroes d zeroes =
    if zeroes + (d.takeWhile (· = 0)).length < 2 ^ 31 then .ok (zeroes + (d.takeWhile (· = 0)).length, d.dropWhile (· = 0))
    else .error .overflow := by
  induction d generalizing zeroes with
  | nil =>
    rw [if_pos (by simpa using hz)]
    rfl
  | cons x d ih =>
    rw [skipZeroes]
    by_cases hx : x = 0
    · rw [if_pos hx, List.takeWhile_cons_of_pos (by simpa using hx), List.dropWhile_cons_of_pos (by simpa using hx), List.length_cons,
        increment]
      by_cases hn : zeroes + 1 < 2 ^ 31
      · rw [if_pos hn, pure_eq_ok, ok_bind, ih hn, Nat.add_assoc, Nat.add_comm 1]
      · rw [if_neg hn, if_neg (by omega)]
        rfl
    · rw [if_neg hx, List.takeWhile_cons_of_neg (by simpa using hx), List.dropWhile_cons_of_neg (by simpa using hx), if_pos (by simpa using hz)]
      rfl

/-- A string that has another character. -/
theorem skipFirst_eq {zero : Char} {s : List Char} (hs : ∃ c ∈ s, c ≠ zero) {zeroes : Nat} (hz : zeroes < 2 ^ 31) :
    skipFirst zero s zeroes =
      if zeroes + (s.takeWhile (· = zero)).length < 2 ^ 31 then
        .ok (zeroes + (s.takeWhile (· = zero)).length, s.dropWhile (· = zero))
      else .error .overflow := by
  induction s generalizing zeroes with
  | nil =>
    obtain ⟨c, hc, -⟩ := hs
    cases hc
  | cons x s ih =>
    rw [skipFirst]
    by_cases hx : x = zero
    · have hs' : ∃ c ∈ s, c ≠ zero := by
        obtain ⟨c, hc, hne⟩ := hs
        rcases List.mem_cons.mp hc with rfl | hc
        · exact absurd hx hne
        · exact ⟨c, hc, hne⟩
      rw [if_pos hx, List.takeWhile_cons_of_pos (by simpa using hx), List.dropWhile_cons_of_pos (by simpa using hx), List.length_cons,
        increment]
      by_cases hn : zeroes + 1 < 2 ^ 31
      · rw [if_pos hn, pure_eq_ok, ok_bind, ih hs' hn, Nat.add_assoc, Nat.add_comm 1]
      · rw [if_neg hn, if_neg (by omega)]
        rfl
    · rw [if_neg hx, List.takeWhile_cons_of_neg (by simpa using hx), List.dropWhile_cons_of_neg (by simpa using hx), if_pos (by simpa using hz)]
      rfl

/-- A string of the first character alone is skipped altogether. -/
theorem skipFirst_all {zero : Char} {s : List Char} (hs : ∀ c ∈ s, c = zero) {zeroes : Nat} {r : Nat × List Char}
    (h : skipFirst zero s zeroes = .ok r) : r.2 = [] := by
  induction s generalizing zeroes with
  | nil =>
    rw [skipFirst] at h
    split at h
    · cases h
    · cases h
      rfl
  | cons x s ih =>
    rw [skipFirst, if_pos (hs x List.mem_cons_self)] at h
    obtain ⟨n, -, h⟩ := bind_eq_ok.mp h
    exact ih (fun c hc => hs c (List.mem_cons_of_mem _ hc)) h

/-- The loop erases the zeros in front. -/
theorem eraseZeroes_eq {ret : Bytes} (h : ret.dropWhile (· = 0) ≠ []) : eraseZeroes ret = .ok (ret.dropWhile (· = 0)) := by
  induction ret with
  | nil => exact absurd rfl h
  | cons x ret ih =>
    rw [eraseZeroes]
    by_cases hx : x = 0
    · rw [List.dropWhile_cons_of_pos (by simpa using hx)] at h ⊢
      rw [if_pos hx, ih h]
    · rw [List.dropWhile_cons_of_neg (by simpa using hx), if_neg hx]
      rfl

/-- What is left has no zero in front; and of zeros alone nothing is left to be asked for. -/
theorem eraseZeroes_ok {ret ret' : Bytes} (h : eraseZeroes ret = .ok ret') : ret' = ret.dropWhile (· = 0) ∧ ∃ x l, ret' = x :: l ∧ x ≠ 0 := by
  induction ret with
  | nil => cases h
  | cons x ret ih =>
    rw [eraseZeroes] at h
    by_cases hx : x = 0
    · rw [if_pos hx] at h
      rw [List.dropWhile_cons_of_pos (by simpa using hx)]
      exact ih h
    · rw [if_neg hx] at h
      cases h
      rw [List.dropWhile_cons_of_neg (by simpa using hx)]
      exact ⟨rfl, x, ret, rfl, hx⟩

/-! ## Characters -/

section

variable {alphabet : Base58Alphabet}

/-- The character of a digit. -/
def charOf (alphabet : Base58Alphabet) (i : Nat) : Char := alphabet.chars.getD i terminator

/-- The digit of a character. -/
def indexOf (alphabet : Base58Alphabet) (c : Char) : Nat := alphabet.chars.idxOf c

/-- A digit has a character. -/
theorem charAt_eq {i : UInt8} (hi : i.toNat < 58) : charAt alphabet i = .ok (charOf alphabet i.toNat) := by
  have hlt : i.toNat < alphabet.chars.length := by rw [alphabet.length_eq]; exact hi
  rw [charAt, List.getElem?_append_left hlt, List.getElem?_eq_getElem hlt, charOf, List.getD_eq_getElem?_getD,
    List.getElem?_eq_getElem hlt]
  rfl

/-- A character of the alphabet has a digit. -/
theorem digitOf_eq {c : Char} (hc : c ∈ alphabet.chars) : digitOf alphabet c = .ok (indexOf alphabet c) := by
  rw [digitOf, indexOf, List.idxOf_eq_getD_idxOf?]
  cases hfind : alphabet.chars.idxOf? c with
  | none => exact absurd hc (List.idxOf?_eq_none_iff.mp hfind)
  | some i => rfl

/-- That digit is one of 58. -/
theorem indexOf_lt {c : Char} (hc : c ∈ alphabet.chars) : indexOf alphabet c < 58 := by
  have hlt := List.idxOf_lt_length_of_mem hc
  rwa [alphabet.length_eq] at hlt

/-- The character of a digit is in the alphabet. -/
theorem charOf_mem {i : Nat} (hi : i < 58) : charOf alphabet i ∈ alphabet.chars := by
  have hlt : i < alphabet.chars.length := by rw [alphabet.length_eq]; exact hi
  rw [charOf, List.getD_eq_getElem?_getD, List.getElem?_eq_getElem hlt]
  exact List.getElem_mem hlt

/-- The character of a digit has that digit. -/
theorem indexOf_charOf {i : Nat} (hi : i < 58) : indexOf alphabet (charOf alphabet i) = i := by
  have hlt : i < alphabet.chars.length := by rw [alphabet.length_eq]; exact hi
  rw [charOf, List.getD_eq_getElem?_getD, List.getElem?_eq_getElem hlt]
  exact alphabet.nodup.idxOf_getElem i hlt

/-- The digit of a character has that character. -/
theorem charOf_indexOf {c : Char} (hc : c ∈ alphabet.chars) : charOf alphabet (indexOf alphabet c) = c := by
  have hlt := List.idxOf_lt_length_of_mem hc
  rw [charOf, indexOf, List.getD_eq_getElem?_getD, List.getElem?_eq_getElem hlt]
  exact List.getElem_idxOf hlt

/-- The first character is that of zero. -/
theorem first_eq : first alphabet = charOf alphabet 0 := by
  rw [first, charOf, List.headD_eq_head?_getD, List.getD_eq_getElem?_getD, List.head?_eq_getElem?]

/-- Only the first digit is the first character. -/
theorem charOf_eq_first {i : Nat} (hi : i < 58) : charOf alphabet i = first alphabet ↔ i = 0 := by
  rw [first_eq]
  constructor
  · intro h
    have hindex := congrArg (indexOf alphabet) h
    rwa [indexOf_charOf hi, indexOf_charOf (by decide)] at hindex
  · rintro rfl
    rfl

end

variable {alphabet : Base58Alphabet}

/-! ## Writing -/

/-- The characters that are written for bytes without zeros in front. -/
def written (alphabet : Base58Alphabet) (d : Bytes) : List Char :=
  (Radix.digits 58 (Radix.value 256 (d.map UInt8.toNat))).map (charOf alphabet)

/-- The conversion to base 58, without its loops. -/
theorem toBase58_eq (d : Bytes) : toBase58 d alphabet =
    if (d.takeWhile (· = 0)).length < 2 ^ 31 then
      .ok (List.replicate (d.takeWhile (· = 0)).length '1' ++ written alphabet (d.dropWhile (· = 0)))
    else .error .overflow := by
  rw [toBase58, skipZeroes_eq d (by decide), Nat.zero_add]
  by_cases hk : (d.takeWhile (· = 0)).length < 2 ^ 31
  · rw [if_pos hk, if_pos hk, ok_bind]
    dsimp only
    obtain ⟨b58, hloop, hdigits⟩ := @convertLoop_zeros 256 58 (by decide) (by decide) UInt8 (fun x => return x.toNat) UInt8.toNat
      (by decide) 138 100 (by decide) (by decide +kernel) (d.dropWhile (· = 0)) (fun _ _ => rfl) fun x _ => x.toNat_lt
    have hchars : (b58.dropWhile (· = 0)).mapM (charAt alphabet) =
        .ok ((b58.dropWhile (· = 0)).map fun x => charOf alphabet x.toNat) := by
      refine mapM_eq_ok fun x hx => charAt_eq ?_
      refine Radix.lt_of_mem_digits (b := 58) (by decide) (n := Radix.value 256 ((d.dropWhile (· = 0)).map UInt8.toNat)) ?_
      rw [← hdigits]
      exact List.mem_map_of_mem hx
    rw [hloop, ok_bind, hchars, ok_bind, written, ← hdigits, List.map_map]
    rfl
  · rw [if_neg hk, if_neg hk]
    rfl

/-! ## Reading -/

/-- The bytes that are read from characters without the first one in front. -/
def read (alphabet : Base58Alphabet) (s : List Char) : Bytes :=
  (Radix.digits 256 (Radix.value 58 (s.map (indexOf alphabet)))).map UInt8.ofNat

/-- What is read are the digits of the value in base 256. -/
theorem map_read (s : List Char) : (read alphabet s).map UInt8.toNat = Radix.digits 256 (Radix.value 58 (s.map (indexOf alphabet))) := by
  have hbytes : ∀ x ∈ Radix.digits 256 (Radix.value 58 (s.map (indexOf alphabet))), (UInt8.toNat ∘ UInt8.ofNat) x = x := by
    intro x hx
    have hlt : x < 256 := Radix.lt_of_mem_digits (by decide) hx
    rw [Function.comp_apply, UInt8.toNat_ofNat', Nat.mod_eq_of_lt hlt]
  rw [read, List.map_map, List.map_congr_left hbytes, List.map_id']

/-- Bytes are told apart by their numbers. -/
theorem map_toNat_injective {d d' : Bytes} (h : d.map UInt8.toNat = d'.map UInt8.toNat) : d = d' :=
  List.map_injective_iff.mpr (fun _ _ => UInt8.toNat_inj.mp) h

/-- What is left behind the leading ones is the rest of the length. -/
theorem length_sub_takeWhile {α : Type} (p : α → Bool) (l : List α) : l.length - (l.takeWhile p).length = (l.dropWhile p).length := by
  have hsplit := congrArg List.length (List.takeWhile_append_dropWhile (p := p) (l := l))
  rw [List.length_append] at hsplit
  omega

/-- Characters without the first one in front stand for a number. -/
theorem value_ne_zero {s : List Char} (hs : ∀ c ∈ s, c ∈ alphabet.chars) (hne : s ≠ []) (hhead : s.head? ≠ some (first alphabet)) :
    Radix.value 58 (s.map (indexOf alphabet)) ≠ 0 := by
  obtain ⟨c, s, rfl⟩ := List.exists_cons_of_ne_nil hne
  have hc : indexOf alphabet c ≠ 0 := by
    intro hzero
    have hchar := charOf_indexOf (hs c List.mem_cons_self)
    rw [hzero, ← first_eq] at hchar
    exact hhead (congrArg some hchar.symm)
  have hpos : 0 < indexOf alphabet c * 58 ^ (s.map (indexOf alphabet)).length :=
    Nat.mul_pos (Nat.pos_of_ne_zero hc) (Nat.pow_pos (by decide))
  rw [List.map_cons, Radix.value_cons]
  omega

/-- The conversion from base 58, without its loops. -/
theorem fromBase58_eq {s : List Char} (hs : ∀ c ∈ s, c ∈ alphabet.chars) (hother : ∃ c ∈ s, c ≠ first alphabet) : fromBase58 s alphabet =
    if (s.takeWhile (· = first alphabet)).length < 2 ^ 31 then
      .ok (List.replicate (s.takeWhile (· = first alphabet)).length 0 ++ read alphabet (s.dropWhile (· = first alphabet)))
    else .error .overflow := by
  rw [fromBase58, skipFirst_eq hother (by decide), Nat.zero_add]
  by_cases hk : (s.takeWhile (· = first alphabet)).length < 2 ^ 31
  · rw [if_pos hk, if_pos hk, ok_bind]
    dsimp only
    rw [length_sub_takeWhile]
    have hmem : ∀ c ∈ s.dropWhile (· = first alphabet), c ∈ alphabet.chars := fun c hc => hs c ((List.dropWhile_sublist _).subset hc)
    obtain ⟨ret, hloop, hdigits⟩ := @convertLoop_zeros 58 256 (by decide) (by decide) Char (digitOf alphabet) (indexOf alphabet)
      (by decide) 733 1000 (by decide) (by decide +kernel) (s.dropWhile (· = first alphabet))
      (fun c hc => digitOf_eq (hmem c hc)) fun c hc => indexOf_lt (hmem c hc)
    have hread : ret.dropWhile (· = 0) = read alphabet (s.dropWhile (· = first alphabet)) := by
      refine map_toNat_injective ?_
      rw [hdigits, map_read]
    have hleft : ret.dropWhile (· = 0) ≠ [] := by
      intro hnil
      rw [hnil, List.map_nil] at hdigits
      have hvalue := congrArg (Radix.value 256) hdigits
      rw [Radix.value_digits, Radix.value_nil] at hvalue
      exact value_ne_zero hmem (Radix.dropWhile_ne_nil hother) (Radix.head_dropWhile _ s) hvalue.symm
    rw [hloop, ok_bind, eraseZeroes_eq hleft, ok_bind, hread]
    rfl
  · rw [if_neg hk, if_neg hk]
    rfl

/-- Of the first character alone, everything is erased, and more. -/
theorem fromBase58_first {s : List Char} (hs : ∀ c ∈ s, c = first alphabet) (d : Bytes) : fromBase58 s alphabet ≠ .ok d := by
  intro h
  obtain ⟨⟨zeroes, index⟩, hskip, h⟩ := bind_eq_ok.mp h
  have hnil : index = [] := skipFirst_all hs hskip
  subst hnil
  obtain ⟨ret, hloop, h⟩ := bind_eq_ok.mp h
  obtain ⟨ret', herase, -⟩ := bind_eq_ok.mp h
  cases hloop
  obtain ⟨hdrop, x, l, hx, -⟩ := eraseZeroes_ok herase
  rw [hx, List.dropWhile_replicate] at hdrop
  simp at hdrop

/-- If the first character is not in front, no zero is put in front. -/
theorem head_fromBase58 {s : List Char} (hs : s.head? ≠ some (first alphabet)) {d : Bytes} (h : fromBase58 s alphabet = .ok d) :
    d.head? ≠ some 0 := by
  obtain ⟨⟨zeroes, index⟩, hskip, h⟩ := bind_eq_ok.mp h
  obtain ⟨ret, -, h⟩ := bind_eq_ok.mp h
  obtain ⟨ret', herase, h⟩ := bind_eq_ok.mp h
  have hnone : zeroes = 0 := by
    cases s with
    | nil =>
      rw [skipFirst] at hskip
      split at hskip
      · cases hskip
      · cases hskip
        rfl
    | cons c s =>
      rw [skipFirst, if_neg fun hc => hs (congrArg some hc)] at hskip
      cases hskip
      rfl
  obtain ⟨-, x, l, rfl, hx⟩ := eraseZeroes_ok herase
  cases h
  rw [hnone]
  simpa using hx

/-! ## There and back -/

/-- What is written has no zero digit in front. -/
theorem head_written {d : Bytes} : (written alphabet d).head? ≠ some (first alphabet) := by
  rw [written, List.head?_map]
  cases hdigits : (Radix.digits 58 (Radix.value 256 (d.map UInt8.toNat))).head? with
  | none => exact nofun
  | some x =>
    have hlt : x < 58 := Radix.lt_of_mem_digits (by decide) (List.mem_of_mem_head? hdigits)
    intro h
    exact Radix.head_digits hdigits ((charOf_eq_first hlt).mp (Option.some.inj h))

/-- What is read has no zero byte in front. -/
theorem head_read {s : List Char} : (read alphabet s).head? ≠ some 0 := by
  intro h
  have hhead := congrArg (Option.map UInt8.toNat) h
  rw [← List.head?_map, map_read] at hhead
  exact Radix.head_digits hhead rfl

/-- Only characters of the alphabet are written. -/
theorem written_mem (d : Bytes) : ∀ c ∈ written alphabet d, c ∈ alphabet.chars := by
  intro c hc
  obtain ⟨x, hx, rfl⟩ := List.mem_map.mp hc
  exact charOf_mem (Radix.lt_of_mem_digits (by decide) hx)

/-- What is written is read again. -/
theorem read_written {d : Bytes} (hd : d.head? ≠ some 0) : read alphabet (written alphabet d) = d := by
  have hindices : (written alphabet d).map (indexOf alphabet) = Radix.digits 58 (Radix.value 256 (d.map UInt8.toNat)) := by
    have hall : ∀ x ∈ Radix.digits 58 (Radix.value 256 (d.map UInt8.toNat)), (indexOf alphabet ∘ charOf alphabet) x = x :=
      fun x hx => indexOf_charOf (Radix.lt_of_mem_digits (by decide) hx)
    rw [written, List.map_map, List.map_congr_left hall, List.map_id']
  have hhead : (d.map UInt8.toNat).head? ≠ some 0 := by
    rw [List.head?_map]
    intro h
    obtain ⟨x, hx, hzero⟩ := Option.map_eq_some_iff.mp h
    have hx0 : x = 0 := UInt8.toNat_inj.mp hzero
    exact hd (by rw [hx, hx0])
  refine map_toNat_injective ?_
  rw [map_read, hindices, Radix.value_digits, Radix.digits_value (by decide) (List.forall_mem_map.mpr fun x _ => x.toNat_lt) hhead]

/-- What is read is written again. -/
theorem written_read {s : List Char} (hs : ∀ c ∈ s, c ∈ alphabet.chars) (hhead : s.head? ≠ some (first alphabet)) :
    written alphabet (read alphabet s) = s := by
  have hfront : (s.map (indexOf alphabet)).head? ≠ some 0 := by
    rw [List.head?_map]
    intro h
    obtain ⟨c, hc, hzero⟩ := Option.map_eq_some_iff.mp h
    have hchar := charOf_indexOf (hs c (List.mem_of_mem_head? hc))
    rw [hzero, ← first_eq] at hchar
    exact hhead (by rw [hc, hchar])
  have hall : ∀ c ∈ s, (charOf alphabet ∘ indexOf alphabet) c = c := fun c hc => charOf_indexOf (hs c hc)
  rw [written, map_read, Radix.value_digits, Radix.digits_value (by decide) (List.forall_mem_map.mpr fun c hc => indexOf_lt (hs c hc)) hfront,
    List.map_map, List.map_congr_left hall, List.map_id']

/-- There is something behind the zeros in front, they can be counted, and they are written as the first character if there are any. -/
def Convertible (alphabet : Base58Alphabet) {α : Type} [DecidableEq α] (zero : α) (l : List α) : Prop :=
  (∃ x ∈ l, x ≠ zero) ∧ (l.takeWhile (· = zero)).length < 2 ^ 31 ∧ (first alphabet = '1' ∨ l.head? ≠ some zero)

/-- The zeros in front are those that are put there. -/
theorem Convertible.ones {α : Type} [DecidableEq α] {zero : α} {l : List α} (h : Convertible alphabet zero l) :
    List.replicate (l.takeWhile (· = zero)).length '1' = List.replicate (l.takeWhile (· = zero)).length (first alphabet) := by
  rcases h.2.2 with hone | hhead
  · rw [hone]
  · have hnone : l.takeWhile (· = zero) = [] := by
      cases l with
      | nil => rfl
      | cons x l => exact List.takeWhile_cons_of_neg fun hx => hhead (congrArg some (of_decide_eq_true hx))
    rw [hnone]
    rfl

/-- A list that starts with what its rest cannot start with has that in front. -/
theorem head_append {α : Type} [DecidableEq α] {z : α} {w : List α} {k : Nat} {x : α} (hw : w.head? ≠ some x)
    (hx : (List.replicate k z ++ w).head? = some x) : 0 < k ∧ x = z := by
  cases k with
  | zero => exact absurd hx hw
  | succ k => exact ⟨Nat.succ_pos k, (Option.some.inj hx).symm⟩

/-- Bytes are read from what is written for them exactly if they can be converted. -/
theorem fromBase58_toBase58 (d : Bytes) :
    (∃ t, toBase58 d alphabet = .ok t ∧ fromBase58 t alphabet = .ok d) ↔ Convertible alphabet 0 d := by
  have hwrite := @toBase58_eq alphabet d
  constructor
  · rintro ⟨t, ht, hd⟩
    have hk : (d.takeWhile (· = 0)).length < 2 ^ 31 := by
      by_contra hk
      rw [hwrite, if_neg hk] at ht
      cases ht
    rw [hwrite, if_pos hk] at ht
    cases ht
    have hone : first alphabet = '1' ∨ d.head? ≠ some 0 := by
      by_contra hnot
      obtain ⟨hne, hzero⟩ := not_or.mp hnot
      refine hzero (head_fromBase58 (fun hhead => hne ?_) hd)
      exact (head_append head_written hhead).2
    refine ⟨?_, hk, hone⟩
    by_contra hnone
    have hall : ∀ x ∈ d, x = 0 := fun x hx => by_contra fun hne => hnone ⟨x, hx, hne⟩
    -- then nothing is written but the zeros in front
    have hnil : d.dropWhile (· = 0) = [] := List.dropWhile_eq_nil_iff.mpr fun x hx => by simpa using hall x hx
    refine fromBase58_first (fun c hc => ?_) d hd
    rw [hnil, show written alphabet [] = [] from rfl, List.append_nil] at hc
    rw [List.eq_of_mem_replicate hc]
    rcases hone with hone | hhead
    · exact hone.symm
    · cases d with
      | nil => cases hc
      | cons x d => exact absurd (congrArg some (hall x List.mem_cons_self)) hhead
  · intro h
    rw [hwrite, if_pos h.2.1, h.ones]
    refine ⟨_, rfl, ?_⟩
    have hback := @read_written alphabet _ (Radix.head_dropWhile 0 d)
    have hmem : ∀ c ∈ List.replicate (d.takeWhile (· = 0)).length (first alphabet) ++ written alphabet (d.dropWhile (· = 0)),
        c ∈ alphabet.chars := by
      intro c hc
      rcases List.mem_append.mp hc with hc | hc
      · rw [List.eq_of_mem_replicate hc, first_eq]
        exact charOf_mem (by decide)
      · exact written_mem _ c hc
    have hother : ∃ c ∈ List.replicate (d.takeWhile (· = 0)).length (first alphabet) ++ written alphabet (d.dropWhile (· = 0)),
        c ≠ first alphabet := by
      cases hw : written alphabet (d.dropWhile (· = 0)) with
      | nil =>
        rw [hw] at hback
        exact absurd hback.symm (Radix.dropWhile_ne_nil h.1)
      | cons c w =>
        refine ⟨c, List.mem_append_right _ List.mem_cons_self, fun hc => ?_⟩
        exact @head_written alphabet (d.dropWhile (· = 0)) (by rw [hw, hc]; rfl)
    obtain ⟨hlength, hdrop⟩ := Radix.takeWhile_zeros (z := first alphabet) (d.takeWhile (· = 0)).length
      (@head_written alphabet (d.dropWhile (· = 0)))
    rw [fromBase58_eq hmem hother, hlength, if_pos h.2.1, hdrop, hback, Radix.zeros_append]

/-- A string is written for what is read from it exactly if it can be converted. -/
theorem toBase58_fromBase58 {s : List Char} (hs : ∀ c ∈ s, c ∈ alphabet.chars) :
    (∃ d, fromBase58 s alphabet = .ok d ∧ toBase58 d alphabet = .ok s) ↔ Convertible alphabet (first alphabet) s := by
  constructor
  · rintro ⟨d, hd, ht⟩
    have hother : ∃ c ∈ s, c ≠ first alphabet := by
      by_contra hnone
      exact fromBase58_first (fun c hc => by_contra fun hne => hnone ⟨c, hc, hne⟩) d hd
    have hread := fromBase58_eq hs hother
    have hk : (s.takeWhile (· = first alphabet)).length < 2 ^ 31 := by
      by_contra hk
      rw [hread, if_neg hk] at hd
      cases hd
    refine ⟨hother, hk, ?_⟩
    by_contra hnot
    obtain ⟨hne, hhead⟩ := not_or.mp hnot
    rw [not_not] at hhead
    rw [toBase58_eq] at ht
    split at ht
    · have hwritten := Except.ok.inj ht
      rw [← hwritten] at hhead
      exact hne (head_append head_written hhead).2
    · cases ht
  · intro h
    have hmem : ∀ c ∈ s.dropWhile (· = first alphabet), c ∈ alphabet.chars := fun c hc => hs c ((List.dropWhile_sublist _).subset hc)
    obtain ⟨hlength, hdrop⟩ := Radix.takeWhile_zeros (z := (0 : UInt8)) (s.takeWhile (· = first alphabet)).length
      (@head_read alphabet (s.dropWhile (· = first alphabet)))
    rw [fromBase58_eq hs h.1, if_pos h.2.1]
    refine ⟨_, rfl, ?_⟩
    rw [toBase58_eq, hlength, if_pos h.2.1, hdrop, written_read hmem (Radix.head_dropWhile _ s), h.ones, Radix.zeros_append]

/-- With any alphabet, bytes are written and read back, and strings are read and written back, exactly if there is something behind the
zeros in front, these can be counted, and they are written with the first character of the alphabet. -/
theorem converts_iff (alphabet : Base58Alphabet) :
    (∀ d : Bytes, (∃ t, toBase58 d alphabet = .ok t ∧ fromBase58 t alphabet = .ok d) ↔
      (∃ x ∈ d, x ≠ 0) ∧ (d.takeWhile (· = 0)).length < 2 ^ 31 ∧ (first alphabet = '1' ∨ d.head? ≠ some 0)) ∧
    ∀ s : List Char, (∀ c ∈ s, c ∈ alphabet.chars) →
      ((∃ d, fromBase58 s alphabet = .ok d ∧ toBase58 d alphabet = .ok s) ↔
        (∃ c ∈ s, c ≠ first alphabet) ∧ (s.takeWhile (· = first alphabet)).length < 2 ^ 31 ∧
          (first alphabet = '1' ∨ s.head? ≠ some (first alphabet))) :=
  ⟨fromBase58_toBase58, fun _ => toBase58_fromBase58⟩

theorem converts_iff_sample : (∃ t, toBase58 [0, 1] AlphabetIPFS = .ok t ∧ fromBase58 t AlphabetIPFS = .ok [0, 1]) ∧
    ∃ d, fromBase58 ['1', '2'] AlphabetFlickr = .ok d ∧ toBase58 d AlphabetFlickr = .ok ['1', '2'] := by
  have hbytes := (converts_iff AlphabetIPFS).1 [0, 1]
  have hchars : ∀ c ∈ ['1', '2'], c ∈ AlphabetFlickr.chars :=
    List.forall_mem_cons.mpr ⟨by decide, List.forall_mem_singleton.mpr (by decide)⟩
  have hstring := (converts_iff AlphabetFlickr).2 ['1', '2'] hchars
  exact ⟨hbytes.mpr (by decide), hstring.mpr ⟨⟨'2', by decide, by decide⟩, by decide, by decide⟩⟩

/-- The empty byte string is written, and what is written for it is read behind the end of a buffer. -/
theorem not_converts : ¬ ∀ d : Bytes, ∃ t, toBase58 d AlphabetIPFS = .ok t ∧ fromBase58 t AlphabetIPFS = .ok d := by
  intro h
  obtain ⟨t, ht, hd⟩ := h []
  have hwritten : toBase58 [] AlphabetIPFS = .ok [] := by decide +kernel
  rw [hwritten] at ht
  cases ht
  have hread : fromBase58 [] AlphabetIPFS = .error .outOfBounds := by decide +kernel
  rw [hread] at hd
  cases hd

end Base58

end Webthree
