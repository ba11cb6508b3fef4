import Webthree.Lemmas.Iban

/-!
# ICAP and Iban

The two implementations agree on the strings of addresses and of names.
-/

namespace Webthree

open Web3 Iban

/-- An address, as forty hexadecimal digits. -/
def hexAddress (a : Address) : List Char := padLeft (numeral 16 a.toNat) 20

section

variable {d : List Char} (hd : d.all isUpperOrDigit = true)

include hd

/-- The parts of a string with check digits. -/
theorem iban_parts : ∃ c, ICAP.iban ['X', 'E'] d = ['X', 'E'] ++ c ++ d ∧ c.length = 2 ∧ c.all Char.isDigit = true := by
  obtain ⟨hlen, hdigits, -⟩ := checkDigits_spec (checkNumber d)
  exact ⟨checkDigits (checkNumber d), iban_eq hd, hlen, hdigits⟩

theorem length_iban : (ICAP.iban ['X', 'E'] d).length = 4 + d.length := by
  obtain ⟨c, hc, hlen, -⟩ := iban_parts hd
  rw [hc, List.length_append, List.length_append, hlen]
  rfl

theorem drop_iban : (ICAP.iban ['X', 'E'] d).drop 4 = d := by
  obtain ⟨c, hc, hlen, -⟩ := iban_parts hd
  rw [hc]
  exact List.drop_left' (by rw [List.length_append, hlen]; rfl)

/-- The country and the data are found again. -/
theorem fromIBAN_iban : ICAP.fromIBAN (ICAP.iban ['X', 'E'] d) = (['X', 'E'], d) := by
  have hlength := length_iban hd
  have hdrop := drop_iban hd
  obtain ⟨c, hc, hlen, hdigits⟩ := iban_parts hd
  have hupper : toUpper (ICAP.iban ['X', 'E'] d) = ICAP.iban ['X', 'E'] d := by
    refine toUpper_of_all ?_
    have hall : c.all isUpperOrDigit = true :=
      List.all_eq_true.mpr fun x hx => by rw [isUpperOrDigit, List.all_eq_true.mp hdigits x hx]; rfl
    rw [hc, List.all_append, List.all_append, hd, hall]
    rfl
  have htake : (ICAP.iban ['X', 'E'] d).take 2 = ['X', 'E'] := by
    rw [hc]
    rfl
  rw [ICAP.fromIBAN, if_neg (by omega), hupper]
  dsimp only
  rw [htake, hdrop, if_neg (not_not_intro rfl)]

/-- Data of the right length has the form that `isValid` asks for, and the right check digits. -/
theorem isValid_iban (hlen : d.length = 30 ∨ d.length = 31) : (Iban.mk (ICAP.iban ['X', 'E'] d)).isValid = true := by
  have hdrop := drop_iban hd
  obtain ⟨c, hc, hclen, hdigits⟩ := iban_parts hd
  have hcheck : ((ICAP.iban ['X', 'E'] d).drop 2).take 2 = c := by
    rw [hc]
    exact List.take_left' hclen
  have hcountry : (ICAP.iban ['X', 'E'] d).take 2 = ['X', 'E'] := by
    rw [hc]
    rfl
  rw [isValid, hasForm]
  dsimp only
  rw [mod9710_iban hd, hdrop, hcheck, hcountry, hclen, hdigits, hd]
  rcases hlen with hlen | hlen
  · simp [hlen]
  · simp [hlen]

end

section

variable (a : Address)

/-- The data of an address. -/
def bban : List Char := (toBase36 a.toNat).leftpad 30 '0'

theorem all_bban : (bban a).all isUpperOrDigit = true := by
  rw [bban, List.leftpad, List.all_append, all_toBase36, Bool.and_true, List.all_eq_true]
  intro c hc
  rw [List.eq_of_mem_replicate hc]
  rfl

theorem length_bban : (bban a).length = 30 ∨ (bban a).length = 31 := by
  have hle : (toBase36 a.toNat).length ≤ 31 := by
    rw [toBase36_eq, List.length_map]
    exact (length_digitsOf_le_iff (by decide) 31).mpr (lt_of_lt_of_le a.isLt (by decide))
  rw [bban, List.leftpad, List.length_append, List.length_replicate]
  omega

theorem numberOf_bban : numberOf 36 (bban a) = a.toNat := by
  rw [bban, List.leftpad, numberOf_zeros, numberOf_toBase36]

theorem bigNumber_bban : bigNumber (bban a) 36 = some a.toNat := by
  have hdigits : (bban a).all (isDigitIn 36) = true := by
    refine List.all_eq_true.mpr fun c hc => ?_
    exact isDigitIn_of_upperOrDigit (List.all_eq_true.mp (all_bban a) c hc)
  have hne : bban a ≠ [] := by
    intro h
    have := length_bban a
    rw [h] at this
    simp at this
  rw [bigNumber, if_neg (by simp), ofNumeral, if_pos ⟨hne, hdigits⟩, numberOf_bban]

theorem bigNumber_hexAddress : bigNumber (hexAddress a) 16 = some a.toNat ∧ bigNumber (['0', 'x'] ++ hexAddress a) 16 = some a.toNat := by
  have hread : ofNumeral 16 (hexAddress a) = some a.toNat := ofNumeral_leftpad (by decide) (by decide) 40 a.toNat
  refine ⟨?_, ?_⟩
  · rw [bigNumber, if_neg, hread]
    rintro ⟨-, hprefix⟩
    obtain ⟨c, hc, hx⟩ := List.mem_map.mp ( hprefix ▸ List.mem_cons_of_mem _ List.mem_cons_self : 'x' ∈ ((hexAddress a).take 2).map Char.toLower)
    obtain ⟨d, hd, rfl⟩ : ∃ d < 16, c = digitChar d := by
      rcases List.mem_append.mp (List.mem_of_mem_take hc) with hc | hc
      · exact ⟨0, by decide, List.eq_of_mem_replicate hc⟩
      · exact digit_of_mem_numeral (by decide) hc
    have hhex : ∀ d < 16, (digitChar d).toLower ≠ 'x' := by decide
    exact hhex d hd hx
  · rw [bigNumber, if_pos ⟨rfl, rfl⟩]
    exact hread

end

namespace ICAP

theorem decoded_iban_address (a : Address) : decoded (iban ['X', 'E'] (bban a)) = some (direct a) := by
  have hlen := length_bban a
  have hread : fromBase36 (bban a) = a := by
    rw [fromBase36_eq (all_bban a), numberOf_bban]
    exact (BitVec.ofNat_toNat 160 a).trans (BitVec.setWidth_eq a)
  rw [decoded, fromIBAN_iban (all_bban a)]
  dsimp only
  rw [if_neg (not_not_intro rfl), if_pos hlen, hread]
  rfl

/-- The names that `encoded` accepts, in upper case. -/
theorem all_names {s : List Char} (hs : (s.all fun c => nameChars.contains c) = true) : (toUpper s).all isUpperOrDigit = true := by
  have hname : nameChars.all (fun c => isUpperOrDigit c.toUpper) = true := by decide
  rw [toUpper, List.all_map, List.all_eq_true]
  intro c hc
  exact List.all_eq_true.mp hname c (List.contains_iff_mem.mp (List.all_eq_true.mp hs c hc))

theorem iban_toUpper (c : List Char) {d : List Char} (hd : (toUpper d).all isUpperOrDigit = true) : iban c (toUpper d) = iban c d := by
  rw [iban, iban, toUpper_of_all hd]

/-- What `encoded` asks of names. -/
theorem encoded_indirect {i : ICAP} (hi : i.m_type = .Indirect) {s : List Char} (hs : i.encoded = some s) :
    s = iban ['X', 'E'] (toUpper (i.m_asset ++ i.m_institution ++ i.m_client)) ∧
      (toUpper (i.m_asset ++ i.m_institution ++ i.m_client)).all isUpperOrDigit = true ∧
      (toUpper i.m_asset = ['X', 'E', 'T'] ∨ toUpper i.m_asset = ['E', 'L', 'E']) ∧
      i.m_asset.length = 3 ∧ i.m_institution.length = 4 ∧ i.m_client.length = 9 := by
  rw [encoded, hi] at hs
  dsimp only at hs
  split at hs
  · cases hs
  · rename_i hguard
    cases hs
    simp only [Bool.or_eq_true, Bool.not_eq_true', Bool.and_eq_true, decide_eq_true_eq, not_or, not_and_or, Bool.not_eq_false, not_not]
      at hguard
    obtain ⟨⟨⟨⟨⟨⟨ha, hn⟩, hc⟩, hal⟩, hasset⟩, hnl⟩, hcl⟩ := hguard
    have hall : (toUpper (i.m_asset ++ i.m_institution ++ i.m_client)).all isUpperOrDigit = true := by
      refine all_names ?_
      rw [List.all_append, List.all_append, ha, hn, hc]
      rfl
    exact ⟨(iban_toUpper _ hall).symm, hall, hasset, hal, hnl, hcl⟩

/-- The names are found again in the string. -/
theorem decoded_iban_names {a n c : List Char} (hall : (a ++ n ++ c).all isUpperOrDigit = true)
    (hasset : a = ['X', 'E', 'T'] ∨ a = ['E', 'L', 'E']) (hn : n.length = 4) (hc : c.length = 9) :
    decoded (iban ['X', 'E'] (a ++ n ++ c)) = some { m_type := .Indirect, m_asset := a, m_institution := n, m_client := c } := by
  have ha : a.length = 3 := by
    rcases hasset with rfl | rfl
    · rfl
    · rfl
  have hlen : (a ++ n ++ c).length = 16 := by
    rw [List.length_append, List.length_append, ha, hn, hc]
  have htake : (a ++ n ++ c).take 3 = a := by
    rw [List.append_assoc]
    exact List.take_left' ha
  have hmid : ((a ++ n ++ c).drop 3).take 4 = n := by
    rw [List.append_assoc, List.drop_left' ha]
    exact List.take_left' hn
  have hdrop : (a ++ n ++ c).drop 7 = c := List.drop_left' (by rw [List.length_append, ha, hn])
  rw [decoded, fromIBAN_iban hall]
  dsimp only
  rw [if_neg (not_not_intro rfl), if_neg (by omega), if_pos hlen, htake, if_pos hasset, hmid, hdrop]

end ICAP

/-- The names stand in the same places for both sides. -/
theorem names_iban {a n c : List Char} (hall : (a ++ n ++ c).all isUpperOrDigit = true) (ha : a.length = 3) (hn : n.length = 4)
    (hc : c.length = 9) :
    (Iban.mk (ICAP.iban ['X', 'E'] (a ++ n ++ c))).institution = n ∧ (Iban.mk (ICAP.iban ['X', 'E'] (a ++ n ++ c))).client = c := by
  have hlen : (a ++ n ++ c).length = 16 := by
    rw [List.length_append, List.length_append, ha, hn, hc]
  have hindirect : (Iban.mk (ICAP.iban ['X', 'E'] (a ++ n ++ c))).isIndirect = true := by
    rw [isIndirect, length_iban hall, hlen]
    rfl
  have hdrop : ∀ k, (ICAP.iban ['X', 'E'] (a ++ n ++ c)).drop (4 + k) = (a ++ n ++ c).drop k := fun k => by
    rw [← List.drop_drop, drop_iban hall]
  refine ⟨?_, ?_⟩
  · rw [institution, if_pos hindirect, hdrop 3, List.append_assoc, List.drop_left' ha]
    exact List.take_left' hn
  · rw [client, if_pos hindirect, hdrop 7]
    exact List.drop_left' (by rw [List.length_append, ha, hn])

open ICAP in
/-- The string of a direct ICAP address is that of the Iban, is valid, and gives the address back on both sides; the loop over blocks
of digits gives the remainder of the number; and the names of an indirect ICAP address come back from its string in upper case. -/
theorem icap_iban_agree :
    (∀ a : Address, ∃ s, (direct a).encoded = some s ∧ Iban.fromAddress (hexAddress a) = some ⟨s⟩ ∧
      Iban.fromAddress (['0', 'x'] ++ hexAddress a) = some ⟨s⟩ ∧ decoded s = some (direct a) ∧ (Iban.mk s).address = some (hexAddress a) ∧
      (Iban.mk s).isValid = true) ∧
    (∀ s n, ofNumeral 10 s = some n → mod9710 s = some (n % 97)) ∧
    ∀ i : ICAP, i.m_type = .Indirect → ∀ s, i.encoded = some s →
      decoded s = some { m_type := .Indirect, m_asset := toUpper i.m_asset, m_institution := toUpper i.m_institution
                         m_client := toUpper i.m_client } ∧
        (Iban.mk s).institution = toUpper i.m_institution ∧ (Iban.mk s).client = toUpper i.m_client := by
  refine ⟨fun a => ?_, fun s n hs => ?_, fun i hi s hs => ?_⟩
  · have hfrom : ∀ t, bigNumber t 16 = some a.toNat → Iban.fromAddress t = some ⟨iban ['X', 'E'] (bban a)⟩ := fun t ht => by
      rw [Iban.fromAddress, ht]
      exact (congrArg fromBban (padLeft_numeral a.toNat)).trans (fromBban_eq (all_bban a))
    have hdirect : (Iban.mk (iban ['X', 'E'] (bban a))).isDirect = true := by
      have hlen := length_iban (all_bban a)
      rw [isDirect, hlen]
      rcases length_bban a with h | h
      · rw [h]
        rfl
      · rw [h]
        rfl
    refine ⟨iban ['X', 'E'] (bban a), rfl, hfrom _ (bigNumber_hexAddress a).1, hfrom _ (bigNumber_hexAddress a).2,
      decoded_iban_address a, ?_, isValid_iban (all_bban a) (length_bban a)⟩
    rw [Iban.address, if_pos hdirect, drop_iban (all_bban a), bigNumber_bban]
    rfl
  · rw [ofNumeral] at hs
    split at hs
    · rename_i h
      cases hs
      exact mod9710_eq h.1 h.2
    · cases hs
  · obtain ⟨rfl, hall, hasset, ha, hn, hc⟩ := encoded_indirect hi hs
    have hlen : ∀ t, (toUpper t).length = t.length := fun t => List.length_map _
    have hsplit : toUpper (i.m_asset ++ i.m_institution ++ i.m_client) = toUpper i.m_asset ++ toUpper i.m_institution ++ toUpper i.m_client := by
      rw [toUpper, List.map_append, List.map_append]
      rfl
    rw [hsplit] at hall ⊢
    exact ⟨decoded_iban_names hall hasset (by rw [hlen, hn]) (by rw [hlen, hc]),
      names_iban hall (by rw [hlen, ha]) (by rw [hlen, hn]) (by rw [hlen, hc])⟩

open ICAP in
theorem icap_iban_agree_sample :
    mod9710 ['9', '8', '7'] = some (987 % 97) ∧
    ∃ s, ({ m_type := .Indirect, m_asset := "XET".toList, m_institution := "xreg".toList, m_client := "gavofyork".toList } : ICAP).encoded = some s ∧
      decoded s = some { m_type := .Indirect, m_asset := "XET".toList, m_institution := "XREG".toList, m_client := "GAVOFYORK".toList } ∧
      (Iban.mk s).institution = "XREG".toList ∧ (Iban.mk s).client = "GAVOFYORK".toList :=
  ⟨icap_iban_agree.2.1 _ _ (by decide), _, rfl,
    icap_iban_agree.2.2
      { m_type := .Indirect, m_asset := "XET".toList, m_institution := "xreg".toList, m_client := "gavofyork".toList } rfl _ rfl⟩

end Webthree
