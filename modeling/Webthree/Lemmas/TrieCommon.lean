import Webthree.Trie.TrieCommon

/-!
# Hex-prefix keys

The three ways of writing a key agree, and `keyOf` and `isLeaf` read back what was written.
-/

namespace Webthree

/-- A key in hex-prefix notation. -/
def hexPrefix (k : List Nibble) (leaf : Bool) : Bytes := hexPrefixEncodeVector k leaf 0 k.length

theorem highNibble_packNibbles : ∀ a b : Nibble, highNibble (packNibbles a b) = a := by decide

theorem lowNibble_packNibbles : ∀ a b : Nibble, lowNibble (packNibbles a b) = b := by decide

theorem or_low : ∀ a b : Nibble, UInt8.ofNat (a.val * 16) ||| UInt8.ofNat b.val = packNibbles a b := by decide

theorem asNibbles_append (a b : Bytes) : asNibbles (a ++ b) = asNibbles a ++ asNibbles b := by
  induction a with
  | nil => rfl
  | cons x a ih => simp [asNibbles, ih]

theorem length_asNibbles (b : Bytes) : (asNibbles b).length = 2 * b.length := by
  induction b with
  | nil => rfl
  | cons x b ih =>
    simp only [asNibbles, List.length_cons, ih]
    omega

theorem nibbles_inj : ∀ x y : UInt8, highNibble x = highNibble y → lowNibble x = lowNibble y → x = y := by
  intro x y h1 h2
  have hx : x.toNat / 16 < 16 := by have := x.toNat_lt; omega
  have hy : y.toNat / 16 < 16 := by have := y.toNat_lt; omega
  have h1' := congrArg Fin.val h1
  have h2' := congrArg Fin.val h2
  simp only [highNibble, lowNibble, Fin.val_ofNat, Nat.mod_eq_of_lt hx, Nat.mod_eq_of_lt hy, Nat.mod_mod] at h1' h2'
  exact UInt8.toNat_inj.mp (by omega)

theorem asNibbles_injective : Function.Injective asNibbles := by
  intro a
  induction a with
  | nil =>
    intro b h
    cases b with
    | nil => rfl
    | cons y b => simp [asNibbles] at h
  | cons x a ih =>
    intro b h
    cases b with
    | nil => simp [asNibbles] at h
    | cons y b =>
      simp only [asNibbles, List.cons.injEq] at h
      rw [nibbles_inj x y h.1 h.2.1, ih h.2.2]

/-- Reading back whole bytes. -/
theorem asNibbles_packAll {s : List Nibble} (h : s.length % 2 = 0) : asNibbles (packAll s) = s := by
  induction s using packAll.induct with
  | case1 a b s ih =>
    rw [packAll, asNibbles, highNibble_packNibbles, lowNibble_packNibbles, ih]
    simp only [List.length_cons] at h
    omega
  | case2 s hs =>
    match s with
    | [] => rfl
    | [a] => simp at h
    | a :: b :: s => exact absurd rfl (hs a b s)

/-! ## Writing -/

/-- The loop of `hexPrefixEncode` over an even number of nibbles, from an even place. -/
theorem foldl_pushNibble {s : List Nibble} (h : s.length % 2 = 0) (ret : Bytes) {d : Nat} (hd : d % 2 = 0) :
    (s.foldl pushNibble (ret, d)).1 = ret ++ packAll s := by
  induction s using packAll.induct generalizing ret d with
  | case1 a b s ih =>
    have hd' : ¬d % 2 = 1 := by omega
    have hd'' : (d + 1) % 2 = 1 := by omega
    simp only [List.length_cons] at h
    simp only [List.foldl_cons, pushNibble, if_neg hd', if_pos hd'']
    rw [ih (by omega) _ (by omega), List.dropLast_concat, List.getLastD_concat, or_low]
    simp [packAll]
  | case2 s hs =>
    match s with
    | [] => simp [packAll]
    | [a] => simp at h
    | a :: b :: s => exact absurd rfl (hs a b s)

/-- The loop over any key, from the flags on. -/
theorem foldl_pushNibble_flags (s : List Nibble) (leaf : Bool) :
    (s.foldl pushNibble ([hexPrefixFlags leaf (s.length % 2 = 1)], if s.length % 2 = 1 then 1 else 2)).1 =
      hexPrefix s leaf := by
  unfold hexPrefix hexPrefixEncodeVector
  rw [List.take_length, List.drop_zero]
  cases s with
  | nil => rfl
  | cons n s =>
    by_cases h : (n :: s).length % 2 = 1
    · have hs : s.length % 2 = 0 := by
        simp only [List.length_cons] at h
        omega
      have hn : (n :: s).length % 2 ≠ 0 := by omega
      simp only [h, decide_true, if_pos]
      rw [List.foldl_cons]
      have hp : pushNibble ([hexPrefixFlags leaf true], 1) n = ([hexPrefixFlags leaf true ||| UInt8.ofNat n.val], 2) := rfl
      rw [hp, foldl_pushNibble hs _ rfl]
      rfl
    · have hn : ¬(n :: s).length % 2 ≠ 0 := by omega
      have h0 : (n :: s).length % 2 = 0 := by omega
      simp only [h0, reduceIte, ne_eq, not_true_eq_false, zero_ne_one, decide_false]
      rw [foldl_pushNibble h0 _ rfl]
      rfl

theorem hexPrefixEncode_eq (s : NibbleSlice) (leaf : Bool) (b e : Nat) :
    hexPrefixEncode s leaf b e = hexPrefix ((s.take e).drop b) leaf :=
  foldl_pushNibble_flags ((s.take e).drop b) leaf

theorem hexPrefixEncode_all (s : NibbleSlice) (leaf : Bool) : hexPrefixEncode s leaf 0 s.length = hexPrefix s leaf := by
  rw [hexPrefixEncode_eq, List.take_length, List.drop_zero]

theorem hexPrefixEncode₂_eq (s1 s2 : NibbleSlice) (leaf : Bool) : hexPrefixEncode₂ s1 s2 leaf = hexPrefix (s1 ++ s2) leaf := by
  rw [← foldl_pushNibble_flags]
  simp only [hexPrefixEncode₂, List.foldl_append, List.length_append]

theorem hexPrefixEncodeVector_eq (s : List Nibble) (leaf : Bool) (b e : Nat) :
    hexPrefixEncodeVector s leaf b e = hexPrefix ((s.take e).drop b) leaf := by
  unfold hexPrefix
  conv_rhs => unfold hexPrefixEncodeVector
  rw [List.take_length, List.drop_zero]
  rfl

/-! ## Reading -/

theorem hexPrefixFlags_odd : ∀ (leaf : Bool) (n : Nibble),
    (hexPrefixFlags leaf true ||| UInt8.ofNat n.val) &&& 0x10 ≠ 0 ∧
      lowNibble (hexPrefixFlags leaf true ||| UInt8.ofNat n.val) = n ∧
      (((hexPrefixFlags leaf true ||| UInt8.ofNat n.val) &&& 0x20 ≠ 0) ↔ leaf = true) := by decide

theorem hexPrefixFlags_even : ∀ leaf : Bool,
    hexPrefixFlags leaf false &&& 0x10 = 0 ∧ ((hexPrefixFlags leaf false &&& 0x20 ≠ 0) ↔ leaf = true) := by decide

/-- A key in hex-prefix notation is the flags and the nibbles. -/
theorem hexPrefix_cases (k : List Nibble) (leaf : Bool) :
    (k.length % 2 = 0 ∧ hexPrefix k leaf = hexPrefixFlags leaf false :: packAll k) ∨
      (∃ n s, k = n :: s ∧ s.length % 2 = 0 ∧
        hexPrefix k leaf = (hexPrefixFlags leaf true ||| UInt8.ofNat n.val) :: packAll s) := by
  unfold hexPrefix hexPrefixEncodeVector
  rw [List.take_length, List.drop_zero]
  cases k with
  | nil => exact Or.inl ⟨rfl, rfl⟩
  | cons n s =>
    dsimp only
    split
    · next h =>
      refine Or.inr ⟨n, s, rfl, ?_, rfl⟩
      simp only [List.length_cons] at h
      omega
    · next h => exact Or.inl ⟨by omega, rfl⟩

/-- `keyOf` reads the key. -/
theorem keyOfBytes_hexPrefix (k : List Nibble) (leaf : Bool) : keyOfBytes (hexPrefix k leaf) = k := by
  rcases hexPrefix_cases k leaf with ⟨hk, h⟩ | ⟨n, s, rfl, hs, h⟩
  · rw [h]
    simp [keyOfBytes, (hexPrefixFlags_even leaf).1, NibbleSlice.ofBytes, asNibbles, asNibbles_packAll hk]
  · obtain ⟨h1, h2, -⟩ := hexPrefixFlags_odd leaf n
    rw [h, keyOfBytes]
    simp only [if_pos h1]
    simp [NibbleSlice.ofBytes, asNibbles, h2, asNibbles_packAll hs]

/-- `isLeaf` reads the flag. -/
theorem hexPrefix_leaf (k : List Nibble) (leaf : Bool) : ((hexPrefix k leaf).headD 0 &&& 0x20 ≠ 0) ↔ leaf = true := by
  rcases hexPrefix_cases k leaf with ⟨hk, h⟩ | ⟨n, s, rfl, hs, h⟩
  · rw [h]
    exact (hexPrefixFlags_even leaf).2
  · rw [h]
    exact (hexPrefixFlags_odd leaf n).2.2

/-! ## Slices -/

theorem NibbleSlice.contains_iff (s k : NibbleSlice) : s.contains k = true ↔ k <+: s := by
  rw [contains, decide_eq_true_iff]
  exact sharedLength_eq_length_iff s k

theorem NibbleSlice.eq_iff (s k : NibbleSlice) : s.eq k = true ↔ s = k := by
  rw [eq, Bool.and_eq_true, decide_eq_true_iff, decide_eq_true_iff]
  constructor
  · rintro ⟨h1, h2⟩
    exact (((sharedLength_eq_length_iff s k).mp h2).eq_of_length h1).symm
  · rintro rfl
    exact ⟨rfl, (sharedLength_eq_length_iff s s).mpr (List.prefix_refl s)⟩

end Webthree
