import Webthree.Lemmas.SolidityParams

/-!
# Static arrays of words

For parameters that have no dynamic part, the positions where the decoder reads depend on the types only. Where one of them is before
the position of its word, there are values that do not come back: zeros everywhere else, and a mark in this word.
-/

namespace Webthree.Web3

namespace Solidity

namespace Base

/-- The types of one word, or of the first bytes of one. -/
def IsCell : Base → Prop
  | uint _ => True
  | address => True
  | bool => True
  | fixedBytes size => 1 ≤ size ∧ size ≤ 32
  | _ => False

/-- The value that is written as zeros. -/
def zero : Base → Value
  | address => hex (List.replicate 40 '0')
  | bool => .bool false
  | fixedBytes size => hex (List.replicate (2 * size) '0')
  | _ => .num 0

/-- A value that has something else in its last byte, or in its first one. -/
def mark : Base → Value
  | address => hex (List.replicate 39 '0' ++ ['1'])
  | bool => .bool true
  | fixedBytes size => hex ('f' :: List.replicate (2 * size - 1) '0')
  | _ => .num 1

/-- What is written for the mark. -/
def markWord : Base → List Char
  | fixedBytes _ => 'f' :: List.replicate 63 '0'
  | _ => List.replicate 63 '0' ++ ['1']

end Base

/-- The number of words of an array. -/
def cells : List (Option Nat) → Nat
  | [] => 1
  | d :: ds => d.getD 1 * cells ds

namespace Ty

/-- Static arrays of words, with one item at least in each dimension. -/
structure IsStatic (ty : Ty) : Prop where
  base : ty.base.IsCell
  dims : ∀ d ∈ ty.dims, ∃ k, d = some k ∧ 1 ≤ k ∧ k < 2 ^ 32

end Ty

/-- Zeros are hex digits. -/
theorem hexDigits_zeros (n : Nat) : HexDigits (List.replicate n '0') := fun _ hc => ⟨0, by decide, List.eq_of_mem_replicate hc⟩

namespace Base.IsCell

variable {p : Packages} {b : Base} (hb : b.IsCell)

include hb

/-- The elementary type is one that can be encoded. -/
theorem valid : b.Valid := by
  cases b with
  | fixedBytes size => exact hb
  | _ => trivial

/-- The elementary type is not dynamic. -/
theorem static : b.solidityType.isDynamicType = false := by
  cases b with
  | bytes => exact absurd hb id
  | string => exact absurd hb id
  | _ => rfl

/-- Every value of the type is kept exactly by its formatters. -/
theorem exact (v : Value) : b.Exact p v := by
  cases b with
  | int bits => exact absurd hb id
  | real whole part => exact absurd hb id
  | ureal whole part => exact absurd hb id
  | _ => trivial

/-- Zero is a value of the type. -/
theorem has_zero : b.Has b.zero := by
  cases b with
  | address => exact ⟨_, rfl, hexDigits_zeros 40, rfl⟩
  | bool => exact ⟨false, rfl⟩
  | uint bits => exact ⟨0, rfl, by decide⟩
  | fixedBytes size => exact ⟨_, rfl, hexDigits_zeros _, List.length_replicate⟩
  | _ => exact absurd hb id

/-- The mark is a value of the type. -/
theorem has_mark : b.Has b.mark := by
  cases b with
  | address =>
    refine ⟨_, rfl, fun c hc => ?_, rfl⟩
    rcases List.mem_append.mp hc with hc | hc
    · exact hexDigits_zeros 39 c hc
    · exact ⟨1, by decide, List.mem_singleton.mp hc⟩
  | bool => exact ⟨true, rfl⟩
  | uint bits => exact ⟨1, by rw [Nat.cast_one]; rfl, by decide⟩
  | fixedBytes size =>
    refine ⟨_, rfl, fun c hc => ?_, ?_⟩
    · rcases List.mem_cons.mp hc with rfl | hc
      · exact ⟨15, by decide, by decide⟩
      · exact hexDigits_zeros _ c hc
    · have := hb.1
      rw [List.length_cons, List.length_replicate]
      omega
  | _ => exact absurd hb id

/-- Zero is written as a word of zeros. -/
theorem input_zero : b.solidityType.inputFormatter p b.zero = some (List.replicate 64 '0') := by
  cases b with
  | address => rfl
  | bool => rfl
  | uint bits => rfl
  | fixedBytes size =>
    have hlen : (List.replicate (2 * size) '0').length = 2 * size := List.length_replicate
    refine (formatInputBytes_hex hb.1 hb.2 hlen).trans ?_
    rw [hlen, List.replicate_append_replicate, Nat.add_sub_of_le (by have := hb.2; omega)]
  | _ => exact absurd hb id

/-- The mark is written as its word. -/
theorem input_mark : b.solidityType.inputFormatter p b.mark = some b.markWord := by
  cases b with
  | address => rfl
  | bool => rfl
  | uint bits => rfl
  | fixedBytes size =>
    obtain ⟨h1, h32⟩ := hb
    have hlen : ('f' :: List.replicate (2 * size - 1) '0').length = 2 * size := by
      rw [List.length_cons, List.length_replicate]
      omega
    have hzeros : 2 * size - 1 + (64 - 2 * size) = 63 := by omega
    refine (formatInputBytes_hex h1 h32 hlen).trans ?_
    rw [hlen, List.cons_append, List.replicate_append_replicate, hzeros]
    rfl
  | _ => exact absurd hb id

/-- Before the word of the mark, something else is read. -/
theorem misread {P Q : Nat} (hQ : Q < P) (rest : List Char) :
    b.solidityType.outputFormatter p (substr (List.replicate (P * 2) '0' ++ (b.markWord ++ rest)) (some (Q * 2)) (b.unit * 2)) ≠
      some b.mark := by
  have hdrop : (List.replicate (P * 2) '0' ++ (b.markWord ++ rest)).drop (Q * 2) =
      List.replicate (P * 2 - Q * 2) '0' ++ (b.markWord ++ rest) := by
    rw [List.drop_append_of_le_length (by rw [List.length_replicate]; omega), List.drop_replicate]
  -- in front of a mark in the last byte there is a word of zeros
  have hzeros : List.take 64 (List.replicate (P * 2 - Q * 2) '0' ++ (List.replicate 63 '0' ++ ['1'] ++ rest)) = List.replicate 64 '0' := by
    rw [List.append_assoc, ← List.append_assoc, List.replicate_append_replicate,
      List.take_append_of_le_length (by rw [List.length_replicate]; omega), List.take_replicate, Nat.min_eq_left (by omega)]
  rw [substr, Option.getD_some, hdrop]
  cases b with
  | address =>
    change SolidityType.outputFormatter p .address (List.take 64 (List.replicate (P * 2 - Q * 2) '0' ++ (List.replicate 63 '0' ++ ['1'] ++ rest))) ≠ _
    rw [hzeros]
    intro h
    exact absurd (Value.str.inj (Option.some.inj h)) (by decide)
  | bool =>
    change SolidityType.outputFormatter p .bool (List.take 64 (List.replicate (P * 2 - Q * 2) '0' ++ (List.replicate 63 '0' ++ ['1'] ++ rest))) ≠ _
    rw [hzeros]
    intro h
    exact absurd (Value.bool.inj (Option.some.inj h)) (by decide)
  | uint bits =>
    change SolidityType.outputFormatter p .uint (List.take 64 (List.replicate (P * 2 - Q * 2) '0' ++ (List.replicate 63 '0' ++ ['1'] ++ rest))) ≠ _
    rw [hzeros]
    intro h
    have h0 : (0 : ℚ) = 1 := Value.num.inj (Option.some.inj h)
    exact absurd h0 (by norm_num)
  | fixedBytes size =>
    obtain ⟨n, hn⟩ : ∃ n, P * 2 - Q * 2 = n + 1 := ⟨P * 2 - Q * 2 - 1, by omega⟩
    obtain ⟨m, hm⟩ : ∃ m, size * 2 = m + 1 := ⟨size * 2 - 1, by have := hb.1; omega⟩
    rw [Base.unit, hn, List.replicate_succ, List.cons_append, hm, List.take_succ_cons]
    intro h
    have hstr := Value.str.inj (Option.some.inj h)
    rw [List.cons.injEq, List.cons.injEq, List.cons.injEq] at hstr
    exact absurd hstr.2.2.1 (by decide)
  | _ => exact absurd hb id

end Base.IsCell

/-! ## What is written -/

/-- The words of a static array, one behind the other. -/
def spell (p : Packages) (b : Base) : List (Option Nat) → Value → List Char
  | [], v => (b.solidityType.inputFormatter p v).getD []
  | _ :: ds, .arr items => (items.map (spell p b ds)).flatten
  | _ :: _, _ => []

/-- Lists whose elements are related by a function are images of each other. -/
theorem eq_map_of_forall₂ {α β : Type} {P : α → β → Prop} {f : α → β} {l : List α} {m : List β}
    (h : List.Forall₂ (fun a b => P a b ∧ b = f a) l m) : m = l.map f := by
  induction h with
  | nil => rfl
  | cons h _ ih => rw [List.map_cons, h.2, ih]

/-- The element type of a static array is static. -/
theorem Ty.IsStatic.nested {b : Base} {d : Option Nat} {ds : List (Option Nat)} (h : (Ty.mk b (d :: ds)).IsStatic) :
    (Ty.mk b ds).IsStatic := ⟨h.base, fun d hd => h.dims d (List.mem_cons_of_mem _ hd)⟩

/-- A static type is not an array of dynamic length. -/
theorem Ty.IsStatic.head {b : Base} {ds : List (Option Nat)} (h : (Ty.mk b ds).IsStatic) : ds.head? ≠ some none := by
  intro hhead
  obtain ⟨k, hk, -⟩ := h.dims none (List.mem_of_mem_head? hhead)
  cases hk

/-- A value of a static type is written word by word. -/
theorem exists_spelled {p : Packages} {b : Base} {ds : List (Option Nat)} {v : Value} (h : (Ty.mk b ds).IsStatic) (hv : HasType b ds v) :
    ∃ e, Written p ⟨b, ds⟩ v e (spell p b ds v) ∧ words p b ds v = cells ds := by
  induction ds generalizing v with
  | nil =>
    obtain ⟨s, hs⟩ := exists_cell (p := p) h.base.valid h.base.static hv (h.base.exact v)
    have hwords : words p b [] v = 1 := words_of_static h.base.static v
    have hspell : spell p b [] v = s := by rw [spell, hs.input, Option.getD_some]
    rw [hspell]
    refine ⟨.leaf s, ⟨by rw [encode_nil, hs.input, Option.map_some], write_nil b s, ?_⟩, hwords⟩
    rw [hs.length]
    exact congrArg (64 * ·) hwords.symm
  | cons d ds ih =>
    obtain ⟨items, rfl, -, hk, hitems⟩ := hv
    obtain ⟨k, rfl, -⟩ := h.dims d List.mem_cons_self
    have hlen : items.length = k := hk k rfl
    have hall : ∀ v ∈ items, ∃ e s, Written p ⟨b, ds⟩ v e s ∧ s = spell p b ds v := fun v hv => by
      obtain ⟨e, he, -⟩ := ih h.nested (hitems v hv)
      exact ⟨e, _, he, rfl⟩
    obtain ⟨es, strs, hmap, -, hwrite, hstrs⟩ := exists_items (R := fun v s => s = spell p b ds v) hall
    obtain rfl := eq_map_of_forall₂ hstrs
    have hone : items.map (words p b ds) = items.map fun _ => cells ds := List.map_congr_left fun v hv => by
      obtain ⟨-, -, hw⟩ := ih h.nested (hitems v hv)
      exact hw
    have hwords : words p b (some k :: ds) (.arr items) = cells (some k :: ds) := by
      rw [words, if_neg (by simp), if_neg h.nested.head, hone, cells]
      simp [hlen]
    refine ⟨.staticArr es, ⟨?_, fun offset => ?_, ?_⟩, hwords⟩
    · rw [encode_some p b ds hlen, hmap]
      rfl
    · rw [write_some, offsets_eq_nil fun hhead => absurd hhead h.nested.head]
      exact hwrite offset []
    · have hlength := length_flatten hstrs
      rw [spell, hlength, words, if_neg (by simp), if_neg h.nested.head]
      simp

/-! ## Marked values -/

/-- Zeros everywhere. -/
def zeroValue (b : Base) : List (Option Nat) → Value
  | [] => b.zero
  | d :: ds => .arr (List.replicate (d.getD 0) (zeroValue b ds))

/-- A mark in the first word, and zeros. -/
def markFirst (b : Base) : List (Option Nat) → Value
  | [] => b.mark
  | d :: ds => .arr (markFirst b ds :: List.replicate (d.getD 0 - 1) (zeroValue b ds))

/-- The value of zeros has its type. -/
theorem hasType_zeroValue {b : Base} {ds : List (Option Nat)} (h : (Ty.mk b ds).IsStatic) : HasType b ds (zeroValue b ds) := by
  induction ds with
  | nil => exact h.base.has_zero
  | cons d ds ih =>
    obtain ⟨k, rfl, h1, h2⟩ := h.dims d List.mem_cons_self
    refine ⟨_, rfl, by rw [List.length_replicate]; exact h2, fun j hj => ?_, fun w hw => ?_⟩
    · rw [List.length_replicate]
      exact Option.some.inj hj
    · rw [List.eq_of_mem_replicate hw]
      exact ih h.nested

/-- It is written as zeros. -/
theorem spell_zeroValue {p : Packages} {b : Base} {ds : List (Option Nat)} (h : (Ty.mk b ds).IsStatic) :
    spell p b ds (zeroValue b ds) = List.replicate (cells ds * 64) '0' := by
  induction ds with
  | nil =>
    rw [zeroValue, spell, h.base.input_zero]
    rfl
  | cons d ds ih =>
    obtain ⟨k, rfl, h1, h2⟩ := h.dims d List.mem_cons_self
    rw [zeroValue, spell, List.map_replicate, ih h.nested, cells, List.flatten_replicate_replicate, Nat.mul_assoc]
    rfl

/-- The value with the mark in front has its type. -/
theorem hasType_markFirst {b : Base} {ds : List (Option Nat)} (h : (Ty.mk b ds).IsStatic) : HasType b ds (markFirst b ds) := by
  induction ds with
  | nil => exact h.base.has_mark
  | cons d ds ih =>
    obtain ⟨k, rfl, h1, h2⟩ := h.dims d List.mem_cons_self
    have hlen : (markFirst b ds :: List.replicate ((some k).getD 0 - 1) (zeroValue b ds)).length = k := by
      rw [List.length_cons, List.length_replicate, Option.getD_some]
      omega
    refine ⟨_, rfl, by rw [hlen]; exact h2, fun j hj => ?_, fun w hw => ?_⟩
    · rw [hlen]
      exact Option.some.inj hj
    · rcases List.mem_cons.mp hw with rfl | hw
      · exact ih h.nested
      · rw [List.eq_of_mem_replicate hw]
        exact hasType_zeroValue h.nested

/-- It is written with the word of the mark in front. -/
theorem spell_markFirst {p : Packages} {b : Base} {ds : List (Option Nat)} (h : (Ty.mk b ds).IsStatic) :
    ∃ rest, spell p b ds (markFirst b ds) = b.markWord ++ rest := by
  induction ds with
  | nil =>
    refine ⟨[], ?_⟩
    rw [markFirst, spell, h.base.input_mark, Option.getD_some, List.append_nil]
  | cons d ds ih =>
    obtain ⟨rest, hrest⟩ := ih h.nested
    refine ⟨rest ++ (List.map (spell p b ds) (List.replicate (d.getD 0 - 1) (zeroValue b ds))).flatten, ?_⟩
    rw [markFirst, spell, List.map_cons, List.flatten_cons, hrest, List.append_assoc]

/-! ## What is read -/

/-- The element at an index is what was computed at that index. -/
theorem getElem_of_mapM_range {α : Type} {f : Nat → Option α} {n : Nat} {l : List α} (h : (List.range n).mapM f = some l) {i : Nat}
    (hi : i < n) : f i = l[i]? := by
  induction n generalizing f l i with
  | zero => omega
  | succ n ih =>
    rw [List.range_succ_eq_map, List.mapM_cons, List.mapM_map] at h
    obtain ⟨a, ha, h⟩ := Option.bind_eq_some_iff.mp h
    obtain ⟨as, has, h⟩ := Option.bind_eq_some_iff.mp h
    cases h
    cases i with
    | zero => exact ha
    | succ i => exact ih has (by omega)

/-- An item of an array that has been read is what is read at its step. -/
theorem read_item {p : Packages} {b : Base} {k : Nat} {ds : List (Option Nat)} {bytes : List Char} {pos : Nat} {items : List Value}
    (hstride : (Ty.mk b ds).stride ≠ 0) (h : (Ty.mk b (some k :: ds)).read p bytes pos = some (.arr items)) {i : Nat} (hi : i < k) :
    (Ty.mk b ds).read p bytes (pos + i * (Ty.mk b ds).stride) = items[i]? := by
  rw [read_some, readItems, if_neg hstride] at h
  obtain ⟨items', hitems, h⟩ := Option.bind_eq_some_iff.mp h
  cases h
  exact getElem_of_mapM_range hitems hi

/-- The stride of a static type is positive. -/
theorem Ty.IsStatic.stride_ne_zero {ty : Ty} (h : ty.IsStatic) : ty.stride ≠ 0 := by
  obtain ⟨b, ds⟩ := ty
  have hunit := unit_pos h.base.valid
  have hlast : 0 < (Ty.mk b ds).last := by
    cases ds with
    | nil => exact Nat.one_pos
    | cons d ds =>
      obtain ⟨k, rfl, h1, -⟩ := h.dims d List.mem_cons_self
      exact h1
  have hpos := Nat.mul_pos hunit hlast
  rw [Ty.stride, roundUp]
  omega

/-- The marked value is not read before the word of the mark. -/
theorem read_markFirst {p : Packages} {b : Base} {ds : List (Option Nat)} (h : (Ty.mk b ds).IsStatic) {P Q : Nat} (hQ : Q < P)
    (rest : List Char) : (Ty.mk b ds).read p (List.replicate (P * 2) '0' ++ (b.markWord ++ rest)) Q ≠ some (markFirst b ds) := by
  induction ds with
  | nil =>
    rw [read_nil_static p b h.base.static]
    exact h.base.misread hQ rest
  | cons d ds ih =>
    obtain ⟨k, rfl, h1, -⟩ := h.dims d List.mem_cons_self
    intro hread
    have hitem := read_item h.nested.stride_ne_zero hread (i := 0) (by omega)
    rw [Nat.zero_mul, Nat.add_zero] at hitem
    exact ih h.nested hitem

/-! ## Steps -/

/-- Where an array has two items or more, the steps of the decoder are as long as the items. -/
def StepsRight (b : Base) : List (Option Nat) → Prop
  | [] => True
  | d :: ds => (d = some 1 ∨ (Ty.mk b ds).stride = 32 * cells ds) ∧ StepsRight b ds

/-- A static type has at least one word. -/
theorem cells_pos {b : Base} {ds : List (Option Nat)} (h : (Ty.mk b ds).IsStatic) : 1 ≤ cells ds := by
  induction ds with
  | nil => exact le_refl 1
  | cons d ds ih =>
    obtain ⟨k, rfl, h1, -⟩ := h.dims d List.mem_cons_self
    exact Nat.mul_pos h1 (ih h.nested)

/-- The last element of an array starts inside of it. -/
theorem Ty.IsStatic.last_le {ty : Ty} (h : ty.IsStatic) : ty.last ≤ cells ty.dims := by
  obtain ⟨b, ds⟩ := ty
  cases ds with
  | nil => exact le_refl 1
  | cons d ds =>
    obtain ⟨k, rfl, -⟩ := h.dims d List.mem_cons_self
    exact Nat.le_mul_of_pos_right k (cells_pos h.nested)

/-- The static length is at most the length. -/
theorem Ty.IsStatic.staticSize_le {ty : Ty} (h : ty.IsStatic) : ty.staticSize ≤ 32 * cells ty.dims :=
  Nat.mul_le_mul (unit_le h.base.valid) h.last_le

/-- A stride is not longer than the array. -/
theorem Ty.IsStatic.stride_le {ty : Ty} (h : ty.IsStatic) : ty.stride ≤ 32 * cells ty.dims := by
  have hle := h.staticSize_le
  rw [Ty.staticSize] at hle
  rw [Ty.stride, roundUp]
  omega

/-- If the steps of the decoder are wrong, some value of the type is misread. -/
theorem exists_misread (p : Packages) {b : Base} {ds : List (Option Nat)} (h : (Ty.mk b ds).IsStatic) (hsteps : ¬ StepsRight b ds) :
    ∃ v P rest, HasType b ds v ∧ spell p b ds v = List.replicate (P * 2) '0' ++ (b.markWord ++ rest) ∧
      ∀ pos rest, (Ty.mk b ds).read p (List.replicate ((pos + P) * 2) '0' ++ (b.markWord ++ rest)) pos ≠ some v := by
  induction ds with
  | nil => exact absurd trivial hsteps
  | cons d ds ih =>
    obtain ⟨k, rfl, h1, h2⟩ := h.dims d List.mem_cons_self
    by_cases hds : StepsRight b ds
    · -- the second item is read too early
      obtain ⟨hk, hstride⟩ := not_or.mp fun hd => hsteps ⟨hd, hds⟩
      have hk2 : 2 ≤ k := by
        have : k ≠ 1 := fun h => hk (congrArg some h)
        omega
      have hlt : (Ty.mk b ds).stride < 32 * cells ds := lt_of_le_of_ne h.nested.stride_le hstride
      obtain ⟨rest, hrest⟩ := spell_markFirst (p := p) h.nested
      have hlen : (zeroValue b ds :: markFirst b ds :: List.replicate (k - 2) (zeroValue b ds)).length = k := by
        rw [List.length_cons, List.length_cons, List.length_replicate]
        omega
      refine ⟨.arr (zeroValue b ds :: markFirst b ds :: List.replicate (k - 2) (zeroValue b ds)), 32 * cells ds,
        rest ++ ((List.replicate (k - 2) (zeroValue b ds)).map (spell p b ds)).flatten,
        ⟨_, rfl, by rw [hlen]; exact h2, fun j hj => ?_, fun w hw => ?_⟩, ?_, fun pos rest hread => ?_⟩
      · rw [hlen]
        exact Option.some.inj hj
      · rcases List.mem_cons.mp hw with rfl | hw
        · exact hasType_zeroValue h.nested
        · rcases List.mem_cons.mp hw with rfl | hw
          · exact hasType_markFirst h.nested
          · rw [List.eq_of_mem_replicate hw]
            exact hasType_zeroValue h.nested
      · have hcells : cells ds * 64 = 32 * cells ds * 2 := by ring
        rw [spell, List.map_cons, List.map_cons, List.flatten_cons, List.flatten_cons, spell_zeroValue h.nested, hrest, hcells,
          List.append_assoc]
      · have hitem := read_item h.nested.stride_ne_zero hread (i := 1) (by omega)
        rw [Nat.one_mul] at hitem
        exact read_markFirst h.nested (by omega) rest hitem
    · -- the first item has such a value
      obtain ⟨v, P, rest, hv, hspell, hmiss⟩ := ih h.nested hds
      have hlen : (v :: List.replicate (k - 1) (zeroValue b ds)).length = k := by
        rw [List.length_cons, List.length_replicate]
        omega
      refine ⟨.arr (v :: List.replicate (k - 1) (zeroValue b ds)), P,
        rest ++ ((List.replicate (k - 1) (zeroValue b ds)).map (spell p b ds)).flatten,
        ⟨_, rfl, by rw [hlen]; exact h2, fun j hj => ?_, fun w hw => ?_⟩, ?_, fun pos rest hread => ?_⟩
      · rw [hlen]
        exact Option.some.inj hj
      · rcases List.mem_cons.mp hw with rfl | hw
        · exact hv
        · rw [List.eq_of_mem_replicate hw]
          exact hasType_zeroValue h.nested
      · rw [spell, List.map_cons, List.flatten_cons, hspell, List.append_assoc, List.append_assoc]
      · have hitem := read_item h.nested.stride_ne_zero hread (i := 0) (by omega)
        rw [Nat.zero_mul, Nat.add_zero] at hitem
        exact hmiss pos rest hitem

/-! ## Lists of parameters -/

/-- The words of static parameters. -/
def spellArgs (p : Packages) (args : List Arg) : List Char := (args.map fun a => spell p a.1.base a.1.dims a.2).flatten

/-- A static type is not dynamic for the encoder either. -/
theorem Ty.IsStatic.isDynamic {ty : Ty} (h : ty.IsStatic) : ty.isDynamic = false := by
  rw [Ty.isDynamic, h.base.static, Bool.or_false]
  cases hd : ty.dims.head? with
  | none => rfl
  | some d =>
    obtain ⟨k, rfl, -⟩ := h.dims d (List.mem_of_mem_head? hd)
    rfl

/-- Static arguments are written one after the other, without offsets. -/
theorem exists_spelledArgs {p : Packages} {args : List Arg} (h : ∀ a ∈ args, a.1.IsStatic) (hv : ∀ a ∈ args, HasType a.1.base a.1.dims a.2) :
    ∃ qs, encodeEach p (names args) (values args) = some qs ∧
      (∀ result (o : ℚ), writeHeads qs result o = some (result ++ spellArgs p args, o)) ∧
      ∀ result (o : ℚ), writeTails qs result o = some result := by
  induction args with
  | nil => exact ⟨[], rfl, fun result o => by rw [spellArgs, writeHeads]; simp, fun result o => rfl⟩
  | cons a args ih =>
    obtain ⟨ty, v⟩ := a
    have hty : ty.IsStatic := h (ty, v) List.mem_cons_self
    obtain ⟨e, he, -⟩ := exists_spelled (p := p) hty (hv (ty, v) List.mem_cons_self)
    obtain ⟨qs, hencode, hheads, htails⟩ := ih (fun a ha => h a (List.mem_cons_of_mem _ ha)) fun a ha => hv a (List.mem_cons_of_mem _ ha)
    refine ⟨⟨ty.name, ty.base.solidityType, e⟩ :: qs, ?_, fun result o => ?_, fun result o => ?_⟩
    · exact encodeEach_cons he.encode hencode
    · have hwith : (Param.mk ty.name ty.base.solidityType e).withOffset o = some (spell p ty.base ty.dims v) := he.write _
      rw [writeHeads, isDynamic_param, hty.isDynamic, if_neg (by decide), hwith]
      refine (hheads _ o).trans ?_
      rw [spellArgs, spellArgs, List.map_cons, List.flatten_cons, List.append_assoc]
    · rw [writeTails, isDynamic_param, hty.isDynamic, if_neg (by decide), htails]

/-- The encoding of static parameters is what their values spell. -/
theorem encodeParams_static {p : Packages} {args : List Arg} (h : ∀ a ∈ args, a.1.IsStatic)
    (hv : ∀ a ∈ args, HasType a.1.base a.1.dims a.2) : encodeParams p (names args) (values args) = some (spellArgs p args) := by
  obtain ⟨qs, hencode, hheads, htails⟩ := exists_spelledArgs (p := p) h hv
  rw [encodeParams, hencode]
  change encodeMultiWithOffset qs _ = _
  rw [encodeMultiWithOffset, hheads]
  exact htails _ _

/-- A parameter that has been read is what is read behind the static lengths of its predecessors. -/
theorem read_arg {p : Packages} {bytes : List Char} {readAt : Nat} {pre post : List Arg} {ty : Ty} {v : Value}
    (h : readArgs p bytes readAt (pre ++ (ty, v) :: post) = some (values (pre ++ (ty, v) :: post))) :
    ty.read p bytes (readAt + (pre.map fun a => a.1.staticSize).sum) = some v := by
  induction pre generalizing readAt with
  | nil =>
    rw [List.nil_append, readArgs_cons] at h
    obtain ⟨w, hw, h⟩ := Option.bind_eq_some_iff.mp h
    obtain ⟨ws, -, h⟩ := Option.bind_eq_some_iff.mp h
    cases h
    exact hw
  | cons a pre ih =>
    obtain ⟨ty', v'⟩ := a
    rw [List.cons_append, readArgs_cons] at h
    obtain ⟨w, -, h⟩ := Option.bind_eq_some_iff.mp h
    obtain ⟨ws, hws, h⟩ := Option.bind_eq_some_iff.mp h
    cases h
    rw [List.map_cons, List.sum_cons, ← Nat.add_assoc]
    exact ih hws

end Solidity

end Webthree.Web3
