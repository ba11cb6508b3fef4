import Webthree.Web3.SolidityCoder

/-!
# Type names

The names of the types with their dimensions, the outermost one first, and what the functions of names say of them.
-/

namespace Webthree.Web3

namespace Solidity

/-- What the elements of arrays are. -/
inductive Base where
  | address
  | bool
  | int (bits : Nat)
  | uint (bits : Nat)
  | bytes
  | fixedBytes (size : Nat)
  | string
  | real (whole part : Nat)
  | ureal (whole part : Nat)
deriving DecidableEq

namespace Base

/-- The name of a base type. -/
def name : Base → List Char
  | address => ['a', 'd', 'd', 'r', 'e', 's', 's']
  | bool => ['b', 'o', 'o', 'l']
  | int bits => ['i', 'n', 't'] ++ numeral 10 bits
  | uint bits => ['u', 'i', 'n', 't'] ++ numeral 10 bits
  | bytes => ['b', 'y', 't', 'e', 's']
  | fixedBytes size => ['b', 'y', 't', 'e', 's'] ++ numeral 10 size
  | string => ['s', 't', 'r', 'i', 'n', 'g']
  | real whole part => ['r', 'e', 'a', 'l'] ++ numeral 10 whole ++ 'x' :: numeral 10 part
  | ureal whole part => ['u', 'r', 'e', 'a', 'l'] ++ numeral 10 whole ++ 'x' :: numeral 10 part

/-- The type that the coder takes for the name: names of reals without a sign have those of reals inside. -/
def solidityType : Base → SolidityType
  | address => .address
  | bool => .bool
  | int _ => .int
  | uint _ => .uint
  | bytes => .dynamicBytes
  | fixedBytes _ => .bytes
  | string => .string
  | real _ _ => .real
  | ureal _ _ => .real

/-- The static length of one element, in bytes. -/
def unit : Base → Nat
  | fixedBytes size => size
  | _ => 32

end Base

/-- A dimension as it is written; there is no number in that of a dynamic array. -/
def dimension : Option Nat → List Char
  | none => ['[', ']']
  | some k => '[' :: numeral 10 k ++ [']']

/-- The dimensions, the outermost one last. -/
def dimensions : List (Option Nat) → List Char
  | [] => []
  | d :: ds => dimensions ds ++ dimension d

/-- A type: what its elements are, and its dimensions, the outermost one first. -/
structure Ty where
  base : Base
  dims : List (Option Nat)
deriving DecidableEq

namespace Ty

/-- The name of a type, with its dimensions from the inside. -/
def name (ty : Ty) : List Char := ty.base.name ++ dimensions ty.dims

/-- The number in the outermost dimension. -/
def last (ty : Ty) : Nat :=
  match ty.dims with
  | some k :: _ => k
  | _ => 1

@[simp] theorem last_nil (b : Base) : (Ty.mk b []).last = 1 := rfl

@[simp] theorem last_none (b : Base) (ds : List (Option Nat)) : (Ty.mk b (none :: ds)).last = 1 := rfl

@[simp] theorem last_some (b : Base) (k : Nat) (ds : List (Option Nat)) : (Ty.mk b (some k :: ds)).last = k := rfl

/-- The items of an array have the type without the outermost dimension. -/
def nested (ty : Ty) : Ty := { ty with dims := ty.dims.tail }

end Ty

/-! ## Digits and brackets -/

/-- A numeral in base ten has decimal digits. -/
theorem isDigit_of_mem_numeral {n : Nat} {c : Char} (hc : c ∈ numeral 10 n) : c.isDigit = true := by
  rw [← isDigitIn_ten]
  exact List.all_eq_true.mp (all_numeral (by decide) (by decide) n) c hc

/-- What is read before a character that is no digit. -/
theorem takeWhile_numeral (n : Nat) {t : List Char} (ht : t.head?.any Char.isDigit = false) :
    (numeral 10 n ++ t).takeWhile Char.isDigit = numeral 10 n ∧ (numeral 10 n ++ t).dropWhile Char.isDigit = t := by
  have htake : t.takeWhile Char.isDigit = [] ∧ t.dropWhile Char.isDigit = t := by
    cases t with
    | nil => exact ⟨rfl, rfl⟩
    | cons c t =>
      have hc : c.isDigit = false := ht
      simp [hc]
  rw [List.takeWhile_append_of_pos fun c hc => isDigit_of_mem_numeral hc, List.dropWhile_append_of_pos fun c hc => isDigit_of_mem_numeral hc,
    htake.1, htake.2, List.append_nil]
  exact ⟨rfl, rfl⟩

/-- Dimensions do not begin with a digit. -/
theorem head_dimensions (ds : List (Option Nat)) : (dimensions ds).head?.any Char.isDigit = false := by
  induction ds with
  | nil => rfl
  | cons d ds ih =>
    rw [dimensions, List.head?_append]
    cases hds : (dimensions ds).head? with
    | none =>
      cases d with
      | none => rfl
      | some k => rfl
    | some c => rwa [hds] at ih

/-- Brackets close behind digits. -/
theorem brackets_digits (m digits t : List Char) (hd : ∀ c ∈ digits, c.isDigit = true) :
    brackets (some m) (digits ++ ']' :: t) = (m ++ digits ++ [']']) :: brackets none t := by
  induction digits generalizing m with
  | nil =>
    rw [List.nil_append, brackets, if_neg (by decide), if_pos rfl, List.append_nil]
  | cons c digits ih =>
    rw [List.cons_append, brackets, if_pos (hd c List.mem_cons_self), ih _ fun x hx => hd x (List.mem_cons_of_mem _ hx)]
    simp

/-- One dimension is one match. -/
theorem brackets_dimension (d : Option Nat) (t : List Char) : brackets none (dimension d ++ t) = dimension d :: brackets none t := by
  cases d with
  | none => exact brackets_digits ['['] [] t (by simp)
  | some k =>
    have h := brackets_digits ['['] (numeral 10 k) t fun c hc => isDigit_of_mem_numeral hc
    rw [dimension, List.cons_append, List.cons_append, List.append_assoc]
    exact h

/-- All dimensions are matches, the last one first. -/
theorem brackets_dimensions (ds : List (Option Nat)) (t : List Char) :
    brackets none (dimensions ds ++ t) = (ds.map dimension).reverse ++ brackets none t := by
  induction ds generalizing t with
  | nil => rfl
  | cons d ds ih =>
    rw [dimensions, List.append_assoc, ih, brackets_dimension, List.map_cons, List.reverse_cons, List.append_assoc]
    rfl

/-- Without a bracket there is no match. -/
theorem brackets_of_not_mem {s : List Char} (hs : '[' ∉ s) (t : List Char) : brackets none (s ++ t) = brackets none t := by
  induction s with
  | nil => rfl
  | cons c s ih =>
    rw [List.mem_cons, not_or] at hs
    rw [List.cons_append, brackets, if_neg (Ne.symm hs.1), ih hs.2]

/-- Digits in a bracket are passed over. -/
theorem isArrays_digits (digits t : List Char) (hd : ∀ c ∈ digits, c.isDigit = true) :
    isArrays true (digits ++ ']' :: t) = isArrays false t := by
  induction digits with
  | nil =>
    rw [List.nil_append, isArrays, if_neg (by decide), decide_eq_true rfl, Bool.true_and]
  | cons c digits ih =>
    rw [List.cons_append, isArrays, if_pos (hd c List.mem_cons_self), ih fun x hx => hd x (List.mem_cons_of_mem _ hx)]

/-- All dimensions are arrays. -/
theorem isArrays_dimensions (ds : List (Option Nat)) (t : List Char) : isArrays false (dimensions ds ++ t) = isArrays false t := by
  induction ds generalizing t with
  | nil => rfl
  | cons d ds ih =>
    rw [dimensions, List.append_assoc, ih]
    cases d with
    | none => exact isArrays_digits [] t (by simp)
    | some k =>
      have h := isArrays_digits (numeral 10 k) t fun c hc => isDigit_of_mem_numeral hc
      rw [dimension, List.cons_append, List.cons_append, List.append_assoc]
      exact h

/-! ## Dimensions -/

/-- Names of base types have no brackets. -/
theorem not_mem_name (b : Base) : '[' ∉ b.name := by
  have hn : ∀ n, '[' ∉ numeral 10 n := fun n h => absurd (isDigit_of_mem_numeral h) (by decide)
  cases b <;> simp [Base.name, hn]

namespace Ty

/-- The nested types are the dimensions. -/
theorem nestedTypes_name (ty : Ty) : nestedTypes ty.name = (ty.dims.map dimension).reverse := by
  have h := brackets_dimensions ty.dims []
  rw [List.append_nil] at h
  rw [nestedTypes, name, brackets_of_not_mem (not_mem_name _), h]
  exact List.append_nil _

/-- The last match is the first dimension. -/
theorem getLast_nestedTypes (ty : Ty) : (nestedTypes ty.name).getLast? = ty.dims.head?.map dimension := by
  rw [nestedTypes_name, List.getLast?_reverse, List.head?_map]

end Ty

/-- A dimension has digits exactly if it is static. -/
theorem any_dimension (d : Option Nat) : (dimension d).any Char.isDigit = d.isSome := by
  cases d with
  | none => rfl
  | some k =>
    obtain ⟨c, s, hc⟩ := List.exists_cons_of_ne_nil (numeral_ne_nil (b := 10) (by decide) k)
    have hdigit : c.isDigit = true := isDigit_of_mem_numeral (n := k) (hc ▸ List.mem_cons_self)
    rw [dimension, hc]
    simp [hdigit]

/-- The digits of a dimension are its length. -/
theorem filter_dimension (k : Nat) : (dimension (some k)).filter Char.isDigit = numeral 10 k := by
  have h : (numeral 10 k).filter Char.isDigit = numeral 10 k := List.filter_eq_self.mpr fun c hc => isDigit_of_mem_numeral hc
  rw [dimension, List.cons_append, List.filter_cons_of_neg (by decide), List.filter_append, h]
  exact List.append_nil _

namespace Ty

variable (ty : Ty)

/-- A type is a dynamic array by its first dimension. -/
theorem isDynamicArray_name : isDynamicArray ty.name = ty.dims.head?.any Option.isNone := by
  rw [isDynamicArray, getLast_nestedTypes]
  cases ty.dims.head? with
  | none => rfl
  | some d =>
    rw [Option.map_some, Option.any_some, Option.any_some, any_dimension]
    cases d <;> rfl

/-- So is it a static one. -/
theorem isStaticArray_name : isStaticArray ty.name = ty.dims.head?.any Option.isSome := by
  rw [isStaticArray, getLast_nestedTypes]
  cases ty.dims.head? with
  | none => rfl
  | some d => rw [Option.map_some, Option.any_some, Option.any_some, any_dimension]

/-- The length of an array is that of its first dimension. -/
theorem staticArrayLength_name : staticArrayLength ty.name = ty.last := by
  obtain ⟨b, ds⟩ := ty
  rw [staticArrayLength, getLast_nestedTypes]
  cases ds with
  | nil => rfl
  | cons d ds =>
    cases d with
    | none => rfl
    | some k =>
      have h : (dimension (some k)).any Char.isDigit = true := any_dimension (some k)
      dsimp only [List.head?_cons, Option.map_some]
      rw [if_pos h, filter_dimension, numberOf_numeral (by decide) (by decide)]
      rfl

/-- A type without its last brackets is the type of the items. -/
theorem nestedName_name : nestedName ty.name = ty.nested.name := by
  obtain ⟨b, ds⟩ := ty
  rw [nestedName, getLast_nestedTypes]
  cases ds with
  | nil => rfl
  | cons d ds =>
    have h : (Ty.mk b (d :: ds)).name = (Ty.mk b ds).name ++ dimension d := by
      rw [name, name, dimensions, List.append_assoc]
    dsimp only [List.head?_cons, Option.map_some]
    rw [h, List.length_append, Nat.add_sub_cancel]
    exact List.take_left

end Ty

/-! ## Types of names -/

/-- What follows the stem is what was put behind it. -/
theorem after_append (stem s : List Char) : after stem (stem ++ s) = some s := by
  rw [after, if_pos (List.isPrefixOf_iff_prefix.mpr (List.prefix_append stem s)), List.drop_left]

/-- A word is found wherever it is. -/
theorem hasInside_append (before word s : List Char) : hasInside word (before ++ (word ++ s)) = true :=
  List.any_eq_true.mpr ⟨word ++ s, (List.mem_tails _ _).mpr (List.suffix_append _ _), List.isPrefixOf_iff_prefix.mpr (List.prefix_append _ _)⟩

/-- A name does not have a word inside if a character of the word is not in it. -/
theorem hasInside_of_not_mem {word name : List Char} {c : Char} (hword : c ∈ word) (hname : c ∉ name) : hasInside word name = false := by
  refine List.any_eq_false.mpr fun s hs hprefix => hname ?_
  exact ((List.mem_tails _ _).mp hs).subset ((List.isPrefixOf_iff_prefix.mp hprefix).subset hword)

/-- Dimensions have nothing but digits and brackets. -/
theorem mem_dimensions {ds : List (Option Nat)} {c : Char} (hc : c ∈ dimensions ds) : c.isDigit = true ∨ c = '[' ∨ c = ']' := by
  induction ds with
  | nil => cases hc
  | cons d ds ih =>
    rcases List.mem_append.mp hc with hc | hc
    · exact ih hc
    · cases d with
      | none =>
        simp [dimension] at hc
        exact .inr hc
      | some k =>
        simp only [dimension, List.cons_append, List.mem_cons, List.mem_append, List.not_mem_nil, or_false] at hc
        rcases hc with hc | hc | hc
        · exact .inr (.inl hc)
        · exact .inl (isDigit_of_mem_numeral hc)
        · exact .inr (.inr hc)

/-- Dimensions may follow a type without a size. -/
theorem isUnsized_append (stem : List Char) (ds : List (Option Nat)) : isUnsized stem (stem ++ dimensions ds) = true := by
  have h := isArrays_dimensions ds []
  rw [List.append_nil] at h
  rw [isUnsized, after_append, Option.any_some, h]
  rfl

/-- A size and dimensions may follow a type with one. -/
theorem isSized_append (stem : List Char) (n : Nat) (ds : List (Option Nat)) :
    isSized stem (stem ++ numeral 10 n ++ dimensions ds) = true := by
  have h := isArrays_dimensions ds []
  rw [List.append_nil] at h
  rw [isSized, List.append_assoc, after_append, Option.any_some, (takeWhile_numeral n (head_dimensions ds)).2, h]
  rfl

/-- With a number behind the stem the name is not one without a size. -/
theorem isUnsized_numeral (stem : List Char) (n : Nat) (ds : List (Option Nat)) :
    isUnsized stem (stem ++ numeral 10 n ++ dimensions ds) = false := by
  obtain ⟨c, s, hc⟩ := List.exists_cons_of_ne_nil (numeral_ne_nil (b := 10) (by decide) n)
  have hdigit : c.isDigit = true := isDigit_of_mem_numeral (n := n) (hc ▸ List.mem_cons_self)
  have hne : c ≠ '[' := by
    rintro rfl
    cases hdigit
  rw [isUnsized, List.append_assoc, after_append, Option.any_some, hc, List.cons_append, isArrays, decide_eq_false hne, Bool.false_and]

/-- The first type that takes a name, behind that of addresses. -/
theorem requireType_of {name : List Char} {t : SolidityType} (before after : List SolidityType)
    (hlist : solidityTypes = .address :: before ++ t :: after) (haddress : SolidityType.address.isType name = false)
    (hbefore : before.any (·.isType name) = false) (ht : t.isType name = true) : requireType name = some t := by
  rw [requireType, hlist, List.cons_append, List.find?_cons_of_neg (by rw [haddress]; decide), List.find?_append,
    List.find?_cons_of_pos (l := after) ht, List.find?_eq_none.mpr fun s hs => List.any_eq_false.mp hbefore s hs]
  rfl

namespace Ty

/-- A letter is in a name only if it is in that of the elements. -/
theorem not_mem_name {ty : Ty} {c : Char} (hbase : c ∉ ty.base.name) (hc : c.isDigit = false ∧ c ≠ '[' ∧ c ≠ ']') : c ∉ ty.name := by
  intro h
  rcases List.mem_append.mp h with h | h
  · exact hbase h
  · rcases mem_dimensions h with h | h
    · rw [hc.1] at h
      cases h
    · exact absurd h (not_or.mpr hc.2)

/-- Each name belongs to its own type. -/
theorem requireType_name (ty : Ty) : requireType ty.name = some ty.base.solidityType := by
  obtain ⟨b, ds⟩ := ty
  have hdigit : ∀ {c n}, c.isDigit = false → c ∉ numeral 10 n := fun hc h => by
    rw [isDigit_of_mem_numeral h] at hc
    cases hc
  -- one of the letters of an address is missing in each other name
  have hnot : 'a' ∉ b.name ∨ 'd' ∉ b.name → SolidityType.address.isType (Ty.mk b ds).name = false := fun h => by
    rcases h with h | h
    · have hname : 'a' ∉ (Ty.mk b ds).name := not_mem_name h (by decide)
      exact hasInside_of_not_mem (c := 'a') (by decide) hname
    · have hname : 'd' ∉ (Ty.mk b ds).name := not_mem_name h (by decide)
      exact hasInside_of_not_mem (c := 'd') (by decide) hname
  cases b with
  | address =>
    have h : SolidityType.address.isType (Ty.mk .address ds).name = true := hasInside_append [] ['a', 'd', 'd', 'r', 'e', 's', 's'] _
    exact List.find?_cons_of_pos h
  | bool =>
    exact requireType_of [] [.int, .uint, .dynamicBytes, .bytes, .string, .real, .ureal] rfl (hnot (.inl (by decide))) rfl
      (isUnsized_append _ ds)
  | int bits =>
    exact requireType_of [.bool] [.uint, .dynamicBytes, .bytes, .string, .real, .ureal] rfl
      (hnot (.inl (by simp [Base.name, hdigit]))) rfl (isSized_append _ bits ds)
  | uint bits =>
    exact requireType_of [.bool, .int] [.dynamicBytes, .bytes, .string, .real, .ureal] rfl
      (hnot (.inl (by simp [Base.name, hdigit]))) rfl (isSized_append _ bits ds)
  | bytes =>
    exact requireType_of [.bool, .int, .uint] [.bytes, .string, .real, .ureal] rfl (hnot (.inl (by decide))) rfl
      (isUnsized_append _ ds)
  | fixedBytes size =>
    have hunsized : SolidityType.dynamicBytes.isType (Ty.mk (.fixedBytes size) ds).name = false := isUnsized_numeral _ size ds
    have hbytes : SolidityType.bytes.isType (Ty.mk (.fixedBytes size) ds).name = true := by
      obtain ⟨c, s, hc⟩ := List.exists_cons_of_ne_nil (numeral_ne_nil (b := 10) (by decide) size)
      have hhead : (numeral 10 size ++ dimensions ds).head?.any Char.isDigit = true := by
        rw [hc]
        exact isDigit_of_mem_numeral (n := size) (hc ▸ List.mem_cons_self)
      have hsized : (after ['b', 'y', 't', 'e', 's'] (Ty.mk (.fixedBytes size) ds).name).any
          (fun s => isArrays false (s.dropWhile Char.isDigit)) = true := isSized_append _ size ds
      have hafter : after ['b', 'y', 't', 'e', 's'] (Ty.mk (.fixedBytes size) ds).name = some (numeral 10 size ++ dimensions ds) := by
        rw [name, Base.name, List.append_assoc]
        exact after_append _ _
      rw [hafter, Option.any_some] at hsized
      rw [SolidityType.isType, hafter, Option.any_some, hhead, hsized]
      rfl
    refine requireType_of [.bool, .int, .uint, .dynamicBytes] [.string, .real, .ureal] rfl
      (hnot (.inl (by simp [Base.name, hdigit]))) ?_ hbytes
    simp only [List.any_cons, hunsized]
    rfl
  | string =>
    exact requireType_of [.bool, .int, .uint, .dynamicBytes, .bytes] [.real, .ureal] rfl (hnot (.inl (by decide))) rfl
      (isUnsized_append _ ds)
  | real whole part =>
    refine requireType_of [.bool, .int, .uint, .dynamicBytes, .bytes, .string] [.ureal] rfl
      (hnot (.inr (by simp [Base.name, hdigit]))) rfl ?_
    rw [name, Base.name, List.append_assoc, List.append_assoc]
    exact hasInside_append [] ['r', 'e', 'a', 'l'] _
  | ureal whole part =>
    refine requireType_of [.bool, .int, .uint, .dynamicBytes, .bytes, .string] [.ureal] rfl
      (hnot (.inr (by simp [Base.name, hdigit]))) rfl ?_
    rw [name, Base.name, List.append_assoc, List.append_assoc]
    exact hasInside_append ['u'] ['r', 'e', 'a', 'l'] _

/-- The static length is that of the first dimension. -/
theorem staticPartLength_name (ty : Ty) : ty.base.solidityType.staticPartLength ty.name = ty.base.unit * ty.last := by
  have h := staticArrayLength_name ty
  obtain ⟨b, ds⟩ := ty
  cases b with
  | fixedBytes size =>
    have hsize : ((Ty.mk (.fixedBytes size) ds).name.drop 5).takeWhile Char.isDigit = numeral 10 size := by
      rw [name, Base.name, List.append_assoc, List.drop_left' (show ['b', 'y', 't', 'e', 's'].length = 5 from rfl)]
      exact (takeWhile_numeral size (head_dimensions ds)).1
    rw [Base.solidityType, SolidityType.staticPartLength, hsize, numberOf_numeral (by decide) (by decide), h, Base.unit]
  | _ => exact congrArg (32 * ·) h

end Ty

end Solidity

end Webthree.Web3
