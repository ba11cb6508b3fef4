import Webthree.Lemmas.SolidityFormat

/-!
# Where values are

What `encode` and `encodeWithOffset` write for an array, how many words these are, and when `decode` finds the items: in steps of the
static length of an item, or at the offsets that stand for them.

Strings at positions of a longer one, and the values that are read back: those that are written in place, those at the end of an
offset, and static arrays of dynamic ones, which are written with offsets for their items.
-/

namespace Webthree.Web3

namespace Solidity

/-- The values of a type, on its dimensions. An array of the language has fewer than 2^32 items. -/
def HasType (b : Base) : List (Option Nat) → Value → Prop
  | [], v => b.Has v
  | d :: ds, v => ∃ items, v = .arr items ∧ items.length < 2 ^ 32 ∧ (∀ k, d = some k → items.length = k) ∧ ∀ w ∈ items, HasType b ds w

/-- The number of words that are written for a value, those for offsets of items included. -/
def words (p : Packages) (b : Base) : List (Option Nat) → Value → Nat
  | [], v => b.words p v
  | d :: ds, .arr items =>
    (if d = none then 1 else 0) + (if ds.head? = some none then items.length else 0) + (items.map (words p b ds)).sum
  | _ :: _, _ => 0

namespace Ty

variable (p : Packages) (ty : Ty)

/-- What `encode` makes of a value of the type. -/
def encode (v : Value) : Option Encoded := ty.base.solidityType.encode p v ty.name

/-- What `encodeWithOffset` makes of it. -/
def write (e : Encoded) (offset : Option ℚ) : Option (List Char) := encodeWithOffset ty.name ty.base.solidityType e offset

/-- What `decode` reads at a position. -/
def read (bytes : List Char) (pos : Nat) : Option Value := ty.base.solidityType.decode p bytes (some pos) ty.name

/-- The steps in which items of the type are read. -/
def stride : Nat := roundUp (ty.base.unit * ty.last)

end Ty

/-! ## One level of an array -/

section

variable (p : Packages) (b : Base) (ds : List (Option Nat))

theorem isDynamicArray_none : isDynamicArray (Ty.mk b (none :: ds)).name = true := Ty.isDynamicArray_name _

theorem isDynamicArray_some (k : Nat) : isDynamicArray (Ty.mk b (some k :: ds)).name = false := Ty.isDynamicArray_name _

theorem isStaticArray_some (k : Nat) : isStaticArray (Ty.mk b (some k :: ds)).name = true := Ty.isStaticArray_name _

theorem isDynamicArray_nil : isDynamicArray (Ty.mk b []).name = false := Ty.isDynamicArray_name _

theorem isStaticArray_nil : isStaticArray (Ty.mk b []).name = false := Ty.isStaticArray_name _

/-- The items of an array are of the type with one dimension less. -/
theorem nestedName_cons (d : Option Nat) : nestedName (Ty.mk b (d :: ds)).name = (Ty.mk b ds).name := Ty.nestedName_name _

/-- A dynamic array is encoded with its length in front. -/
theorem encode_none (items : List Value) : (Ty.mk b (none :: ds)).encode p (.arr items) = (do
    let length ← formatInputNumber items.length
    let result ← items.mapM ((Ty.mk b ds).encode p)
    return .dynamicArr length result) := by
  rw [Ty.encode, SolidityType.encode, dif_pos (isDynamicArray_none b ds), nestedName_cons]
  rfl

/-- To go over the indices is to go over the items. -/
theorem mapM_range_getElem {α β : Type} (f : α → Option β) (l : List α) :
    ((List.range l.length).mapM fun i => do let v ← l[i]?; f v) = l.mapM f := by
  induction l with
  | nil => rfl
  | cons a l ih =>
    rw [List.length_cons, List.range_succ_eq_map, List.mapM_cons, List.mapM_map, List.mapM_cons]
    congr 1
    funext x
    exact congrArg (fun o => o.bind fun xs => some (x :: xs)) ih

/-- A static array is encoded without its length. -/
theorem encode_some {k : Nat} {items : List Value} (hk : items.length = k) : (Ty.mk b (some k :: ds)).encode p (.arr items) = (do
    let result ← items.mapM ((Ty.mk b ds).encode p)
    return .staticArr result) := by
  have hlen : staticArrayLength (Ty.mk b (some k :: ds)).name = k := Ty.staticArrayLength_name _
  have hdyn : ¬ isDynamicArray (Ty.mk b (some k :: ds)).name = true := by rw [isDynamicArray_some]; decide
  rw [Ty.encode, SolidityType.encode, dif_neg hdyn, dif_pos (isStaticArray_some b ds k), nestedName_cons, hlen, ← hk]
  exact congrArg (fun o => o.bind fun result => some (Encoded.staticArr result)) (mapM_range_getElem _ items)

/-- A single value is what the formatter of its type makes. -/
theorem encode_nil (v : Value) : (Ty.mk b []).encode p v = (b.solidityType.inputFormatter p v).map .leaf := by
  have hdyn : ¬ isDynamicArray (Ty.mk b []).name = true := by rw [isDynamicArray_nil]; decide
  have hstat : ¬ isStaticArray (Ty.mk b []).name = true := by rw [isStaticArray_nil]; decide
  rw [Ty.encode, SolidityType.encode.eq_def, dif_neg hdyn, dif_neg hstat]

/-- The offset for an item, behind what has been written. -/
def itemOffset (offset : Option ℚ) (result : List Char) : Option ℚ := do
  let offset ← offset
  let additional ← toNumber result
  return offset + additional / 2

/-- The loops that write the items. -/
def writeItems (ty : Ty) (offset : Option ℚ) (items : List Encoded) (result : List Char) : Option (List Char) :=
  items.foldlM (fun result e => do
    let nested ← ty.write e (itemOffset offset result)
    return result ++ nested) result

/-- The static length of an item is that of its type. -/
theorem staticPartLength_nested (d : Option Nat) :
    b.solidityType.staticPartLength (nestedName (Ty.mk b (d :: ds)).name) = b.unit * (Ty.mk b ds).last := by
  rw [nestedName_cons]
  exact Ty.staticPartLength_name ⟨b, ds⟩

/-- A dynamic array is written with its length, then offsets if its items are dynamic arrays, then its items. -/
theorem write_none (length : List Char) (items : List Encoded) (offset : Option ℚ) :
    (Ty.mk b (none :: ds)).write (.dynamicArr length items) offset = (do
      let offsets ← (
        if ds.head? = some none then nestedOffsets offset (b.unit * (Ty.mk b ds).last) 1 2 (.leaf length :: items).dropLast else some [])
      writeItems ⟨b, ds⟩ offset items (length ++ offsets)) := by
  have hnested : isDynamicArray (Ty.mk b ds).name = true ↔ ds.head? = some none := by
    rw [Ty.isDynamicArray_name]
    rcases ds with - | ⟨- | k, ds⟩ <;> simp
  rw [Ty.write, encodeWithOffset.eq_def]
  dsimp only
  rw [dif_pos (isDynamicArray_none b ds), staticPartLength_nested, nestedName_cons]
  simp only [hnested]
  rfl

/-- A static array is written without the length. -/
theorem write_some (k : Nat) (items : List Encoded) (offset : Option ℚ) :
    (Ty.mk b (some k :: ds)).write (.staticArr items) offset = (do
      let offsets ← (
        if ds.head? = some none then nestedOffsets offset (b.unit * (Ty.mk b ds).last) 0 0 (.staticArr [] :: items).dropLast else some [])
      writeItems ⟨b, ds⟩ offset items offsets) := by
  have hnested : isDynamicArray (Ty.mk b ds).name = true ↔ ds.head? = some none := by
    rw [Ty.isDynamicArray_name]
    rcases ds with - | ⟨- | k, ds⟩ <;> simp
  have hdyn : ¬ isDynamicArray (Ty.mk b (some k :: ds)).name = true := by rw [isDynamicArray_some]; decide
  rw [Ty.write, encodeWithOffset.eq_def]
  dsimp only
  rw [dif_neg hdyn, dif_pos (isStaticArray_some b ds k), staticPartLength_nested, nestedName_cons]
  simp only [hnested]
  rfl

/-- A single value is written as it is, whatever the offset is. -/
theorem write_nil (s : List Char) (offset : Option ℚ) : (Ty.mk b []).write (.leaf s) offset = some s := by
  have hdyn : ¬ isDynamicArray (Ty.mk b []).name = true := by rw [isDynamicArray_nil]; decide
  have hstat : ¬ isStaticArray (Ty.mk b []).name = true := by rw [isStaticArray_nil]; decide
  rw [Ty.write, encodeWithOffset, dif_neg hdyn, dif_neg hstat]

/-- The loops that read items in steps. -/
def readItems (ty : Ty) (bytes : List Char) (start length : Nat) : Option (List Value) :=
  (List.range (if ty.stride = 0 then 0 else length)).mapM fun i => ty.read p bytes (start + i * ty.stride)

/-- A dynamic array is read behind the length that its offset leads to. -/
theorem read_none (bytes : List Char) (pos : Nat) {q n : Nat} (hq : parseHex (substr bytes (some (pos * 2)) 64) = some q)
    (hn : parseHex (substr bytes (some (q * 2)) 64) = some n) :
    (Ty.mk b (none :: ds)).read p bytes pos = (do
    let items ← readItems p ⟨b, ds⟩ bytes (q + 32) n
    return .arr items) := by
  rw [Ty.read, SolidityType.decode.eq_def]
  dsimp only
  rw [dif_pos (isDynamicArray_none b ds), staticPartLength_nested, nestedName_cons, Option.map_some, hq, Option.map_some, Option.map_some, hn]
  rfl

/-- A static array is read in place. -/
theorem read_some (bytes : List Char) (pos k : Nat) :
    (Ty.mk b (some k :: ds)).read p bytes pos = (do
    let items ← readItems p ⟨b, ds⟩ bytes pos k
    return .arr items) := by
  have hlen : staticArrayLength (Ty.mk b (some k :: ds)).name = k := Ty.staticArrayLength_name _
  have hdyn : ¬ isDynamicArray (Ty.mk b (some k :: ds)).name = true := by rw [isDynamicArray_some]; decide
  rw [Ty.read, SolidityType.decode.eq_def]
  dsimp only
  rw [dif_neg hdyn, dif_pos (isStaticArray_some b ds k), staticPartLength_nested, nestedName_cons, hlen]
  rfl

/-- A static value is read in place. -/
theorem read_nil_static (hb : b.solidityType.isDynamicType = false) (bytes : List Char) (pos : Nat) :
    (Ty.mk b []).read p bytes pos = b.solidityType.outputFormatter p (substr bytes (some (pos * 2)) (b.unit * 2)) := by
  have hdyn : ¬ isDynamicArray (Ty.mk b []).name = true := by rw [isDynamicArray_nil]; decide
  have hstat : ¬ isStaticArray (Ty.mk b []).name = true := by rw [isStaticArray_nil]; decide
  have hlen : b.solidityType.staticPartLength (Ty.mk b []).name = b.unit * 1 := Ty.staticPartLength_name ⟨b, []⟩
  rw [Ty.read, SolidityType.decode.eq_def]
  dsimp only
  rw [dif_neg hdyn, dif_neg hstat, if_neg (by rw [hb]; decide), hlen, Nat.mul_one]
  rfl

/-- A dynamic value is read where its offset leads to, as many words as its length says. -/
theorem read_nil_dynamic (hb : b.solidityType.isDynamicType = true) (bytes : List Char) (pos : Nat) {q n : Nat}
    (hq : parseHex (substr bytes (some (pos * 2)) 64) = some q) (hn : parseHex (substr bytes (some (q * 2)) 64) = some n) :
    (Ty.mk b []).read p bytes pos = b.solidityType.outputFormatter p (substr bytes (some (q * 2)) ((1 + (n + 31) / 32) * 64)) := by
  have hdyn : ¬ isDynamicArray (Ty.mk b []).name = true := by rw [isDynamicArray_nil]; decide
  have hstat : ¬ isStaticArray (Ty.mk b []).name = true := by rw [isStaticArray_nil]; decide
  rw [Ty.read, SolidityType.decode.eq_def]
  dsimp only
  rw [dif_neg hdyn, dif_neg hstat, if_pos hb, Option.map_some, hq, Option.map_some, hn]

end

/-! ## Positions -/

/-- A string is at a position, in bytes. -/
def At (bytes : List Char) (pos : Nat) (s : List Char) : Prop := s <+: bytes.drop (pos * 2)

variable {bytes : List Char} {pos : Nat}

/-- The front of a string is where the string is. -/
theorem At.left {s t : List Char} (h : At bytes pos (s ++ t)) : At bytes pos s := (List.prefix_append s t).trans h

/-- The rest of a string is behind its front. -/
theorem At.right {s t : List Char} {n : Nat} (h : At bytes pos (s ++ t)) (hs : s.length = n * 2) : At bytes (pos + n) t := by
  obtain ⟨r, hr⟩ := h
  refine ⟨r, ?_⟩
  rw [Nat.add_mul, ← List.drop_drop, ← hr, ← hs, List.append_assoc, List.drop_left]

/-- What is cut out at the position of a string is the front of it. -/
theorem At.substr {s : List Char} (h : At bytes pos s) {n : Nat} (hn : n ≤ s.length) : substr bytes (some (pos * 2)) n = s.take n := by
  obtain ⟨r, hr⟩ := h
  rw [Solidity.substr, Option.getD_some, ← hr]
  exact List.take_append_of_le_length hn

/-- A word is read where it is. -/
theorem At.parse {n : Nat} (h : At bytes pos (word n)) (hn : n < 2 ^ 256) : parseHex (Solidity.substr bytes (some (pos * 2)) 64) = some n := by
  have hlen := length_word hn
  rw [h.substr (by omega), List.take_of_length_le (by omega), parseHex_word]

/-! ## Items -/

/-- What is written for a value, whatever the offset is. -/
structure Written (p : Packages) (ty : Ty) (v : Value) (e : Encoded) (s : List Char) : Prop where
  encode : ty.encode p v = some e
  write : ∀ offset, ty.write e offset = some s
  length : s.length = 64 * words p ty.base ty.dims v

/-- Items are written one behind the other. -/
theorem exists_items {p : Packages} {ty : Ty} {R : Value → List Char → Prop} {items : List Value}
    (h : ∀ v ∈ items, ∃ e s, Written p ty v e s ∧ R v s) :
    ∃ es strs, items.mapM (ty.encode p) = some es ∧ List.Forall₂ (fun v e => ty.encode p v = some e) items es ∧
      (∀ offset init, writeItems ty offset es init = some (init ++ strs.flatten)) ∧
      List.Forall₂ (fun v s => s.length = 64 * words p ty.base ty.dims v ∧ R v s) items strs := by
  induction items with
  | nil => exact ⟨[], [], rfl, .nil, fun offset init => by simp [writeItems], .nil⟩
  | cons v items ih =>
    obtain ⟨e, s, hw, hR⟩ := h v List.mem_cons_self
    obtain ⟨es, strs, hmap, hes, hwrite, hstrs⟩ := ih fun w hw => h w (List.mem_cons_of_mem _ hw)
    refine ⟨e :: es, s :: strs, ?_, .cons hw.encode hes, fun offset init => ?_, .cons ⟨hw.length, hR⟩ hstrs⟩
    · rw [List.mapM_cons, hw.encode, hmap]
      rfl
    · have hrest := hwrite offset (init ++ s)
      rw [writeItems] at hrest ⊢
      rw [List.foldlM_cons, hw.write]
      refine Eq.trans hrest ?_
      rw [List.flatten_cons, List.append_assoc]

/-- The strings of items are as long as these have words. -/
theorem length_flatten {p : Packages} {ty : Ty} {R : Value → List Char → Prop} {items : List Value} {strs : List (List Char)}
    (h : List.Forall₂ (fun v s => s.length = 64 * words p ty.base ty.dims v ∧ R v s) items strs) :
    strs.flatten.length = 64 * (items.map (words p ty.base ty.dims)).sum := by
  induction h with
  | nil => rfl
  | cons h _ ih => rw [List.flatten_cons, List.length_append, h.1, ih, List.map_cons, List.sum_cons, Nat.mul_add]

/-- The loops find items where they are: the type of the items has a length, and each item but the last has that of a step. -/
def Steps (p : Packages) (ty : Ty) (items : List Value) : Prop :=
  items ≠ [] → ty.stride ≠ 0 ∧ ∀ v ∈ items.dropLast, 32 * words p ty.base ty.dims v = ty.stride

/-- A value is read where its string is. -/
def InPlace (p : Packages) (ty : Ty) (v : Value) (s : List Char) : Prop := ∀ bytes pos, At bytes pos s → ty.read p bytes pos = some v

/-- A value is read where the offset of its string is. -/
def AtOffset (p : Packages) (ty : Ty) (v : Value) (s : List Char) : Prop :=
  ∀ bytes pos q, q < 2 ^ 256 → At bytes pos (word q) → At bytes q s → ty.read p bytes pos = some v

/-- Items of equal length are read one after the other. -/
theorem mapM_read {p : Packages} {ty : Ty} {items : List Value} {strs : List (List Char)}
    (h : List.Forall₂ (fun v s => s.length = 64 * words p ty.base ty.dims v ∧ InPlace p ty v s) items strs) {step : Nat}
    (hsteps : ∀ v ∈ items.dropLast, 32 * words p ty.base ty.dims v = step) (hat : At bytes pos strs.flatten) :
    (List.range items.length).mapM (fun i => ty.read p bytes (pos + i * step)) = some items := by
  induction h generalizing pos with
  | nil => rfl
  | @cons v s items strs h hrest ih =>
    rw [List.flatten_cons] at hat
    have hv := h.2 bytes pos hat.left
    rw [List.length_cons, List.range_succ_eq_map, List.mapM_cons, List.mapM_map, Nat.zero_mul, Nat.add_zero, hv]
    have hmap : (List.range items.length).mapM (fun i => ty.read p bytes (pos + (i + 1) * step)) = some items := by
      cases items with
      | nil => rfl
      | cons w items =>
        have hstep : 32 * words p ty.base ty.dims v = step := hsteps v List.mem_cons_self
        have hpos : ∀ i, pos + (i + 1) * step = pos + 32 * words p ty.base ty.dims v + i * step := fun i => by
          rw [hstep]
          ring
        simp only [hpos]
        exact ih (fun w hw => hsteps w (List.mem_cons_of_mem _ hw)) (hat.right (by rw [h.1]; ring))
    exact congrArg (fun o => o.bind fun vs => some (v :: vs)) hmap

/-- With the right steps, the items come back. -/
theorem readItems_eq {p : Packages} {ty : Ty} {items : List Value} {strs : List (List Char)}
    (h : List.Forall₂ (fun v s => s.length = 64 * words p ty.base ty.dims v ∧ InPlace p ty v s) items strs)
    (hsteps : Steps p ty items) (hat : At bytes pos strs.flatten) : readItems p ty bytes pos items.length = some items := by
  rw [readItems]
  by_cases hne : items = []
  · subst hne
    simp
  · obtain ⟨hstride, hsteps⟩ := hsteps hne
    rw [if_neg hstride]
    exact mapM_read h hsteps hat

/-! ## Values in place -/

/-- Values that are written without an offset, and that the steps find again. -/
def Plain (p : Packages) (b : Base) : List (Option Nat) → Value → Prop
  | [], v => b.solidityType.isDynamicType = false ∧ b.Exact p v
  | some _ :: ds, .arr items => Steps p ⟨b, ds⟩ items ∧ ∀ v ∈ items, Plain p b ds v
  | _ :: _, _ => False

/-- No single value takes more than a word. -/
theorem unit_le {b : Base} (hb : b.Valid) : b.unit ≤ 32 := by
  cases b with
  | fixedBytes size => exact hb.2
  | _ => exact le_refl 32

/-- Every single value takes a byte. -/
theorem unit_pos {b : Base} (hb : b.Valid) : 0 < b.unit := by
  cases b with
  | fixedBytes size => exact hb.1
  | _ => exact Nat.zero_lt_succ 31

/-- A static value is written as one word. -/
theorem words_of_static {p : Packages} {b : Base} (hb : b.solidityType.isDynamicType = false) (v : Value) : b.words p v = 1 := by
  cases b with
  | bytes => cases hb
  | string => cases hb
  | _ => rfl

/-- Items in place are no dynamic arrays: with such a type there are none. -/
theorem eq_nil_of_plain {p : Packages} {b : Base} {ds : List (Option Nat)} {items : List Value} (hall : ∀ v ∈ items, Plain p b ds v)
    (hhead : ds.head? = some none) : items = [] := by
  obtain ⟨ds, rfl⟩ : ∃ ds', ds = none :: ds' := by
    cases ds with
    | nil => cases hhead
    | cons d ds =>
      cases hhead
      exact ⟨ds, rfl⟩
  refine List.eq_nil_iff_forall_not_mem.mpr fun v hv => ?_
  have h := hall v hv
  simp [Plain] at h

/-- Nothing is written in front of such items. -/
theorem offsets_eq_nil {ds : List (Option Nat)} {es : List Encoded} (h : ds.head? = some none → es = []) (offset : Option ℚ) (n i : Nat)
    (previous : ℚ) (e : Encoded) :
    (if ds.head? = some none then nestedOffsets offset n i previous (e :: es).dropLast else some []) = some [] := by
  by_cases hhead : ds.head? = some none
  · rw [if_pos hhead, h hhead]
    rfl
  · rw [if_neg hhead]

/-- A plain value is written in place and read there. -/
theorem exists_plain {p : Packages} {b : Base} (hb : b.Valid) {ds : List (Option Nat)} {v : Value} (hv : HasType b ds v)
    (hplain : Plain p b ds v) : ∃ e s, Written p ⟨b, ds⟩ v e s ∧ InPlace p ⟨b, ds⟩ v s := by
  induction ds generalizing v with
  | nil =>
    obtain ⟨s, hs⟩ := exists_cell hb hplain.1 hv hplain.2
    have hunit := unit_le hb
    refine ⟨.leaf s, s, ⟨?_, write_nil b s, ?_⟩, fun bytes pos hat => ?_⟩
    · rw [encode_nil, hs.input, Option.map_some]
    · rw [hs.length, words, words_of_static hplain.1]
    · rw [read_nil_static p b hplain.1, hat.substr (by rw [hs.length]; omega), hs.output]
  | cons d ds ih =>
    obtain ⟨items, rfl, -, hk, hitems⟩ := hv
    cases d with
    | none => exact absurd hplain (by simp [Plain])
    | some k =>
      obtain ⟨hsteps, hall⟩ := hplain
      obtain ⟨es, strs, hmap, hes, hwrite, hstrs⟩ := exists_items (R := InPlace p ⟨b, ds⟩) fun v hv => ih (hitems v hv) (hall v hv)
      have hnone : ds.head? = some none → items = [] := eq_nil_of_plain hall
      have hnone' : ds.head? = some none → es = [] := fun h => by
        rw [hnone h] at hes
        exact List.forall₂_nil_left_iff.mp hes
      refine ⟨.staticArr es, strs.flatten, ⟨?_, fun offset => ?_, ?_⟩, fun bytes pos hat => ?_⟩
      · rw [encode_some p b ds (hk k rfl), hmap]
        rfl
      · rw [write_some, offsets_eq_nil hnone']
        exact hwrite offset []
      · have hzero : (if ds.head? = some none then items.length else 0) = 0 := by
          split
          · rename_i h
            rw [hnone h]
            rfl
          · rfl
        rw [length_flatten hstrs, words, if_neg (by simp), hzero, Nat.zero_add]
      · rw [read_some, ← hk k rfl, readItems_eq hstrs hsteps hat]
        rfl

/-- For a static array without items nothing is written, and nothing is read. -/
theorem exists_empty (p : Packages) (b : Base) {d : Option Nat} (hd : d = some 0) (ds : List (Option Nat)) :
    ∃ e, Written p ⟨b, d :: ds⟩ (.arr []) e [] ∧ ∀ bytes pos, (Ty.mk b (d :: ds)).read p bytes pos = some (.arr []) := by
  subst hd
  refine ⟨.staticArr [], ⟨?_, fun offset => ?_, ?_⟩, fun bytes pos => ?_⟩
  · rw [encode_some p b ds (List.length_nil (α := Value))]
    rfl
  · rw [write_some, offsets_eq_nil fun _ => rfl]
    rfl
  · simp [words]
  · rw [read_some, readItems]
    simp

/-! ## Values at the end of an offset -/

/-- Values that are written behind an offset: dynamic arrays of items in place, strings and bytes, and static arrays of one of these. A
dynamic array of dynamic ones is not among them, even of two, for which the offsets would be right in the first loop of
`encodeMultiWithOffset`: it is written in the second one, which counts from behind all that has been written. -/
def Tail (p : Packages) (b : Base) : List (Option Nat) → Value → Prop
  | [], _ => b.solidityType.isDynamicType = true
  | none :: ds, .arr items => Steps p ⟨b, ds⟩ items ∧ ∀ v ∈ items, Plain p b ds v
  | some _ :: ds, .arr [v] => ds.head? ≠ some none ∧ (Ty.mk b ds).stride ≠ 0 ∧ Tail p b ds v
  | some _ :: _, .arr [] => True
  | _ :: _, _ => False

/-- A value behind an offset is written there, and read through it. -/
theorem exists_tail {p : Packages} (hp : p.Exact) {b : Base} (hb : b.Valid) {ds : List (Option Nat)} {v : Value} (hv : HasType b ds v)
    (htail : Tail p b ds v) : ∃ e s, Written p ⟨b, ds⟩ v e s ∧ AtOffset p ⟨b, ds⟩ v s := by
  induction ds generalizing v with
  | nil =>
    obtain ⟨s, hs⟩ := exists_row hp htail hv
    obtain ⟨n, hn, hlen⟩ := hs.count
    refine ⟨.leaf s, s, ⟨?_, write_nil b s, hs.length⟩, fun bytes pos q hq hat hat' => ?_⟩
    · rw [encode_nil, hs.input, Option.map_some]
    · have hcount : parseHex (substr bytes (some (q * 2)) 64) = some n := by
        rw [hat'.substr (by omega), hn]
      rw [read_nil_dynamic p b htail bytes pos (hat.parse hq) hcount, hat'.substr (by omega), ← hlen, List.take_length, hs.output]
  | cons d ds ih =>
    obtain ⟨items, rfl, hlen, hk, hitems⟩ := hv
    cases d with
    | none =>
      obtain ⟨hsteps, hall⟩ := htail
      obtain ⟨es, strs, hmap, hes, hwrite, hstrs⟩ :=
        exists_items (R := InPlace p ⟨b, ds⟩) fun v hv => exists_plain hb (hitems v hv) (hall v hv)
      have hnone : ds.head? = some none → items = [] := eq_nil_of_plain hall
      have hnone' : ds.head? = some none → es = [] := fun h => by
        rw [hnone h] at hes
        exact List.forall₂_nil_left_iff.mp hes
      have hword := length_word (n := items.length) (by omega)
      refine ⟨.dynamicArr (word items.length) es, word items.length ++ strs.flatten, ⟨?_, fun offset => ?_, ?_⟩,
        fun bytes pos q hq hat hat' => ?_⟩
      · rw [encode_none, formatInputNumber_natCast (by omega), hmap]
        rfl
      · rw [write_none, offsets_eq_nil hnone']
        refine (hwrite offset (word items.length ++ [])).trans ?_
        rw [List.append_nil]
      · have hzero : (if ds.head? = some none then items.length else 0) = 0 := by
          split
          · rename_i h
            rw [hnone h]
            rfl
          · rfl
        rw [List.length_append, hword, length_flatten hstrs, words, if_pos rfl, hzero]
        ring
      · have hcount : parseHex (substr bytes (some (q * 2)) 64) = some items.length := hat'.left.parse (by omega)
        rw [read_none p b ds bytes pos (hat.parse hq) hcount, readItems_eq hstrs hsteps (hat'.right (n := 32) (by rw [hword]))]
        rfl
    | some k =>
      match items, htail with
      | [], _ =>
        obtain ⟨e, hs, hread⟩ := exists_empty p b (d := some k) (congrArg some (hk k rfl).symm) ds
        exact ⟨e, [], hs, fun bytes pos _ _ _ _ => hread bytes pos⟩
      | [v], ⟨hhead, hstride, htail⟩ =>
        obtain ⟨e, s, hs, hread⟩ := ih (hitems v List.mem_cons_self) htail
        refine ⟨.staticArr [e], s, ⟨?_, fun offset => ?_, ?_⟩, fun bytes pos q hq hat hat' => ?_⟩
        · rw [encode_some p b ds (hk k rfl), List.mapM_cons, hs.encode]
          rfl
        · rw [write_some, offsets_eq_nil fun h => absurd h hhead]
          refine Eq.trans ?_ (hs.write (itemOffset offset []))
          simp [writeItems, hs.write]
        · rw [hs.length, words, if_neg (by simp), if_neg hhead]
          simp
        · rw [read_some, ← hk k rfl, readItems, if_neg hstride]
          have hv := hread bytes pos q hq hat hat'
          simp [hv]

/-! ## Offsets in place -/

/-- `length` -/
def Value.count : Value → Nat
  | .arr items => items.length
  | _ => 0

/-- What the loops over offsets take a length for: its digits are read in base ten. -/
def asDecimal (n : Nat) : ℚ := (toNumber (word n)).getD 0

/-- Static arrays of dynamic ones, which are written in place with the offsets of their items: the code counts them from the given
offset, by the lengths of the items. -/
def Nested (p : Packages) (b : Base) : List (Option Nat) → Value → Nat → Nat → Prop
  | some _ :: none :: ds, .arr items, offset, pos =>
    items ≠ [] ∧ offset = pos + 32 * items.length ∧ (∀ v ∈ items, Tail p b (none :: ds) v) ∧
      ∀ v ∈ items.dropLast, (b.unit : ℚ) + 32 * asDecimal v.count = 32 * words p b (none :: ds) v
  | some _ :: ds, .arr [v], offset, pos => (Ty.mk b ds).stride ≠ 0 ∧ Nested p b ds v offset pos
  | _, _, _, _ => False

/-- The offsets of items that are written one behind the other. -/
def pointers (w : Value → Nat) : Nat → List Value → List Char
  | _, [] => []
  | q, v :: items => word q ++ pointers w (q + 32 * w v) items

/-- There is one offset for each item. -/
theorem length_pointers {w : Value → Nat} {q : Nat} {items : List Value} (hfit : q + 32 * (items.map w).sum < 2 ^ 256) :
    (pointers w q items).length = 64 * items.length := by
  induction items generalizing q with
  | nil => rfl
  | cons v items ih =>
    rw [List.map_cons, List.sum_cons] at hfit
    rw [pointers, List.length_append, length_word (by omega), ih (by omega), List.length_cons]
    ring

/-- The code's offsets are those of the items, if each item but the last takes what its length stands for. -/
theorem nestedOffsets_eq {w : Value → Nat} {items : List Value} {es : List Encoded}
    (h : List.Forall₂ (fun v e => e.first = word v.count) items es) {offset : ℚ} {unit : Nat}
    (hunit : ∀ v ∈ items.dropLast, (unit : ℚ) + 32 * asDecimal v.count = 32 * w v) {i q : Nat} {previous : ℚ} {e : Encoded}
    (hq : offset + i * unit + (previous + (toNumber e.first).getD 0) * 32 = q) (hfit : q + 32 * (items.map w).sum < 2 ^ 256) :
    nestedOffsets (some offset) unit i previous (e :: es).dropLast = some (pointers w q items) := by
  induction h generalizing i q previous e with
  | nil => rfl
  | @cons v e' items es hfirst hrest ih =>
    rw [List.map_cons, List.sum_cons] at hfit
    have hword : formatInputNumber (((some offset).map (· + i * unit + (previous + (toNumber e.first).getD 0) * 32)).getD 0) =
        some (word q) := by
      rw [Option.map_some, Option.getD_some, hq, formatInputNumber_natCast (by omega)]
    have hnext : nestedOffsets (some offset) unit (i + 1) (previous + (toNumber e.first).getD 0) (e' :: es).dropLast =
        some (pointers w (q + 32 * w v) items) := by
      cases hrest with
      | nil => rfl
      | cons h hrest =>
        refine ih (fun v hv => hunit v (List.mem_cons_of_mem _ hv)) ?_ (by omega)
        have hv := hunit v List.mem_cons_self
        rw [asDecimal, ← hfirst] at hv
        push_cast
        linarith
    rw [List.dropLast_cons_cons, nestedOffsets]
    rw [hword, hnext]
    rfl

/-- Items are read through their offsets. -/
theorem mapM_read_pointers {p : Packages} {ty : Ty} {items : List Value} {strs : List (List Char)}
    (h : List.Forall₂ (fun v s => s.length = 64 * words p ty.base ty.dims v ∧ AtOffset p ty v s) items strs) {q : Nat}
    (hfit : q + 32 * (items.map (words p ty.base ty.dims)).sum < 2 ^ 256)
    (hat : At bytes pos (pointers (words p ty.base ty.dims) q items)) (hat' : At bytes q strs.flatten) :
    (List.range items.length).mapM (fun i => ty.read p bytes (pos + i * 32)) = some items := by
  induction h generalizing pos q with
  | nil => rfl
  | @cons v s items strs h hrest ih =>
    rw [List.map_cons, List.sum_cons] at hfit
    rw [List.flatten_cons] at hat'
    have hv := h.2 bytes pos q (by omega) hat.left hat'.left
    have hpos : ∀ i, pos + (i + 1) * 32 = pos + 32 + i * 32 := fun i => by ring
    have hmap : (List.range items.length).mapM (fun i => ty.read p bytes (pos + (i + 1) * 32)) = some items := by
      simp only [hpos]
      exact ih (by omega) (hat.right (by rw [length_word (by omega)])) (hat'.right (by rw [h.1]; ring))
    rw [List.length_cons, List.range_succ_eq_map, List.mapM_cons, List.mapM_map, Nat.zero_mul, Nat.add_zero, hv]
    exact congrArg (fun o => o.bind fun vs => some (v :: vs)) hmap

/-- The first element of an encoded dynamic array is its length. -/
theorem first_of_encode {p : Packages} {b : Base} {ds : List (Option Nat)} {v : Value} {e : Encoded} (hv : HasType b (none :: ds) v)
    (he : (Ty.mk b (none :: ds)).encode p v = some e) : e.first = word v.count := by
  obtain ⟨items, rfl, hlen, -, -⟩ := hv
  rw [encode_none, formatInputNumber_natCast (by omega)] at he
  obtain ⟨length, hl, he⟩ := Option.bind_eq_some_iff.mp he
  obtain ⟨result, -, he⟩ := Option.bind_eq_some_iff.mp he
  cases hl
  cases he
  rfl

/-- What relates two lists can be weakened by what is known of the first. -/
theorem forall₂_of_mem {α β : Type} {R S : α → β → Prop} {l : List α} {m : List β} (h : List.Forall₂ R l m)
    (himp : ∀ a ∈ l, ∀ b, R a b → S a b) : List.Forall₂ S l m := by
  induction h with
  | nil => exact .nil
  | cons h _ ih => exact .cons (himp _ List.mem_cons_self _ h) (ih fun a ha => himp a (List.mem_cons_of_mem _ ha))

/-- The items of a static array of dynamic ones are found at their offsets. -/
theorem exists_offsets {p : Packages} (hp : p.Exact) {b : Base} (hb : b.Valid) {k : Nat} {ds : List (Option Nat)} {items : List Value}
    {offset : Nat} (hk : items.length = k) (hitems : ∀ v ∈ items, HasType b (none :: ds) v)
    (hnested : Nested p b (some k :: none :: ds) (.arr items) offset pos)
    (hfit : pos + 32 * words p b (some k :: none :: ds) (.arr items) < 2 ^ 256) :
    ∃ e s, (Ty.mk b (some k :: none :: ds)).encode p (.arr items) = some e ∧
      (Ty.mk b (some k :: none :: ds)).write e (some offset) = some s ∧
      s.length = 64 * words p b (some k :: none :: ds) (.arr items) ∧
      ∀ bytes, At bytes pos s → (Ty.mk b (some k :: none :: ds)).read p bytes pos = some (.arr items) := by
  obtain ⟨hne, hoffset, htail, hunit⟩ := hnested
  have hwords : words p b (some k :: none :: ds) (.arr items) = items.length + (items.map (words p b (none :: ds))).sum := by
    rw [words, if_neg (by simp), List.head?_cons, if_pos rfl, Nat.zero_add]
  rw [hwords] at hfit
  obtain ⟨es, strs, hmap, hes, hwrite, hstrs⟩ :=
    exists_items (R := AtOffset p ⟨b, none :: ds⟩) fun v hv => exists_tail hp hb (hitems v hv) (htail v hv)
  have hfirst : List.Forall₂ (fun v e => e.first = word v.count) items es :=
    forall₂_of_mem hes fun v hv e he => first_of_encode (hitems v hv) he
  have hoffsets : nestedOffsets (some (offset : ℚ)) b.unit 0 0 (.staticArr [] :: es).dropLast =
      some (pointers (words p b (none :: ds)) offset items) :=
    nestedOffsets_eq hfirst hunit (by simp [Encoded.first, toNumber]) (by omega)
  have hlen : (pointers (words p b (none :: ds)) offset items).length = 64 * items.length := length_pointers (by omega)
  refine ⟨.staticArr es, pointers (words p b (none :: ds)) offset items ++ strs.flatten, ?_, ?_, ?_, fun bytes hat => ?_⟩
  · rw [encode_some p b _ hk, hmap]
    rfl
  · have hlast : b.unit * (Ty.mk b (none :: ds)).last = b.unit := Nat.mul_one _
    rw [write_some, List.head?_cons, if_pos rfl, hlast, hoffsets]
    exact hwrite _ _
  · rw [List.length_append, hlen, length_flatten hstrs, hwords, Nat.mul_add]
  · have hstride : (Ty.mk b (none :: ds)).stride = 32 := by
      have h1 := unit_pos hb
      have h32 := unit_le hb
      rw [Ty.stride, roundUp, Ty.last]
      dsimp only
      omega
    have hsum : offset + 32 * (items.map (words p b (none :: ds))).sum < 2 ^ 256 := by omega
    have hread := mapM_read_pointers hstrs (q := offset) hsum hat.left (by
      rw [hoffset]
      exact hat.right (by rw [hlen]; ring))
    rw [read_some, readItems, hstride, if_neg (by decide), ← hk, hread]
    rfl

/-- Static arrays of dynamic ones are written with their offsets, and read through them. -/
theorem exists_nested {p : Packages} (hp : p.Exact) {b : Base} (hb : b.Valid) {ds : List (Option Nat)} {v : Value} {offset : Nat}
    (hv : HasType b ds v) (hnested : Nested p b ds v offset pos) (hfit : pos + 32 * words p b ds v < 2 ^ 256) :
    ∃ e s, (Ty.mk b ds).encode p v = some e ∧ (Ty.mk b ds).write e (some offset) = some s ∧ s.length = 64 * words p b ds v ∧
      ∀ bytes, At bytes pos s → (Ty.mk b ds).read p bytes pos = some v := by
  induction ds generalizing v with
  | nil => exact absurd hnested (by simp [Nested])
  | cons d ds ih =>
    obtain ⟨items, rfl, -, hk, hitems⟩ := hv
    match d, ds, items, hnested with
    | some k, none :: ds, items, hnested => exact exists_offsets hp hb (hk k rfl) hitems hnested hfit
    | some k, [], [v], ⟨_, hnested⟩ => exact absurd hnested (by simp [Nested])
    | some k, some j :: ds, [v], ⟨hstride, hnested⟩ =>
      have hwords : words p b (some k :: some j :: ds) (.arr [v]) = words p b (some j :: ds) v := by
        rw [words]
        simp
      rw [hwords] at hfit
      obtain ⟨e, s, hencode, hwrite, hlen, hread⟩ := ih (hitems v List.mem_cons_self) hnested hfit
      -- there is nothing before the only item, so that its offset is the given one
      have hoffset : itemOffset (some (offset : ℚ)) [] = some (offset : ℚ) := by simp [itemOffset, toNumber]
      refine ⟨.staticArr [e], s, ?_, ?_, ?_, fun bytes hat => ?_⟩
      · rw [encode_some p b _ (hk k rfl), List.mapM_cons, hencode]
        rfl
      · rw [write_some, List.head?_cons, if_neg (by simp)]
        refine Eq.trans ?_ hwrite
        simp [writeItems, hoffset, hwrite]
      · rw [hlen, hwords]
      · rw [read_some, ← hk k rfl, readItems, if_neg hstride]
        have hv := hread bytes hat
        simp [hv]

end Solidity

end Webthree.Web3
