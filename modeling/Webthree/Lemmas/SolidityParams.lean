import Webthree.Lemmas.SolidityLayout

/-!
# Lists of parameters

The heads and the tails of parameters, in the order in which the loops of `encodeMultiWithOffset` write them, and the offsets at which
`decodeParams` reads.
-/

namespace Webthree.Web3

namespace Solidity

variable (p : Packages)

namespace Ty

variable (ty : Ty)

/-- `isDynamic` -/
def isDynamic : Bool := ty.dims.head?.any Option.isNone || ty.base.solidityType.isDynamicType

/-- The static length, in bytes. -/
def staticSize : Nat := ty.base.unit * ty.last

/-- The bytes that are written in the head. -/
def headSize (v : Value) : Nat := if ty.isDynamic then 32 else 32 * words p ty.base ty.dims v

/-- The bytes that are written behind the head. -/
def tailSize (v : Value) : Nat := if ty.isDynamic then 32 * words p ty.base ty.dims v else 0

/-- A parameter that is read where it was written: the decoder's position is that of its head, and the encoder's offset that of its
tail. For an array that has no items by its type nothing is read. -/
def Readable (v : Value) (readAt headAt offset tailAt : Nat) : Prop :=
  ty.dims.head? = some (some 0) ∨
    readAt = headAt ∧
      if ty.isDynamic then offset = tailAt ∧ Tail p ty.base ty.dims v
      else Plain p ty.base ty.dims v ∨ Nested p ty.base ty.dims v offset headAt

end Ty

/-- What is written for a parameter in the head and behind it, and that it is read back. -/
structure Placed (ty : Ty) (v : Value) (readAt headAt offset tailAt : Nat) (e : Encoded) (head tail : List Char) : Prop where
  encode : ty.encode p v = some e
  write : if ty.isDynamic then head = word offset ∧ ∀ o, ty.write e o = some tail else ty.write e (some offset) = some head ∧ tail = []
  length_head : head.length = ty.headSize p v * 2
  length_tail : tail.length = ty.tailSize p v * 2
  read : ∀ bytes, At bytes headAt head → At bytes tailAt tail → ty.read p bytes readAt = some v

variable {p}

theorem exists_placed (hp : p.Exact) {ty : Ty} {v : Value} {readAt headAt offset tailAt : Nat} (hb : ty.base.Valid)
    (hv : HasType ty.base ty.dims v) (hr : ty.Readable p v readAt headAt offset tailAt) (hoffset : offset < 2 ^ 256)
    (hfit : headAt + ty.headSize p v < 2 ^ 256) : ∃ e head tail, Placed p ty v readAt headAt offset tailAt e head tail := by
  have hword := length_word hoffset
  rcases hr with hzero | ⟨hread, hr⟩
  · obtain ⟨b, ds⟩ := ty
    obtain ⟨ds, rfl⟩ : ∃ ds', ds = some 0 :: ds' := by
      cases ds with
      | nil => cases hzero
      | cons d ds =>
        cases hzero
        exact ⟨ds, rfl⟩
    obtain ⟨items, rfl, -, hk, -⟩ := hv
    obtain rfl : items = [] := List.length_eq_zero_iff.mp (hk 0 rfl)
    obtain ⟨e, hs, hread⟩ := exists_empty p b rfl ds
    have hwords : words p b (some 0 :: ds) (.arr []) = 0 := by
      have := hs.length
      rw [List.length_nil] at this
      dsimp only at this
      omega
    cases hdyn : (Ty.mk b (some 0 :: ds)).isDynamic with
    | true =>
      refine ⟨e, word offset, [], hs.encode, ?_, ?_, ?_, fun bytes _ _ => hread bytes readAt⟩
      · rw [hdyn, if_pos rfl]
        exact ⟨rfl, hs.write⟩
      · rw [hword, Ty.headSize, hdyn, if_pos rfl]
      · rw [Ty.tailSize, hdyn, if_pos rfl, hwords]
        rfl
    | false =>
      refine ⟨e, [], [], hs.encode, ?_, ?_, ?_, fun bytes _ _ => hread bytes readAt⟩
      · rw [hdyn, if_neg (by decide)]
        exact ⟨hs.write _, rfl⟩
      · rw [Ty.headSize, hdyn, if_neg (by decide), hwords]
        rfl
      · rw [Ty.tailSize, hdyn, if_neg (by decide)]
        rfl
  · cases hdyn : ty.isDynamic with
    | true =>
      rw [hdyn, if_pos rfl] at hr
      obtain ⟨hoff, htail⟩ := hr
      obtain ⟨e, s, hs, hat⟩ := exists_tail hp hb hv htail
      refine ⟨e, word offset, s, hs.encode, ?_, ?_, ?_, fun bytes hhead htail => ?_⟩
      · rw [hdyn, if_pos rfl]
        exact ⟨rfl, hs.write⟩
      · rw [hword, Ty.headSize, hdyn, if_pos rfl]
      · rw [hs.length, Ty.tailSize, hdyn, if_pos rfl]
        ring
      · subst hread hoff
        exact hat bytes _ _ hoffset hhead htail
    | false =>
      rw [Ty.headSize, hdyn, if_neg (by decide)] at hfit
      have hsize : ty.headSize p v = 32 * words p ty.base ty.dims v ∧ ty.tailSize p v = 0 := by
        rw [Ty.headSize, Ty.tailSize, hdyn]
        exact ⟨rfl, rfl⟩
      rw [hdyn, if_neg (by decide)] at hr
      obtain ⟨e, s, hencode, hwrite, hlen, hat⟩ : ∃ e s, ty.encode p v = some e ∧ ty.write e (some offset) = some s ∧
          s.length = 64 * words p ty.base ty.dims v ∧ ∀ bytes, At bytes headAt s → ty.read p bytes headAt = some v := by
        rcases hr with hplain | hnested
        · obtain ⟨e, s, hs, hat⟩ := exists_plain hb hv hplain
          exact ⟨e, s, hs.encode, hs.write _, hs.length, fun bytes => hat bytes headAt⟩
        · exact exists_nested hp hb hv hnested hfit
      refine ⟨e, s, [], hencode, ?_, ?_, ?_, fun bytes hhead _ => ?_⟩
      · rw [hdyn, if_neg (by decide)]
        exact ⟨hwrite, rfl⟩
      · rw [hlen, hsize.1]
        ring
      · rw [hsize.2]
        rfl
      · subst hread
        exact hat bytes hhead

/-! ## All parameters -/

/-- A parameter with its type. -/
abbrev Arg := Ty × Value

variable (p)

/-- Each parameter is readable, with the positions that its predecessors leave. -/
def AllReadable : Nat → Nat → Nat → Nat → List Arg → Prop
  | _, _, _, _, [] => True
  | readAt, headAt, offset, tailAt, (ty, v) :: args =>
    ty.Readable p v readAt headAt offset tailAt ∧
      AllReadable (readAt + ty.staticSize) (headAt + ty.headSize p v) (offset + ty.tailSize p v) (tailAt + ty.tailSize p v) args

/-- The length of the head. -/
def headSizes (args : List Arg) : Nat := (args.map fun a => a.1.headSize p a.2).sum

/-- The length of what is behind the head. -/
def tailSizes (args : List Arg) : Nat := (args.map fun a => a.1.tailSize p a.2).sum

/-- `dynamicOffset` at the start of `encodeParams`. -/
def dynamicOffset (args : List Arg) : Nat := (args.map fun a => roundUp a.1.staticSize).sum

/-- The type names of parameters. -/
def names (args : List Arg) : List (List Char) := args.map fun a => a.1.name

/-- The values of parameters. -/
def values (args : List Arg) : List Value := args.map fun a => a.2

/-- The positions that lengths leave. -/
def starts : Nat → List Nat → List Nat
  | _, [] => []
  | pos, length :: lengths => pos :: starts (pos + length) lengths

theorem getOffsets_eq (lengths : List Nat) : getOffsets lengths = starts 0 lengths := by
  have h : ∀ pos, (runningSums pos lengths).zipWith (· - ·) lengths = starts pos lengths := by
    induction lengths with
    | nil => exact fun _ => rfl
    | cons length lengths ih =>
      intro pos
      rw [runningSums, List.zipWith_cons_cons, ih, starts, Nat.add_sub_cancel]
  exact h 0

/-- What `decodeParams` reads, from a position on. -/
def readArgs (bytes : List Char) (readAt : Nat) (args : List Arg) : Option (List Value) :=
  ((names args).zip ((args.map fun a => a.1.base.solidityType).zip (starts readAt (args.map fun a => a.1.staticSize)))).mapM
    fun (name, solidityType, offset) => solidityType.decode p bytes (some offset) name

theorem readArgs_cons (bytes : List Char) (readAt : Nat) (ty : Ty) (v : Value) (args : List Arg) :
    readArgs p bytes readAt ((ty, v) :: args) = (do
      let w ← ty.read p bytes readAt
      let ws ← readArgs p bytes (readAt + ty.staticSize) args
      return w :: ws) := by
  rw [readArgs, names, List.map_cons, List.map_cons, List.map_cons, starts, List.zip_cons_cons, List.zip_cons_cons, List.mapM_cons]
  rfl

theorem isDynamic_param (ty : Ty) (e : Encoded) : (Param.mk ty.name ty.base.solidityType e).isDynamic = ty.isDynamic := by
  rw [Param.isDynamic, Ty.isDynamic, Ty.isDynamicArray_name]

variable {p}

/-- The encoding of the first parameter stands in front of those of the others. -/
theorem encodeEach_cons {ty : Ty} {v : Value} {args : List Arg} {e : Encoded} {qs : List Param}
    (he : ty.base.solidityType.encode p v ty.name = some e) (hqs : encodeEach p (names args) (values args) = some qs) :
    encodeEach p (names ((ty, v) :: args)) (values ((ty, v) :: args)) = some (⟨ty.name, ty.base.solidityType, e⟩ :: qs) := by
  rw [names, values, List.map_cons, List.map_cons, encodeEach, Ty.requireType_name]
  change ((ty.base.solidityType.encode p v ty.name).bind fun e => (encodeEach p (names args) (values args)).bind fun rest =>
    some (Param.mk ty.name ty.base.solidityType e :: rest)) = _
  rw [he, Option.bind_some, hqs, Option.bind_some]

/-- The heads and the tails of parameters that are readable. -/
theorem exists_args (hp : p.Exact) {args : List Arg} (hb : ∀ a ∈ args, a.1.base.Valid) (hv : ∀ a ∈ args, HasType a.1.base a.1.dims a.2)
    {readAt headAt offset tailAt : Nat} (hr : AllReadable p readAt headAt offset tailAt args) (hoffset : offset + tailSizes p args < 2 ^ 256)
    (hfit : headAt + headSizes p args < 2 ^ 256) :
    ∃ qs heads tails, encodeEach p (names args) (values args) = some qs ∧
      (qs.map fun q => roundUp (q.solidityType.staticPartLength q.name)).sum = dynamicOffset args ∧
      (∀ result, writeHeads qs result offset = some (result ++ heads, ((offset + tailSizes p args : ℕ) : ℚ))) ∧
      (∀ result (o : ℚ), writeTails qs result o = some (result ++ tails)) ∧
      heads.length = headSizes p args * 2 ∧
      ∀ bytes, At bytes headAt heads → At bytes tailAt tails → readArgs p bytes readAt args = some (values args) := by
  induction args generalizing readAt headAt offset tailAt with
  | nil =>
    refine ⟨[], [], [], rfl, rfl, fun result => ?_, fun result o => ?_, rfl, fun bytes _ _ => rfl⟩
    · rw [List.append_nil]
      rfl
    · rw [writeTails, List.append_nil]
  | cons a args ih =>
    obtain ⟨ty, v⟩ := a
    obtain ⟨hr, hrest⟩ := hr
    have hheads : headSizes p ((ty, v) :: args) = ty.headSize p v + headSizes p args := rfl
    have htails : tailSizes p ((ty, v) :: args) = ty.tailSize p v + tailSizes p args := rfl
    rw [htails] at hoffset
    rw [hheads] at hfit
    have hty : ty.base.Valid := hb (ty, v) List.mem_cons_self
    have hval : HasType ty.base ty.dims v := hv (ty, v) List.mem_cons_self
    obtain ⟨e, head, tail, hplaced⟩ := exists_placed hp hty hval hr (by omega) (by omega)
    obtain ⟨qs, heads, tails, hencode, hsum, hwrite, hwrite', hlen, hread⟩ :=
      ih (fun a ha => hb a (List.mem_cons_of_mem _ ha)) (fun a ha => hv a (List.mem_cons_of_mem _ ha)) hrest (by omega) (by omega)
    refine ⟨⟨ty.name, ty.base.solidityType, e⟩ :: qs, head ++ heads, tail ++ tails, ?_, ?_, fun result => ?_, fun result o => ?_, ?_,
      fun bytes hat hat' => ?_⟩
    · exact encodeEach_cons hplaced.encode hencode
    · rw [List.map_cons, List.sum_cons, hsum, Ty.staticPartLength_name]
      rfl
    · have hnext := hwrite (result ++ head)
      have hcast : ((offset : ℚ) + (tail.length : ℚ) / 2) = ((offset + ty.tailSize p v : ℕ) : ℚ) := by
        rw [hplaced.length_tail, Nat.cast_mul, Nat.cast_add, Nat.cast_ofNat, mul_div_cancel_right₀ _ (by norm_num)]
      rw [writeHeads, isDynamic_param]
      have hw := hplaced.write
      rw [List.append_assoc] at hnext
      cases hdyn : ty.isDynamic with
      | true =>
        rw [hdyn, if_pos rfl] at hw
        obtain ⟨rfl, hw⟩ := hw
        have hwith : (Param.mk ty.name ty.base.solidityType e).withOffset offset = some tail := hw _
        rw [if_pos rfl, formatInputNumber_natCast (by omega)]
        change ((Param.mk ty.name ty.base.solidityType e).withOffset offset).bind
          (fun e => writeHeads qs (result ++ word offset) (offset + e.length / 2)) = _
        rw [hwith, Option.bind_some, hcast, hnext, htails, Nat.add_assoc]
      | false =>
        rw [hdyn, if_neg (by decide)] at hw
        obtain ⟨hw, rfl⟩ := hw
        have hwith : (Param.mk ty.name ty.base.solidityType e).withOffset offset = some head := hw
        have hzero : ty.tailSize p v = 0 := by rw [Ty.tailSize, hdyn, if_neg (by decide)]
        rw [hzero, Nat.add_zero] at hnext
        rw [if_neg (by decide), hwith, htails, hzero, Nat.zero_add]
        exact hnext
    · have hw := hplaced.write
      rw [writeTails, isDynamic_param]
      cases hdyn : ty.isDynamic with
      | true =>
        rw [hdyn, if_pos rfl] at hw
        have hwith : (Param.mk ty.name ty.base.solidityType e).withOffset o = some tail := hw.2 _
        rw [if_pos rfl, hwith]
        refine (hwrite' (result ++ tail) _).trans ?_
        rw [List.append_assoc]
      | false =>
        rw [hdyn, if_neg (by decide)] at hw
        rw [if_neg (by decide), hwrite' result o, hw.2, List.nil_append]
    · rw [List.length_append, hplaced.length_head, hlen, hheads, Nat.add_mul]
    · have hv := hplaced.read bytes hat.left hat'.left
      have hvs := hread bytes (hat.right hplaced.length_head) (hat'.right hplaced.length_tail)
      rw [readArgs_cons, hv, hvs]
      rfl

end Solidity

end Webthree.Web3
