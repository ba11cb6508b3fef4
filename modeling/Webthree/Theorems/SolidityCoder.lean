import Mathlib.Algebra.Order.BigOperators.Group.List
import Webthree.Lemmas.SolidityStatic

/-!
# Encoding and decoding parameters

Parameters come back if the positions that the coder computes are those where it writes, which they are for all flat types.
-/

namespace Webthree.Web3

namespace Solidity

/-- The positions that the coder computes are those where it writes, for these parameters; and they fit into a word. -/
structure Laid (p : Packages) (args : List Arg) : Prop where
  readable : AllReadable p 0 0 (dynamicOffset args) (headSizes p args) args
  offsets : dynamicOffset args + tailSizes p args < 2 ^ 256
  positions : headSizes p args < 2 ^ 256

/-- `decodeParams(types, encodeParams(types, values))` -/
def roundTrip (p : Packages) (args : List Arg) : Option (List Value) :=
  (encodeParams p (names args) (values args)).bind (decodeParams p (names args))

theorem mapM_requireType (args : List Arg) : (names args).mapM requireType = some (args.map fun a => a.1.base.solidityType) := by
  induction args with
  | nil => rfl
  | cons a args ih =>
    rw [names, List.map_cons, List.mapM_cons, Ty.requireType_name]
    exact congrArg (fun o => o.bind fun ts => some (a.1.base.solidityType :: ts)) ih

theorem decodeParams_eq (p : Packages) (args : List Arg) (bytes : List Char) :
    decodeParams p (names args) bytes = readArgs p bytes 0 args := by
  have hlengths : (args.map fun a => a.1.base.solidityType).zipWith SolidityType.staticPartLength (names args) =
      args.map fun a => a.1.staticSize := by
    rw [names, List.zipWith_map, List.zipWith_self]
    exact List.map_congr_left fun a _ => Ty.staticPartLength_name a.1
  rw [decodeParams, mapM_requireType]
  change (List.mapM _ _) = _
  rw [hlengths, getOffsets_eq, readArgs]

theorem roundTrip_eq {p : Packages} (hp : p.Exact) {args : List Arg} (hb : ∀ a ∈ args, a.1.base.Valid)
    (hv : ∀ a ∈ args, HasType a.1.base a.1.dims a.2) (h : Laid p args) : roundTrip p args = some (values args) := by
  obtain ⟨qs, heads, tails, hencode, hsum, hwrite, hwrite', hlen, hread⟩ :=
    exists_args hp hb hv h.readable h.offsets (by rw [Nat.zero_add]; exact h.positions)
  have hbytes : encodeParams p (names args) (values args) = some (heads ++ tails) := by
    rw [encodeParams, hencode]
    change encodeMultiWithOffset qs _ = _
    rw [hsum, encodeMultiWithOffset, hwrite []]
    exact hwrite' heads _
  have hheads : At (heads ++ tails) 0 heads := List.prefix_append heads tails
  have htails : At (heads ++ tails) (headSizes p args) tails := by
    rw [At, ← hlen, List.drop_left]
  rw [roundTrip, hbytes, Option.bind_some, decodeParams_eq]
  exact hread _ hheads htails

/-! ## Flat types -/

/-- The types of one whole word: numbers without a sign, addresses, truth values and 32 bytes. -/
def Base.IsWord : Base → Prop
  | .uint _ => True
  | .address => True
  | .bool => True
  | .fixedBytes size => size = 32
  | _ => False

/-- A type of one word, an array of these with one dimension, bytes or a string. -/
def Ty.IsFlat (ty : Ty) : Prop :=
  match ty.dims with
  | [] => ty.base.IsWord ∨ ty.base = .bytes ∨ ty.base = .string
  | [none] => ty.base.IsWord
  | [some k] => ty.base.IsWord ∧ 1 ≤ k
  | _ => False

/-- What a word is for the coder. -/
theorem Base.IsWord.spec {p : Packages} {b : Base} (hb : b.IsWord) :
    b.Valid ∧ b.unit = 32 ∧ b.solidityType.isDynamicType = false ∧ ∀ v, b.Exact p v ∧ b.words p v = 1 := by
  cases b with
  | uint bits => exact ⟨trivial, rfl, rfl, fun _ => ⟨trivial, rfl⟩⟩
  | address => exact ⟨trivial, rfl, rfl, fun _ => ⟨trivial, rfl⟩⟩
  | bool => exact ⟨trivial, rfl, rfl, fun _ => ⟨trivial, rfl⟩⟩
  | fixedBytes size =>
    obtain rfl : size = 32 := hb
    exact ⟨⟨by decide, le_refl 32⟩, rfl, rfl, fun _ => ⟨trivial, rfl⟩⟩
  | _ => exact absurd hb id

/-- Items of one word are read in steps of one word. -/
theorem items_of_word {p : Packages} {b : Base} (hb : b.IsWord) (items : List Value) :
    (Steps p ⟨b, []⟩ items ∧ ∀ v ∈ items, Plain p b [] v) ∧ (items.map (words p b [])).sum = items.length := by
  obtain ⟨-, hunit, hstatic, hword⟩ := hb.spec (p := p)
  have hone : ∀ v, words p b [] v = 1 := fun v => (hword v).2
  have hstride : (Ty.mk b []).stride = 32 := by
    rw [Ty.stride, hunit, Ty.last_nil]
    rfl
  refine ⟨⟨fun _ => ⟨by rw [hstride]; decide, fun v _ => ?_⟩, fun v _ => ⟨hstatic, (hword v).1⟩⟩, ?_⟩
  · rw [hstride]
    exact congrArg (32 * ·) (hone v)
  · rw [List.map_congr_left fun v _ => hone v]
    simp

/-- A flat parameter takes its static length in the head. -/
structure FlatSpec (p : Packages) (ty : Ty) (v : Value) : Prop where
  valid : ty.base.Valid
  head : ty.headSize p v = ty.staticSize
  rounded : roundUp ty.staticSize = ty.staticSize
  head_le : ty.headSize p v ≤ 2 ^ 37
  tail_le : ty.tailSize p v ≤ 2 ^ 60
  readable : ∀ readAt offset, ty.Readable p v readAt readAt offset offset

theorem Ty.IsFlat.spec {p : Packages} (hp : p.Exact) {ty : Ty} {v : Value} (h : ty.IsFlat) (hv : HasType ty.base ty.dims v) :
    FlatSpec p ty v := by
  obtain ⟨b, ds⟩ := ty
  match ds, v, h, hv with
  | [], v, .inl hb, hv =>
    obtain ⟨hvalid, hunit, hstatic, hword⟩ := hb.spec (p := p)
    have hdyn : (Ty.mk b []).isDynamic = false := hstatic
    have hsize : (Ty.mk b []).headSize p v = 32 := by
      rw [Ty.headSize, hdyn, if_neg (by decide)]
      exact congrArg (32 * ·) (hword v).2
    have hstat : (Ty.mk b []).staticSize = 32 := by rw [Ty.staticSize, hunit, Ty.last_nil]
    refine ⟨hvalid, by rw [hsize, hstat], by rw [hstat]; rfl, by rw [hsize]; decide, ?_, fun readAt offset => .inr ⟨rfl, ?_⟩⟩
    · rw [Ty.tailSize, hdyn, if_neg (by decide)]
      exact Nat.zero_le _
    · rw [hdyn, if_neg (by decide)]
      exact .inl ⟨hstatic, (hword v).1⟩
  | [], v, .inr hb, hv =>
    have hdyn : (Ty.mk b []).isDynamic = true ∧ b.Valid ∧ b.unit = 32 := by
      rcases hb with rfl | rfl
      · exact ⟨rfl, trivial, rfl⟩
      · exact ⟨rfl, trivial, rfl⟩
    obtain ⟨hdyn, hvalid, hunit⟩ := hdyn
    have hsize : (Ty.mk b []).headSize p v = 32 := by rw [Ty.headSize, hdyn, if_pos rfl]
    have hstat : (Ty.mk b []).staticSize = 32 := by rw [Ty.staticSize, hunit, Ty.last_nil]
    refine ⟨hvalid, by rw [hsize, hstat], by rw [hstat]; rfl, by rw [hsize]; decide, ?_, fun readAt offset => .inr ⟨rfl, ?_⟩⟩
    · rw [Ty.tailSize, hdyn, if_pos rfl, words]
      rcases hb with rfl | rfl
      · obtain ⟨digits, rfl, -, -, hlen⟩ := hv
        rw [hex, Base.words, List.length_cons, List.length_cons]
        omega
      · obtain ⟨s, rfl, -, hlen⟩ := hv
        have hle := hp.length_encode s
        rw [Base.words]
        omega
    · rw [hdyn, if_pos rfl]
      exact ⟨rfl, hdyn⟩
  | [none], v, hb, hv =>
    obtain ⟨items, rfl, hlen, -⟩ := hv
    have hb : b.IsWord := hb
    obtain ⟨hvalid, hunit, -⟩ := hb.spec (p := p)
    obtain ⟨hitems, hsum⟩ := items_of_word (p := p) hb items
    have hdyn : (Ty.mk b [none]).isDynamic = true := rfl
    have hsize : (Ty.mk b [none]).headSize p (.arr items) = 32 := by rw [Ty.headSize, hdyn, if_pos rfl]
    have hstat : (Ty.mk b [none]).staticSize = 32 := by rw [Ty.staticSize, hunit, Ty.last_none]
    refine ⟨hvalid, by rw [hsize, hstat], by rw [hstat]; rfl, by rw [hsize]; decide, ?_, fun readAt offset => .inr ⟨rfl, ?_⟩⟩
    · have hwords : words p b [none] (.arr items) = 1 + items.length := by
        rw [words, if_pos rfl, if_neg (by simp), hsum]
      rw [Ty.tailSize, hdyn, if_pos rfl, hwords]
      omega
    · rw [hdyn, if_pos rfl]
      exact ⟨rfl, hitems⟩
  | [some k], v, ⟨hb, hk⟩, hv =>
    obtain ⟨items, rfl, hlen, hlength, -⟩ := hv
    obtain ⟨hvalid, hunit, hstatic, -⟩ := hb.spec (p := p)
    obtain ⟨hitems, hsum⟩ := items_of_word (p := p) hb items
    have hdyn : (Ty.mk b [some k]).isDynamic = false := hstatic
    have hsize : (Ty.mk b [some k]).headSize p (.arr items) = 32 * k := by
      rw [Ty.headSize, hdyn, if_neg (by decide), words, if_neg (by simp), if_neg (by simp), hsum, hlength k rfl]
      omega
    have hstat : (Ty.mk b [some k]).staticSize = 32 * k := by rw [Ty.staticSize, hunit, Ty.last_some]
    refine ⟨hvalid, by rw [hsize, hstat], by rw [hstat, roundUp]; omega, ?_, ?_, fun readAt offset => .inr ⟨rfl, ?_⟩⟩
    · rw [hsize, ← hlength k rfl]
      omega
    · rw [Ty.tailSize, hdyn, if_neg (by decide)]
      exact Nat.zero_le _
    · rw [hdyn, if_neg (by decide)]
      exact .inl hitems

/-- The positions of flat parameters: the static lengths are those of the heads. -/
theorem allReadable_of_flat {p : Packages} {args : List Arg} (h : ∀ a ∈ args, FlatSpec p a.1 a.2) (readAt offset : Nat) :
    AllReadable p readAt readAt offset offset args := by
  induction args generalizing readAt offset with
  | nil => trivial
  | cons a args ih =>
    obtain ⟨ty, v⟩ := a
    have ha := h (ty, v) List.mem_cons_self
    refine ⟨ha.readable readAt offset, ?_⟩
    rw [← ha.head]
    exact ih (fun a ha => h a (List.mem_cons_of_mem _ ha)) _ _

theorem dynamicOffset_of_flat {p : Packages} {args : List Arg} (h : ∀ a ∈ args, FlatSpec p a.1 a.2) :
    dynamicOffset args = headSizes p args :=
  congrArg List.sum (List.map_congr_left fun a ha => by rw [(h a ha).rounded, (h a ha).head])

/-- Flat parameters are where the coder expects them. -/
theorem laid_of_flat {p : Packages} {args : List Arg} (h : ∀ a ∈ args, FlatSpec p a.1 a.2) (hlen : args.length < 2 ^ 32) :
    Laid p args := by
  have hoffset := dynamicOffset_of_flat h
  have hheads : headSizes p args ≤ args.length * 2 ^ 37 := by
    have := List.sum_le_card_nsmul (args.map fun a => a.1.headSize p a.2) (2 ^ 37) fun n hn => by
      obtain ⟨a, ha, rfl⟩ := List.mem_map.mp hn
      exact (h a ha).head_le
    rwa [List.length_map, nsmul_eq_mul] at this
  have htails : tailSizes p args ≤ args.length * 2 ^ 60 := by
    have := List.sum_le_card_nsmul (args.map fun a => a.1.tailSize p a.2) (2 ^ 60) fun n hn => by
      obtain ⟨a, ha, rfl⟩ := List.mem_map.mp hn
      exact (h a ha).tail_le
    rwa [List.length_map, nsmul_eq_mul] at this
  refine ⟨?_, ?_, ?_⟩
  · rw [hoffset]
    exact allReadable_of_flat h 0 _
  · rw [hoffset]
    omega
  · omega

/-! ## Static arrays -/

/-- The first element that is not the last one and has not a property. -/
theorem exists_first {α : Type} {P : α → Prop} {l : List α} (h : ¬ ∀ a ∈ l.dropLast, P a) :
    ∃ pre a b post, l = pre ++ a :: b :: post ∧ (∀ x ∈ pre, P x) ∧ ¬ P a := by
  induction l with
  | nil => exact absurd (fun a ha => by cases ha) h
  | cons a l ih =>
    cases l with
    | nil => exact absurd (fun a ha => by cases ha) h
    | cons b l =>
      by_cases ha : P a
      · have htail : ¬ ∀ x ∈ (b :: l).dropLast, P x := fun hall => h fun x hx => by
          rcases List.mem_cons.mp hx with rfl | hx
          · exact ha
          · exact hall x hx
        obtain ⟨pre, c, d, post, heq, hpre, hc⟩ := ih htail
        refine ⟨a :: pre, c, d, post, by rw [heq, List.cons_append], fun x hx => ?_, hc⟩
        rcases List.mem_cons.mp hx with rfl | hx
        · exact ha
        · exact hpre x hx
      · exact ⟨[], a, b, l, rfl, nofun, ha⟩

/-- Parameters of zeros. -/
def zeroArgs (types : List Ty) : List Arg := types.map fun ty => (ty, zeroValue ty.base ty.dims)

theorem spellArgs_append (p : Packages) (args args' : List Arg) : spellArgs p (args ++ args') = spellArgs p args ++ spellArgs p args' := by
  rw [spellArgs, List.map_append, List.flatten_append]
  rfl

theorem spellArgs_zeroArgs {p : Packages} {types : List Ty} (h : ∀ ty ∈ types, ty.IsStatic) :
    spellArgs p (zeroArgs types) = List.replicate ((types.map fun ty => 32 * cells ty.dims).sum * 2) '0' := by
  induction types with
  | nil => rfl
  | cons ty types ih =>
    have hty : ty.IsStatic := h ty List.mem_cons_self
    have hcells : cells ty.dims * 64 = 32 * cells ty.dims * 2 := by ring
    have hcons : zeroArgs (ty :: types) = [(ty, zeroValue ty.base ty.dims)] ++ zeroArgs types := rfl
    have hone : spellArgs p [(ty, zeroValue ty.base ty.dims)] = spell p ty.base ty.dims (zeroValue ty.base ty.dims) := List.append_nil _
    rw [hcons, spellArgs_append, ih fun ty hty => h ty (List.mem_cons_of_mem _ hty), hone, spell_zeroValue hty, hcells,
      List.replicate_append_replicate, ← Nat.add_mul]
    rfl

/-- One parameter with a value of its own, and zeros. -/
def markedArgs (pre : List Ty) (ty : Ty) (v : Value) (post : List Ty) : List Arg := zeroArgs pre ++ (ty, v) :: zeroArgs post

/-- If all values come back, then the decoder does not read before the word of a mark. -/
theorem read_marked {p : Packages} {pre post : List Ty} {ty : Ty} {v : Value} (h : ∀ t ∈ pre ++ ty :: post, t.IsStatic)
    (hv : HasType ty.base ty.dims v)
    (hback : ∀ args : List Arg, args.map Prod.fst = pre ++ ty :: post → (∀ a ∈ args, HasType a.1.base a.1.dims a.2) →
      roundTrip p args = some (values args)) {P : Nat} {rest : List Char}
    (hspell : spell p ty.base ty.dims v = List.replicate (P * 2) '0' ++ (ty.base.markWord ++ rest)) :
    ∃ rest, ty.read p (List.replicate (((pre.map fun t => 32 * cells t.dims).sum + P) * 2) '0' ++ (ty.base.markWord ++ rest))
      (pre.map Ty.staticSize).sum = some v := by
  have hmap : ∀ types : List Ty, (zeroArgs types).map Prod.fst = types := fun types => by
    rw [zeroArgs, List.map_map]
    exact List.map_id types
  have hzero : ∀ types : List Ty, (∀ t ∈ types, t.IsStatic) → ∀ a ∈ zeroArgs types, HasType a.1.base a.1.dims a.2 := fun types ht a ha => by
    obtain ⟨t, htm, rfl⟩ := List.mem_map.mp ha
    exact hasType_zeroValue (ht t htm)
  have hpre : ∀ t ∈ pre, t.IsStatic := fun t ht => h t (List.mem_append_left _ ht)
  have hpost : ∀ t ∈ post, t.IsStatic := fun t ht => h t (List.mem_append_right _ (List.mem_cons_of_mem _ ht))
  have hfst : (markedArgs pre ty v post).map Prod.fst = pre ++ ty :: post := by
    rw [markedArgs, List.map_append, List.map_cons, hmap, hmap]
  have htyped : ∀ a ∈ markedArgs pre ty v post, HasType a.1.base a.1.dims a.2 := fun a ha => by
    rcases List.mem_append.mp ha with ha | ha
    · exact hzero pre hpre a ha
    · rcases List.mem_cons.mp ha with rfl | ha
      · exact hv
      · exact hzero post hpost a ha
  have hstatic : ∀ a ∈ markedArgs pre ty v post, a.1.IsStatic := fun a ha =>
    h a.1 (hfst ▸ List.mem_map_of_mem ha)
  have hsum : ((zeroArgs pre).map fun a => a.1.staticSize).sum = (pre.map Ty.staticSize).sum := by
    rw [zeroArgs, List.map_map]
    rfl
  have hone : spellArgs p ((ty, v) :: zeroArgs post) = spell p ty.base ty.dims v ++ spellArgs p (zeroArgs post) := List.flatten_cons
  refine ⟨rest ++ spellArgs p (zeroArgs post), ?_⟩
  have hround := hback _ hfst htyped
  rw [roundTrip, encodeParams_static hstatic htyped, Option.bind_some, decodeParams_eq, markedArgs, spellArgs_append,
    spellArgs_zeroArgs hpre, hone, hspell] at hround
  have hread := read_arg hround
  rw [Nat.zero_add, hsum] at hread
  rw [Nat.add_mul, ← List.replicate_append_replicate, List.append_assoc]
  rw [List.append_assoc, List.append_assoc] at hread
  exact hread

theorem plain_of_steps {p : Packages} {b : Base} {ds : List (Option Nat)} {v : Value} (h : (Ty.mk b ds).IsStatic) (hsteps : StepsRight b ds)
    (hv : HasType b ds v) : Plain p b ds v := by
  induction ds generalizing v with
  | nil => exact ⟨h.base.static, h.base.exact v⟩
  | cons d ds ih =>
    obtain ⟨k, rfl, -⟩ := h.dims d List.mem_cons_self
    obtain ⟨items, rfl, -, hk, hitems⟩ := hv
    obtain ⟨hstep, hsteps⟩ := hsteps
    refine ⟨fun _ => ⟨h.nested.stride_ne_zero, fun w hw => ?_⟩, fun w hw => ih h.nested hsteps (hitems w hw)⟩
    rcases hstep with hone | hstride
    · obtain ⟨a, rfl⟩ := List.length_eq_one_iff.mp (hk 1 hone)
      cases hw
    · obtain ⟨e, -, hwords⟩ := exists_spelled (p := p) h.nested (hitems w (List.mem_of_mem_dropLast hw))
      rw [hstride]
      exact congrArg (32 * ·) hwords

theorem headSize_of_static {p : Packages} {ty : Ty} {v : Value} (h : ty.IsStatic) (hv : HasType ty.base ty.dims v) :
    ty.headSize p v = 32 * cells ty.dims ∧ ty.tailSize p v = 0 := by
  obtain ⟨e, -, hwords⟩ := exists_spelled (p := p) h hv
  rw [Ty.headSize, Ty.tailSize, h.isDynamic, if_neg (by decide), if_neg (by decide), hwords]
  exact ⟨rfl, rfl⟩

theorem allReadable_of_static {p : Packages} {args : List Arg} (h : ∀ a ∈ args, a.1.IsStatic) (hv : ∀ a ∈ args, HasType a.1.base a.1.dims a.2)
    (hsteps : ∀ a ∈ args, StepsRight a.1.base a.1.dims) (hsizes : ∀ a ∈ args.dropLast, a.1.staticSize = 32 * cells a.1.dims)
    (readAt offset tailAt : Nat) : AllReadable p readAt readAt offset tailAt args := by
  induction args generalizing readAt offset tailAt with
  | nil => trivial
  | cons a args ih =>
    obtain ⟨ty, v⟩ := a
    have hty : ty.IsStatic := h (ty, v) List.mem_cons_self
    have hval : HasType ty.base ty.dims v := hv (ty, v) List.mem_cons_self
    refine ⟨.inr ⟨rfl, ?_⟩, ?_⟩
    · rw [hty.isDynamic, if_neg (by decide)]
      exact .inl (plain_of_steps hty (hsteps (ty, v) List.mem_cons_self) hval)
    · cases args with
      | nil => trivial
      | cons b args =>
        have hsize : ty.staticSize = ty.headSize p v := by
          rw [(headSize_of_static hty hval).1]
          exact hsizes (ty, v) List.mem_cons_self
        rw [hsize]
        exact ih (fun a ha => h a (List.mem_cons_of_mem _ ha)) (fun a ha => hv a (List.mem_cons_of_mem _ ha))
          (fun a ha => hsteps a (List.mem_cons_of_mem _ ha)) (fun a ha => hsizes a (List.mem_cons_of_mem _ ha)) _ _ _

/-- For static arrays of words: all values come back if and only if each type but the last has its length for a static length, and
the steps are as long as the items. -/
theorem static_iff {p : Packages} (hp : p.Exact) {types : List Ty} (h : ∀ ty ∈ types, ty.IsStatic)
    (hfit : (types.map fun ty => 32 * cells ty.dims).sum < 2 ^ 256) :
    (∀ args : List Arg, args.map Prod.fst = types → (∀ a ∈ args, HasType a.1.base a.1.dims a.2) →
      roundTrip p args = some (values args)) ↔
      (∀ ty ∈ types.dropLast, ty.staticSize = 32 * cells ty.dims) ∧ ∀ ty ∈ types, StepsRight ty.base ty.dims := by
  have hsums : ∀ pre : List Ty, (∀ t ∈ pre, t.staticSize = 32 * cells t.dims) →
      (pre.map Ty.staticSize).sum = (pre.map fun t => 32 * cells t.dims).sum := fun pre hpre =>
    congrArg List.sum (List.map_congr_left hpre)
  constructor
  · intro hback
    have hsizes : ∀ ty ∈ types.dropLast, ty.staticSize = 32 * cells ty.dims := by
      by_contra hne
      obtain ⟨pre, a, b, post, rfl, hpre, ha⟩ := exists_first hne
      have hsplit : pre ++ a :: b :: post = (pre ++ [a]) ++ b :: post := by rw [List.append_assoc, List.singleton_append]
      have hastat : a.IsStatic := h a (List.mem_append_right _ List.mem_cons_self)
      have hbstat : b.IsStatic := h b (List.mem_append_right _ (List.mem_cons_of_mem _ List.mem_cons_self))
      have hlt := lt_of_le_of_ne hastat.staticSize_le ha
      rw [hsplit] at h hback
      obtain ⟨rest, hrest⟩ := spell_markFirst (p := p) hbstat
      obtain ⟨rest', hread⟩ := read_marked h (hasType_markFirst hbstat) hback (P := 0) hrest
      refine read_markFirst hbstat ?_ rest' hread
      rw [List.map_append, List.map_append, List.sum_append, List.sum_append, hsums pre hpre]
      simpa using hlt
    refine ⟨hsizes, fun ty hty => ?_⟩
    by_contra hsteps
    obtain ⟨pre, post, rfl⟩ := List.append_of_mem hty
    have hstat := h ty hty
    have hpre : ∀ t ∈ pre, t.staticSize = 32 * cells t.dims := fun t ht => hsizes t (by
      rw [List.dropLast_append_of_ne_nil (by simp)]
      exact List.mem_append_left _ ht)
    obtain ⟨v, P, rest, hv, hspell, hmiss⟩ := exists_misread p hstat hsteps
    obtain ⟨rest', hread⟩ := read_marked h hv hback hspell
    rw [hsums pre hpre] at hread
    exact hmiss _ rest' hread
  · rintro ⟨hsizes, hsteps⟩ args rfl hv
    have hstat : ∀ a ∈ args, a.1.IsStatic := fun a ha => h a.1 (List.mem_map_of_mem ha)
    have hheads : headSizes p args = ((args.map Prod.fst).map fun ty => 32 * cells ty.dims).sum := by
      rw [headSizes, List.map_map]
      exact congrArg List.sum (List.map_congr_left fun a ha => (headSize_of_static (hstat a ha) (hv a ha)).1)
    have htails : tailSizes p args = 0 :=
      List.sum_eq_zero fun n hn => by
        obtain ⟨a, ha, rfl⟩ := List.mem_map.mp hn
        exact (headSize_of_static (hstat a ha) (hv a ha)).2
    have hoffset : dynamicOffset args ≤ headSizes p args :=
      List.sum_le_sum fun a ha => by
        have hstride := (hstat a ha).stride_le
        rwa [← (headSize_of_static (p := p) (hstat a ha) (hv a ha)).1] at hstride
    refine roundTrip_eq hp (fun a ha => (hstat a ha).base.valid) hv ⟨?_, by omega, by omega⟩
    have hreadable := allReadable_of_static (p := p) hstat hv (fun a ha => hsteps a.1 (List.mem_map_of_mem ha))
      (fun a ha => hsizes a.1 (by rw [← List.map_dropLast]; exact List.mem_map_of_mem ha)) 0
    exact hreadable _ _

/-! ## The codec -/

/-- UTF-8, with quotients that are not rounded. -/
def utf8 : Packages where
  encode s := s.flatMap String.utf8EncodeChar
  decode bytes := bytes.toByteArray.utf8Decode?.map Array.toList
  dividedBy n := n / 2 ^ 128

/-- Only the character NUL has a byte zero. -/
theorem zero_not_mem_utf8EncodeChar {c : Char} (hc : c ≠ '\x00') : 0 ∉ String.utf8EncodeChar c := by
  have hor : ∀ x y : UInt8, y ≠ 0 → (0 = x ||| y) = False := fun x y hy => eq_false fun h => hy (UInt8.or_eq_zero_iff.mp h.symm).2
  have hle := c.utf8Size_le_four
  have hpos := c.utf8Size_pos
  have hsize : c.utf8Size = 1 ∨ c.utf8Size = 2 ∨ c.utf8Size = 3 ∨ c.utf8Size = 4 := by omega
  rcases hsize with h | h | h | h
  · intro hmem
    have hsingle := String.utf8EncodeChar_eq_singleton h
    rw [hsingle, List.mem_singleton] at hmem
    have hcode : String.utf8EncodeChar c = String.utf8EncodeChar '\x00' := by
      rw [hsingle, ← hmem]
      decide
    have hlist : [c].utf8Encode = ['\x00'].utf8Encode := by
      rw [List.utf8Encode_singleton, List.utf8Encode_singleton, hcode]
    have hdecode := congrArg ByteArray.utf8Decode? hlist
    rw [List.utf8Decode?_utf8Encode, List.utf8Decode?_utf8Encode] at hdecode
    simp at hdecode
    exact hc hdecode
  · rw [String.utf8EncodeChar_eq_cons_cons h]
    simp [hor]
  · rw [String.utf8EncodeChar_eq_cons_cons_cons h]
    simp [hor]
  · rw [String.utf8EncodeChar_eq_cons_cons_cons_cons h]
    simp [hor]

theorem utf8_exact : utf8.Exact where
  decode_encode s := by
    have h := List.utf8Decode?_utf8Encode (l := s)
    rw [List.utf8Encode] at h
    change (s.flatMap String.utf8EncodeChar).toByteArray.utf8Decode?.map Array.toList = some s
    rw [h]
    rfl
  zero_not_mem s hs hmem := by
    obtain ⟨c, hc, hmem⟩ := List.mem_flatMap.mp hmem
    exact zero_not_mem_utf8EncodeChar (fun h => hs (h ▸ hc)) hmem
  length_encode s := by
    induction s with
    | nil => exact Nat.zero_le _
    | cons c s ih =>
      have hle := c.utf8Size_le_four
      have hcons : utf8.encode (c :: s) = String.utf8EncodeChar c ++ utf8.encode s := List.flatMap_cons
      rw [hcons, List.length_append, String.length_utf8EncodeChar, List.length_cons]
      omega

end Solidity

open Solidity

/-- A signed number of 256 bits is read back exactly if it is below 2^252: a word whose first digit is not zero counts as negative. -/
theorem formatOutputInt_formatInputInt {v : Int} (hlo : -2 ^ 255 ≤ v) (hhi : v < 2 ^ 255) :
    (formatInputInt (.num v)).bind formatOutputInt = some (.num v) ↔ v < 2 ^ 252 := by
  by_cases hsmall : v < 2 ^ 252
  · obtain ⟨n, -, hinput, houtput⟩ := signed_word hlo hsmall
    refine iff_of_true ?_ hsmall
    rw [formatInputInt, toBigNumber, Option.bind_some, hinput, Option.bind_some, formatOutputInt, houtput, Option.map_some]
  · obtain ⟨n, rfl⟩ := Int.eq_ofNat_of_zero_le (a := v) (by omega)
    have hinput : formatInputInt (.num ((n : Int) : ℚ)) = some (word n) := by
      rw [formatInputInt, toBigNumber, Option.bind_some, Int.cast_natCast]
      exact formatInputNumber_natCast (by omega)
    -- what is read is less by 2^256
    have houtput : formatOutputInt (word n) = some (.num (((n : Int) - 2 ^ 256 : Int) : ℚ)) := by
      rw [formatOutputInt, outputInt_word (by omega), if_pos (by omega), Option.map_some]
    refine iff_of_false (fun hread => ?_) hsmall
    rw [hinput, Option.bind_some, houtput, Option.some.injEq, Value.num.injEq, Int.cast_inj] at hread
    omega

/-- The least number is read back, and so is the greatest that is. -/
theorem formatOutputInt_formatInputInt_sample :
    (formatInputInt (.num (-2 ^ 255 : Int))).bind formatOutputInt = some (.num (-2 ^ 255 : Int)) ∧
      (formatInputInt (.num (2 ^ 252 - 1 : Int))).bind formatOutputInt = some (.num (2 ^ 252 - 1 : Int)) :=
  ⟨(formatOutputInt_formatInputInt (by decide) (by decide)).mpr (by decide),
    (formatOutputInt_formatInputInt (by decide) (by decide)).mpr (by decide)⟩

/-- 2^252 is read as 2^252 - 2^256. -/
theorem formatOutputInt_formatInputInt_misread :
    ¬ ∀ v : Int, -2 ^ 255 ≤ v → v < 2 ^ 255 → (formatInputInt (.num v)).bind formatOutputInt = some (.num v) := by
  intro h
  have hread := h (2 ^ 252) (by decide) (by decide)
  have hinput : formatInputInt (.num ((2 ^ 252 : Int) : ℚ)) = some (word (2 ^ 252)) := by
    have hwritten := formatInputNumber_natCast (n := 2 ^ 252) (by decide)
    rw [formatInputInt, toBigNumber, Option.bind_some]
    exact_mod_cast hwritten
  rw [hinput, Option.bind_some, formatOutputInt, outputInt_word (by decide), if_pos (by decide), Option.map_some, Option.some.injEq,
    Value.num.injEq, Int.cast_inj] at hread
  exact absurd hread (by decide)

/-- Parameters of flat types come back. -/
theorem decodeParams_encodeParams_flat {p : Packages} (hp : p.Exact) (args : List Arg) (hlen : args.length < 2 ^ 32)
    (hflat : ∀ a ∈ args, a.1.IsFlat) (hv : ∀ a ∈ args, HasType a.1.base a.1.dims a.2) :
    (encodeParams p (names args) (values args)).bind (decodeParams p (names args)) = some (values args) := by
  have hspec : ∀ a ∈ args, FlatSpec p a.1 a.2 := fun a ha => (hflat a ha).spec hp (hv a ha)
  exact roundTrip_eq hp (fun a ha => (hspec a ha).valid) hv (laid_of_flat hspec hlen)

theorem decodeParams_encodeParams_flat_sample :
    (encodeParams utf8 [['s', 't', 'r', 'i', 'n', 'g'], ['u', 'i', 'n', 't', '8', '[', ']'], ['b', 'o', 'o', 'l']]
      [.str ['a', 'b', 'c'], .arr [.num 5, .num 10], .bool true]).bind
      (decodeParams utf8 [['s', 't', 'r', 'i', 'n', 'g'], ['u', 'i', 'n', 't', '8', '[', ']'], ['b', 'o', 'o', 'l']]) =
    some [.str ['a', 'b', 'c'], .arr [.num 5, .num 10], .bool true] := by
  refine decodeParams_encodeParams_flat utf8_exact
    [(⟨.string, []⟩, .str ['a', 'b', 'c']), (⟨.uint 8, [none]⟩, .arr [.num 5, .num 10]), (⟨.bool, []⟩, .bool true)] (by decide) ?_ ?_
  · simp [Ty.IsFlat, Base.IsWord]
  · simp only [List.forall_mem_cons, List.not_mem_nil, false_implies, implies_true, and_true]
    refine ⟨⟨_, rfl, by decide, by decide⟩, ⟨_, rfl, by decide, nofun, ?_⟩, ⟨true, rfl⟩⟩
    simp only [List.forall_mem_cons, List.not_mem_nil, false_implies, implies_true, and_true]
    exact ⟨⟨5, rfl, by decide⟩, ⟨10, rfl, by decide⟩⟩

/-- Nested and partial-word types come back when the positions of the coder are those where it writes; for static arrays of words this
is when each type but the last has its length for a static length, and the items have that of a step. -/
theorem decodeParams_encodeParams_nested {p : Packages} (hp : p.Exact) :
    (∀ args : List Arg, (∀ a ∈ args, a.1.base.Valid) → (∀ a ∈ args, HasType a.1.base a.1.dims a.2) → Laid p args →
      (encodeParams p (names args) (values args)).bind (decodeParams p (names args)) = some (values args)) ∧
    ∀ types : List Ty, (∀ ty ∈ types, ty.IsStatic) → (types.map fun ty => 32 * cells ty.dims).sum < 2 ^ 256 →
      ((∀ args : List Arg, args.map Prod.fst = types → (∀ a ∈ args, HasType a.1.base a.1.dims a.2) →
        (encodeParams p (names args) (values args)).bind (decodeParams p (names args)) = some (values args)) ↔
        (∀ ty ∈ types.dropLast, ty.staticSize = 32 * cells ty.dims) ∧ ∀ ty ∈ types, StepsRight ty.base ty.dims) :=
  ⟨fun _ hb hv h => roundTrip_eq hp hb hv h, fun _ h hfit => static_iff hp h hfit⟩

/-- A `uint8` and a `uint8[2][3]`. -/
def nestedSample : List Arg :=
  [(⟨.uint 8, []⟩, .num 7),
    (⟨.uint 8, [some 3, some 2]⟩, .arr [.arr [.num 1, .num 2], .arr [.num 3, .num 4], .arr [.num 5, .num 6]])]

theorem decodeParams_encodeParams_nested_sample :
    (encodeParams utf8 (names nestedSample) (values nestedSample)).bind (decodeParams utf8 (names nestedSample)) =
      some (values nestedSample) := by
  refine ((decodeParams_encodeParams_nested utf8_exact).2 [⟨.uint 8, []⟩, ⟨.uint 8, [some 3, some 2]⟩] ?_ ?_).mpr ⟨?_, ?_⟩
    nestedSample rfl ?_
  · simp only [List.forall_mem_cons, List.not_mem_nil, false_implies, implies_true, and_true]
    refine ⟨⟨trivial, nofun⟩, ⟨trivial, ?_⟩⟩
    simp
  · decide
  · decide
  · simp [StepsRight, cells, Ty.stride, roundUp, Ty.last, Base.unit]
  · have hpair : ∀ x y : Nat, x < 2 ^ 256 → y < 2 ^ 256 → HasType (.uint 8) [some 2] (.arr [.num x, .num y]) := by
      intro x y hx hy
      refine ⟨_, rfl, by simp, fun k hk => ?_, ?_⟩
      · cases hk
        rfl
      · simp only [List.forall_mem_cons, List.not_mem_nil, false_implies, implies_true, and_true]
        exact ⟨⟨x, rfl, hx⟩, ⟨y, rfl, hy⟩⟩
    simp only [nestedSample, List.forall_mem_cons, List.not_mem_nil, false_implies, implies_true, and_true]
    refine ⟨⟨7, rfl, by decide⟩, ⟨_, rfl, by simp, fun k hk => ?_, ?_⟩⟩
    · cases hk
      rfl
    · simp only [List.forall_mem_cons, List.not_mem_nil, false_implies, implies_true, and_true]
      exact ⟨hpair 1 2 (by decide) (by decide), hpair 3 4 (by decide) (by decide), hpair 5 6 (by decide) (by decide)⟩

/-- A value behind one of `bytes1` is read one byte after the head of the `bytes1` begins. -/
theorem decodeParams_encodeParams_bytes1 :
    ¬ (encodeParams utf8 [['b', 'y', 't', 'e', 's', '1'], ['u', 'i', 'n', 't']] [hex ['a', 'b'], .num 5]).bind
      (decodeParams utf8 [['b', 'y', 't', 'e', 's', '1'], ['u', 'i', 'n', 't']]) = some [hex ['a', 'b'], .num 5] := by
  have hread : (encodeParams utf8 [['b', 'y', 't', 'e', 's', '1'], ['u', 'i', 'n', 't']] [hex ['a', 'b'], .num 5]).bind
      (decodeParams utf8 [['b', 'y', 't', 'e', 's', '1'], ['u', 'i', 'n', 't']]) = some [hex ['a', 'b'], .num 0] := by rfl
  rw [hread]
  simp

end Webthree.Web3
