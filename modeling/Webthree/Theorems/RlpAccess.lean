import Webthree.Lemmas.RlpAccess
import Webthree.Lemmas.RlpTree

/-!
# Reading RLP

`operator[]` on one object, and that RLP is a bijection. What an access gives after any accesses on the same object, those that threw included. It is what the documentation says but for two
things. Nothing asks whether the item is a list: the payload of a string is taken for items too. And an exception on the way past the
last item leaves what is behind the item in its place, at its index.
-/

namespace Webthree

namespace RLP

open Memo Walk

/-- `RLP()` is given. -/
def GivesNull (v : Except RLPError RLP) : Prop := ∃ x, v = .ok x ∧ x.isNull = true

/-- The same is given: the same item, the same exception, or nothing both times. -/
def Alike (v v' : Except RLPError RLP) : Prop := v = v' ∨ GivesNull v ∧ GivesNull v'

/-- What `operator[]` is to give: the item if it is a list and has it, `RLP()` otherwise, and what it would on a new object. -/
structure AccessRight (r : RLP) (m : Memo) (i : Nat) : Prop where
  item : ∀ n, r.itemCount = .ok n → i < n → ∃ pl cs x, r.payload = .ok pl ∧ Chunks pl.toBytes cs ∧
    valueOf (r.access i m) = .ok x ∧ cs[i]? = some x.m_data.toBytes
  null : ∀ n, r.itemCount = .ok n → n ≤ i → GivesNull (valueOf (r.access i m))
  independent : Alike (valueOf (r.access i m)) (valueOf (r.access i fresh))

/-- The payload is made of items. -/
def WellFormed (r : RLP) : Prop := ∃ pl cs, r.payload = .ok pl ∧ Chunks pl.toBytes cs

/-- All that is left of the payload stands in the memo as the last item. -/
def Astray (r : RLP) (m : Memo) : Prop :=
  ∃ pl, r.payload = .ok pl ∧ m.m_lastItem = pl.croppedFrom m.m_lastEnd ∧ m.m_lastItem.size ≠ 0

/-- Of a list, any index but that at which an exception has left the memo, and the greatest one only if the memo is new or the list is
well formed; of anything else, an index behind what its payload would have as items. -/
def AccessSafe (r : RLP) (m : Memo) (i : Nat) : Prop :=
  if r.isList then ¬ (Astray r m ∧ i = m.m_lastIndex) ∧ (noIndex ≤ i → m = fresh ∨ WellFormed r)
  else m = fresh ∧ noIndex ≤ i ∨ ∃ pl cs, r.payload = .ok pl ∧ Chunks pl.toBytes cs ∧ cs.length ≤ i

variable {r : RLP} {pl : BytesConstRef} {cs : List Bytes} {fail : Option RLPError} {m : Memo} {i : Nat}

theorem not_givesNull_error {e : RLPError} : ¬ GivesNull (.error e) := by
  rintro ⟨x, hx, -⟩
  cases hx

theorem Alike.givesNull_iff {v v' : Except RLPError RLP} (h : Alike v v') : GivesNull v ↔ GivesNull v' := by
  rcases h with rfl | ⟨hv, hv'⟩
  · exact Iff.rfl
  · exact ⟨fun _ => hv', fun _ => hv⟩

/-! ## The answer -/

namespace Walk

theorem value_answer_of_lt (hi : i < cs.length) : valueOf (answer pl cs fail i) = .ok ⟨itemRef pl cs i⟩ := by
  unfold answer
  rw [if_pos hi]
  rfl

theorem value_answer_of_le (hi : cs.length ≤ i) :
    valueOf (answer pl cs fail i) = match fail with
      | none => .ok ⟨itemRef pl cs cs.length⟩
      | some e => .error e := by
  unfold answer
  rw [if_neg (Nat.not_lt.mpr hi)]
  cases fail with
  | none => rfl
  | some e => rfl

/-- Nothing is the answer behind the last item, if it is the end of the payload. -/
theorem givesNull_answer_iff (h : Walk pl cs fail) : GivesNull (valueOf (answer pl cs fail i)) ↔ cs.length ≤ i ∧ fail = none := by
  rcases Nat.lt_or_ge i cs.length with hi | hi
  · rw [value_answer_of_lt hi]
    constructor
    · rintro ⟨x, hx, hnull⟩
      obtain rfl := Except.ok.inj hx
      have hget : cs.getD i [] = cs[i] := by rw [List.getD_eq_getElem?_getD, List.getElem?_eq_getElem hi, Option.getD_some]
      have hne := (h.framed _ (List.getElem_mem hi)).1
      rw [isNull, decide_eq_true_iff, BytesConstRef.size, itemRef, hget, List.length_eq_zero_iff] at hnull
      exact absurd hnull hne
    · rintro ⟨hle, -⟩
      omega
  · rw [value_answer_of_le hi]
    cases fail with
    | none =>
      refine ⟨fun _ => ⟨hi, rfl⟩, fun _ => ⟨_, rfl, ?_⟩⟩
      simp [isNull, BytesConstRef.size, itemRef]
    | some e => exact ⟨fun hnull => absurd hnull not_givesNull_error, fun hnone => by cases hnone.2⟩

/-- On a new object the answer is given for every index that there can be. -/
theorem value_fresh (h : Walk pl cs fail) (hp : r.payload = .ok pl) (hi : i < noIndex) :
    valueOf (r.access i fresh) = valueOf (answer pl cs fail i) := by
  by_cases hfirst : Stands cs fail 0
  · rw [h.access_fresh hp hfirst hi]
  · rw [Stands, not_or] at hfirst
    obtain rfl : cs = [] := List.length_eq_zero_iff.mp (by omega)
    cases fail with
    | none => exact absurd ⟨rfl, rfl⟩ hfirst.2
    | some e =>
      rw [access_fresh_of_rewind (h.rewind_of_nil hp _) hi, value_answer_of_le (Nat.zero_le i)]
      rfl

/-- The answer is the item of a list that has it, and nothing behind the last one. -/
theorem answer_right (h : Walk pl cs fail) (hp : r.payload = .ok pl) (hlist : r.isList = true) {n : Nat} (hn : r.itemCount = .ok n) :
    (i < n → ∃ pl' cs' x, r.payload = .ok pl' ∧ Chunks pl'.toBytes cs' ∧ valueOf (answer pl cs fail i) = .ok x ∧
      cs'[i]? = some x.m_data.toBytes) ∧ (n ≤ i → GivesNull (valueOf (answer pl cs fail i))) := by
  obtain ⟨rfl, rfl⟩ := (h.itemCount_ok_iff hp hlist n).mp hn
  refine ⟨fun hi => ?_, fun hi => h.givesNull_answer_iff.mpr ⟨hi, rfl⟩⟩
  refine ⟨pl, cs, _, hp, (h.chunks_iff cs).mpr ⟨rfl, rfl⟩, value_answer_of_lt hi, ?_⟩
  rw [(h.ofRef_itemRef (.inl hi)).2, List.getD_eq_getElem?_getD, List.getElem?_eq_getElem hi, Option.getD_some]

end Walk

theorem givesNull_fresh (hi : noIndex ≤ i) : GivesNull (valueOf (r.access i fresh)) := by
  rw [access_fresh_of_le hi]
  exact ⟨_, rfl, rfl⟩

/-- The item that the loop ends at. -/
theorem accessLoop_index (hp : r.payload = .ok pl) (n : Nat) (m : Memo) :
    (match r.accessLoop n m with
      | .ok _ m => .ok m.m_lastItem
      | .error e _ => .error e) = indexLoop pl n m.m_lastItem m.m_lastEnd := by
  induction n generalizing m with
  | zero => rfl
  | succ n ih =>
    rw [accessLoop, indexLoop_succ]
    by_cases hsize : m.m_lastItem.size = 0
    · rw [if_pos hsize, if_pos hsize]
    · rw [if_neg hsize, if_neg hsize, hp]
      dsimp only
      cases sizeAsEncoded (pl.croppedFrom m.m_lastEnd) with
      | error e => rfl
      | ok size => exact ih _

/-- An access on a new object is one that knows of no memo. -/
theorem value_fresh_index (hi : i < noIndex) : valueOf (r.access i fresh) = r.index i := by
  rw [access, if_pos (show i < fresh.m_lastIndex from hi), rewind, RLP.index]
  cases hp : r.payload with
  | error e => rfl
  | ok pl =>
    rw [ok_bind]
    dsimp only
    cases sizeAsEncoded pl with
    | error e => rfl
    | ok size =>
      rw [ok_bind]
      have hloop := accessLoop_index hp i ⟨0, size, pl.cropped 0 size⟩
      dsimp only at hloop ⊢
      rw [← hloop, Nat.sub_zero]
      cases r.accessLoop i ⟨0, size, pl.cropped 0 size⟩ with
      | error e m => rfl
      | ok u m =>
        rw [ok_bind]
        dsimp only
        cases ofRef m.m_lastItem (ThrowOnFail ||| FailIfTooSmall) <;> rfl

/-! ## The memo astray -/

theorem not_astray_fresh : ¬ Astray r fresh := by
  rintro ⟨-, -, -, hsize⟩
  exact hsize rfl

/-- At an item the memo is not astray: the item is not behind itself. -/
theorem not_astray_standing (h : Walk pl cs fail) (hp : r.payload = .ok pl) {k : Nat} : ¬ Astray r (standing pl cs k) := by
  rintro ⟨pl', hpl, hitem, hsize⟩
  obtain rfl := Except.ok.inj (hp.symm.trans hpl)
  have hstop := h.stopOf_le (k + 1)
  simp only [standing] at hitem hsize
  rw [BytesConstRef.croppedFrom, if_pos hstop] at hitem
  have hplace := congrArg BytesConstRef.m_data hitem
  simp only [itemRef] at hplace
  have hnext := stopOf_succ cs k
  refine hsize ?_
  simp only [itemRef, BytesConstRef.size]
  omega

theorem astray_astray {e : RLPError} (h : Walk pl cs (some e)) (hp : r.payload = .ok pl) : Astray r (astray pl cs) := by
  refine ⟨pl, hp, rfl, fun hzero => ?_⟩
  have hv := (h.rest cs.length).1
  rw [stopOf_of_le (le_refl _)] at hv
  have hnil : (pl.croppedFrom cs.flatten.length).toBytes = [] := by
    refine List.length_eq_zero_iff.mp ?_
    rw [hv.length_toBytes]
    exact hzero
  have hread := (sizeAsEncoded_ok_iff hv 0).mpr (.null hnil)
  rw [h.stops] at hread
  cases hread

theorem standing_ne_fresh (h : Walk pl cs fail) (hv : r.m_data.Valid) (hp : r.payload = .ok pl) {k : Nat} (hk : Stands cs fail k) :
    standing pl cs k ≠ fresh := by
  intro heq
  have hindex : k = noIndex := congrArg Memo.m_lastIndex heq
  have hlt := (payload_valid hv hp).2
  have hle := h.length_le
  rcases hk with hk | ⟨hk, -⟩ <;> omega

theorem astray_ne_fresh (h : Walk pl cs fail) (hv : r.m_data.Valid) (hp : r.payload = .ok pl) : astray pl cs ≠ fresh := by
  intro heq
  have hindex : cs.length - 1 = noIndex := congrArg Memo.m_lastIndex heq
  have hlt := (payload_valid hv hp).2
  have hle := h.length_le
  omega

theorem wellFormed_iff (h : Walk pl cs fail) (hp : r.payload = .ok pl) : WellFormed r ↔ fail = none := by
  constructor
  · rintro ⟨pl', cs', hpl, hchunks⟩
    obtain rfl := Except.ok.inj (hp.symm.trans hpl)
    exact ((h.chunks_iff cs').mp hchunks).2
  · intro hnone
    exact ⟨pl, cs, hp, (h.chunks_iff cs).mpr ⟨rfl, hnone⟩⟩

/-! ## Lists -/

/-- On a new object the items of a list are found. -/
theorem right_fresh_of_list (hv : r.m_data.Valid) (hlist : r.isList = true) : AccessRight r fresh i := by
  cases hp : r.payload with
  | error e =>
    have hcount : ∀ n, r.itemCount ≠ .ok n := by
      intro n hn
      rw [RLP.itemCount, if_pos hlist, hp] at hn
      cases hn
    exact ⟨fun n hn => absurd hn (hcount n), fun n hn => absurd hn (hcount n), .inl rfl⟩
  | ok pl =>
    obtain ⟨hplv, hlt⟩ := payload_valid hv hp
    obtain ⟨cs, fail, hw⟩ := exists_walk hplv
    refine ⟨fun n hn hi => ?_, fun n hn hi => ?_, .inl rfl⟩
    · have hle := hw.length_le
      have hlength := ((hw.itemCount_ok_iff hp hlist n).mp hn).1
      rw [hw.value_fresh hp (by omega)]
      exact (hw.answer_right hp hlist hn).1 hi
    · rcases Nat.lt_or_ge i noIndex with hlast | hlast
      · rw [hw.value_fresh hp hlast]
        exact (hw.answer_right hp hlist hn).2 hi
      · exact givesNull_fresh hlast

/-- Where the answer is given, it is right but for the greatest index in a list that is not well formed. -/
theorem right_answer_iff_of_list (h : Walk pl cs fail) (hv : r.m_data.Valid) (hp : r.payload = .ok pl) (hlist : r.isList = true)
    (hvalue : valueOf (r.access i m) = valueOf (answer pl cs fail i)) : AccessRight r m i ↔ (noIndex ≤ i → fail = none) := by
  have hlt := (payload_valid hv hp).2
  have hle := h.length_le
  constructor
  · intro hright hi
    have hnull := hright.independent.givesNull_iff.mpr (givesNull_fresh hi)
    rw [hvalue] at hnull
    exact (h.givesNull_answer_iff.mp hnull).2
  · intro hnone
    refine ⟨fun n hn hi => ?_, fun n hn hi => ?_, ?_⟩
    · rw [hvalue]
      exact (h.answer_right hp hlist hn).1 hi
    · rw [hvalue]
      exact (h.answer_right hp hlist hn).2 hi
    · rcases Nat.lt_or_ge i noIndex with hi | hi
      · exact .inl (hvalue.trans (h.value_fresh hp hi).symm)
      · refine .inr ⟨?_, givesNull_fresh hi⟩
        rw [hvalue]
        exact h.givesNull_answer_iff.mpr ⟨by omega, hnone hi⟩

/-- At the index where the memo is astray a new object gives the item that is there. -/
theorem not_right_astray {e : RLPError} (h : Walk pl cs (some e)) (hv : r.m_data.Valid) (hp : r.payload = .ok pl) (hne : cs ≠ [])
    (hi : i = cs.length - 1) : ¬ AccessRight r (astray pl cs) i := by
  intro hright
  have hpos : 0 < cs.length := List.length_pos_iff.mpr hne
  have hlt := (payload_valid hv hp).2
  have hle := h.length_le
  obtain ⟨e', he⟩ := (h.access_astray hp hne i).2 hi
  have hother := hright.independent
  rw [he, h.value_fresh hp (by omega), value_answer_of_lt (by omega)] at hother
  rcases hother with heq | ⟨hnull, -⟩
  · cases heq
  · exact not_givesNull_error hnull

theorem right_iff_of_list (hv : r.m_data.Valid) (hlist : r.isList = true) (hplace : Place r m) :
    AccessRight r m i ↔ ¬ (Astray r m ∧ i = m.m_lastIndex) ∧ (noIndex ≤ i → m = fresh ∨ WellFormed r) := by
  cases hplace with
  | fresh =>
    refine ⟨fun _ => ⟨fun hastray => not_astray_fresh hastray.1, fun _ => .inl rfl⟩, fun _ => right_fresh_of_list hv hlist⟩
  | standing pl cs fail k hp hw hk =>
    have hvalue : valueOf (r.access i (standing pl cs k)) = valueOf (answer pl cs fail i) := by rw [hw.access_standing hp hk]
    rw [right_answer_iff_of_list hw hv hp hlist hvalue, wellFormed_iff hw hp]
    constructor
    · intro hnone
      exact ⟨fun hastray => not_astray_standing hw hp hastray.1, fun hi => .inr (hnone hi)⟩
    · rintro ⟨-, hnone⟩ hi
      exact (hnone hi).resolve_left (standing_ne_fresh hw hv hp hk)
  | astray pl cs e hp hw hne =>
    have hbad := astray_astray hw hp
    have hindex : (astray pl cs).m_lastIndex = cs.length - 1 := rfl
    by_cases hi : i = cs.length - 1
    · refine ⟨fun hright => absurd hright (not_right_astray hw hv hp hne hi), ?_⟩
      rintro ⟨hsafe, -⟩
      exact absurd ⟨hbad, hi⟩ hsafe
    · have hvalue : valueOf (r.access i (astray pl cs)) = valueOf (answer pl cs (some e) i) := by
        rw [(hw.access_astray hp hne i).1 hi]
      rw [right_answer_iff_of_list hw hv hp hlist hvalue, wellFormed_iff hw hp, hindex]
      constructor
      · intro hnone
        exact ⟨fun hastray => hi hastray.2, fun hlast => .inr (hnone hlast)⟩
      · rintro ⟨-, hnone⟩ hlast
        exact (hnone hlast).resolve_left (astray_ne_fresh hw hv hp)

/-! ## What is not a list -/

/-- What is not a list has no items, so that an access is to give nothing. -/
theorem right_iff_of_not_list (hlist : r.isList = false) :
    AccessRight r m i ↔ GivesNull (valueOf (r.access i m)) ∧ GivesNull (valueOf (r.access i fresh)) := by
  have hcount : r.itemCount = .ok 0 := by
    rw [RLP.itemCount, if_neg (by simp [hlist])]
    rfl
  constructor
  · intro hright
    have hnull := hright.null 0 hcount (Nat.zero_le i)
    exact ⟨hnull, hright.independent.givesNull_iff.mp hnull⟩
  · rintro ⟨hnull, hfresh⟩
    refine ⟨fun n hn hi => ?_, fun n hn hi => hnull, .inr ⟨hnull, hfresh⟩⟩
    obtain rfl := Except.ok.inj (hcount.symm.trans hn)
    omega

/-- The items that the payload of anything is made of. -/
theorem exists_chunks_iff (h : Walk pl cs fail) (hp : r.payload = .ok pl) :
    (∃ pl cs, r.payload = .ok pl ∧ Chunks pl.toBytes cs ∧ cs.length ≤ i) ↔ cs.length ≤ i ∧ fail = none := by
  constructor
  · rintro ⟨pl', cs', hpl, hchunks, hle⟩
    obtain rfl := Except.ok.inj (hp.symm.trans hpl)
    obtain ⟨rfl, hnone⟩ := (h.chunks_iff cs').mp hchunks
    exact ⟨hle, hnone⟩
  · rintro ⟨hle, hnone⟩
    exact ⟨pl, cs, hp, (h.chunks_iff cs).mpr ⟨rfl, hnone⟩, hle⟩

theorem right_fresh_iff_of_not_list (hv : r.m_data.Valid) (hlist : r.isList = false) :
    AccessRight r fresh i ↔ noIndex ≤ i ∨ ∃ pl cs, r.payload = .ok pl ∧ Chunks pl.toBytes cs ∧ cs.length ≤ i := by
  rw [right_iff_of_not_list hlist, and_self]
  rcases Nat.lt_or_ge i noIndex with hi | hi
  · cases hp : r.payload with
    | error e =>
      rw [access_fresh_of_rewind (rewind_of_payload hp _) hi]
      refine ⟨fun hnull => absurd hnull not_givesNull_error, ?_⟩
      rintro (hle | ⟨pl, cs, hpl, -⟩)
      · omega
      · cases hpl
    | ok pl =>
      obtain ⟨cs, fail, hw⟩ := exists_walk (payload_valid hv hp).1
      rw [← hp, exists_chunks_iff hw hp, hw.value_fresh hp hi, hw.givesNull_answer_iff]
      exact ⟨.inr, fun hor => hor.resolve_left (by omega)⟩
  · exact ⟨fun _ => .inl hi, fun _ => givesNull_fresh hi⟩

/-- Where the answer is given, it is right behind all that its payload would have as items. -/
theorem right_answer_iff_of_not_list (h : Walk pl cs fail) (hp : r.payload = .ok pl) (hlist : r.isList = false)
    (hvalue : GivesNull (valueOf (r.access i m)) ↔ cs.length ≤ i ∧ fail = none) :
    AccessRight r m i ↔ ∃ pl cs, r.payload = .ok pl ∧ Chunks pl.toBytes cs ∧ cs.length ≤ i := by
  rw [right_iff_of_not_list hlist, exists_chunks_iff h hp, hvalue]
  refine ⟨fun hright => hright.1, fun hnull => ⟨hnull, ?_⟩⟩
  rcases Nat.lt_or_ge i noIndex with hi | hi
  · rw [h.value_fresh hp hi]
    exact h.givesNull_answer_iff.mpr hnull
  · exact givesNull_fresh hi

theorem right_iff_of_place_of_not_list (hv : r.m_data.Valid) (hlist : r.isList = false) (hplace : Place r m) :
    AccessRight r m i ↔ m = fresh ∧ noIndex ≤ i ∨ ∃ pl cs, r.payload = .ok pl ∧ Chunks pl.toBytes cs ∧ cs.length ≤ i := by
  cases hplace with
  | fresh =>
    rw [right_fresh_iff_of_not_list hv hlist]
    simp
  | standing pl cs fail k hp hw hk =>
    have hvalue : GivesNull (valueOf (r.access i (standing pl cs k))) ↔ cs.length ≤ i ∧ fail = none := by
      rw [hw.access_standing hp hk]
      exact hw.givesNull_answer_iff
    rw [right_answer_iff_of_not_list hw hp hlist hvalue]
    exact ⟨.inr, fun hor => hor.resolve_left fun hfresh => standing_ne_fresh hw hv hp hk hfresh.1⟩
  | astray pl cs e hp hw hne =>
    have hvalue : GivesNull (valueOf (r.access i (astray pl cs))) ↔ cs.length ≤ i ∧ some e = none := by
      by_cases hi : i = cs.length - 1
      · obtain ⟨e', he⟩ := (hw.access_astray hp hne i).2 hi
        rw [he]
        exact ⟨fun hnull => absurd hnull not_givesNull_error, fun hnone => by cases hnone.2⟩
      · rw [(hw.access_astray hp hne i).1 hi]
        exact hw.givesNull_answer_iff
    rw [right_answer_iff_of_not_list hw hp hlist hvalue]
    exact ⟨.inr, fun hor => hor.resolve_left fun hfresh => astray_ne_fresh hw hv hp hfresh.1⟩

/-- After any accesses, an access gives what it is to give exactly in the cases of `AccessSafe`. -/
theorem access_right_iff (hv : r.m_data.Valid) (is : List Nat) (i : Nat) :
    AccessRight r (memoAfter r is) i ↔ AccessSafe r (memoAfter r is) i := by
  have hplace := place_memoAfter hv is
  by_cases hlist : r.isList
  · rw [AccessSafe, if_pos hlist]
    exact right_iff_of_list hv hlist hplace
  · rw [AccessSafe, if_neg hlist]
    exact right_iff_of_place_of_not_list hv (by simpa using hlist) hplace

/-- The list `["cat", "dog"]`, accessed behind its end and then at its beginning. -/
theorem access_right_iff_cat : AccessRight ⟨.ofBytes [0xc8, 0x83, 0x63, 0x61, 0x74, 0x83, 0x64, 0x6f, 0x67]⟩
    (memoAfter ⟨.ofBytes [0xc8, 0x83, 0x63, 0x61, 0x74, 0x83, 0x64, 0x6f, 0x67]⟩ [1, 5]) 0 := by
  refine (access_right_iff (BytesConstRef.valid_ofBytes _) [1, 5] 0).mpr ?_
  rw [AccessSafe, if_pos (by decide)]
  refine ⟨?_, fun hle => absurd hle (by decide)⟩
  rintro ⟨-, hindex⟩
  exact absurd hindex (by decide)

/-- The string `"dog"` gives its first letter. -/
theorem not_access_right : ¬ ∀ (r : RLP), r.m_data.Valid → ∀ (is : List Nat) (i : Nat), i < 2 ^ 64 →
    AccessRight r (memoAfter r is) i := by
  intro h
  have hright := h ⟨.ofBytes [0x83, 0x64, 0x6f, 0x67]⟩ (BytesConstRef.valid_ofBytes _) [] 0 (by decide)
  obtain ⟨x, hx, hnull⟩ := hright.null 0 rfl (Nat.le_refl 0)
  have hdog : valueOf (access ⟨.ofBytes [0x83, 0x64, 0x6f, 0x67]⟩ 0 (memoAfter ⟨.ofBytes [0x83, 0x64, 0x6f, 0x67]⟩ [])) =
      .ok ⟨⟨[0x83, 0x64, 0x6f, 0x67], 1, 1⟩⟩ := by decide
  obtain rfl := Except.ok.inj (hx.symm.trans hdog)
  cases hnull

/-- The list that holds `"a"` and half a string: past the end it throws, and then its first item too. -/
example : valueOf (access ⟨.ofBytes [0xc2, 0x61, 0x83]⟩ 0 fresh) = .ok ⟨⟨[0xc2, 0x61, 0x83], 1, 1⟩⟩ ∧
    valueOf (access ⟨.ofBytes [0xc2, 0x61, 0x83]⟩ 0 (memoAfter ⟨.ofBytes [0xc2, 0x61, 0x83]⟩ [1])) = .error .UndersizeRLP := by
  decide

end RLP

/-!
## RLP is a bijection

What `RLPStream` writes is what strict reading accepts: the two are inverse to each other, between the trees that can be
written and the byte strings that are accepted at every level.
-/

open RLP RLPStream

/-- Strict reading of a whole byte string, taken apart. -/
theorem readBytes_ok_iff (b : Bytes) (t : Item) :
    readBytes b = .ok t ↔ Framed b b.length ∧ readTree (2 * b.length + 1) ⟨.ofBytes b⟩ = .ok t := by
  have hv := BytesConstRef.valid_ofBytes b
  rw [readBytes, bind_eq_ok]
  constructor
  · rintro ⟨r, hr, ht⟩
    rw [ofRef_veryStrict_ok_iff hv, BytesConstRef.toBytes_ofBytes] at hr
    obtain ⟨rfl, hf⟩ := hr
    exact ⟨hf, ht⟩
  · rintro ⟨hf, ht⟩
    refine ⟨_, (ofRef_veryStrict_ok_iff hv _).mpr ⟨rfl, ?_⟩, ht⟩
    rwa [BytesConstRef.toBytes_ofBytes]

/-- The encoding of a tree is read back as the tree. -/
theorem readBytes_encode (t : Item) (h : t.encode.length < 2 ^ 64 - 256) : readBytes t.encode = .ok t := by
  have hf := framed_encode t [] h
  rw [List.append_nil] at hf
  refine (readBytes_ok_iff _ t).mpr ⟨hf, ?_⟩
  exact reads t h _ _ (BytesConstRef.valid_ofBytes _) (BytesConstRef.toBytes_ofBytes _) (Nat.le_succ _)

/-- An accepted byte string is the encoding of what it is read as. -/
theorem eq_encode_of_readBytes {b : Bytes} {t : Item} (h : readBytes b = .ok t) : b = t.encode := by
  obtain ⟨hf, ht⟩ := (readBytes_ok_iff b t).mp h
  have hv := BytesConstRef.valid_ofBytes b
  rw [← BytesConstRef.toBytes_ofBytes b] at hf
  have := (encode_of_read _).1 ⟨.ofBytes b⟩ t hv (by rwa [hv.length_toBytes] at hf) ht
  rwa [BytesConstRef.toBytes_ofBytes] at this

/-- The length of an accepted byte string fits in eight bytes. -/
theorem length_lt_of_framed {b : Bytes} (h : Framed b b.length) : b.length < 2 ^ 64 := by
  generalize hn : b.length = n at h
  cases h with
  | null => omega
  | single => omega
  | headed start len t hh =>
    have hl := hh.small
    have hb : bytesRequired len ≤ 8 := bytesRequired_le_eight (by omega)
    have hlen : (Item.header start len).length ≤ 9 := by
      unfold Item.header
      split
      · simp
      · rw [List.length_cons, length_toBigEndian]
        omega
    omega

/-- Reading with more fuel than two for each byte gives the same. -/
theorem readBytes_fuel (b : Bytes) (fuel : Nat) (h : 2 * b.length + 1 ≤ fuel) :
    (ofRef (.ofBytes b) VeryStrict >>= readTree fuel) = readBytes b := by
  have hv := BytesConstRef.valid_ofBytes b
  rw [readBytes]
  cases hr : ofRef (.ofBytes b) VeryStrict with
  | error e => rfl
  | ok r =>
    obtain ⟨rfl, hf⟩ := (ofRef_veryStrict_ok_iff hv r).mp hr
    rw [ok_bind, ok_bind]
    induction fuel, h using Nat.le_induction with
    | base => rfl
    | succ n hn ih => rw [(readTree_fuel n).1 ⟨.ofBytes b⟩ hv hf hn, ih]

/-- Writing and strict reading are inverse to each other: what is written for a tree is read back as the tree, and what is
read as a tree is what is written for it, so that two accepted byte strings of one tree are one byte string. -/
theorem readBytes_writeBytes_bijection :
    (∀ t : Item, t.encode.length < 2 ^ 64 - 256 → ∃ b, writeBytes t = .ok b ∧ readBytes b = .ok t) ∧
      (∀ (b : Bytes) (t : Item), readBytes b = .ok t → writeBytes t = .ok b) ∧
      (∀ (b b' : Bytes) (t : Item), readBytes b = .ok t → readBytes b' = .ok t → b = b') := by
  refine ⟨fun t h => ?_, fun b t h => ?_, fun b b' t h h' => ?_⟩
  · exact ⟨t.encode, writeBytes_eq t (by omega), readBytes_encode t h⟩
  · have hf := ((readBytes_ok_iff b t).mp h).1
    have hb := eq_encode_of_readBytes h
    have hlen := length_lt_of_framed hf
    rw [hb] at hlen ⊢
    exact writeBytes_eq t hlen
  · rw [eq_encode_of_readBytes h, eq_encode_of_readBytes h']

/-- The tree `["dog", ["", 0x7f]]`, written, read back and written again. -/
theorem readBytes_writeBytes_dog :
    (∃ b, writeBytes (.list [.data [0x64, 0x6f, 0x67], .list [.data [], .data [0x7f]]]) = .ok b ∧
        readBytes b = .ok (.list [.data [0x64, 0x6f, 0x67], .list [.data [], .data [0x7f]]])) ∧
      writeBytes (.list [.data [0x64, 0x6f, 0x67], .list [.data [], .data [0x7f]]]) =
        .ok [0xc7, 0x83, 0x64, 0x6f, 0x67, 0xc2, 0x80, 0x7f] ∧
      ∀ b', readBytes b' = .ok (.list [.data [0x64, 0x6f, 0x67], .list [.data [], .data [0x7f]]]) →
        b' = [0xc7, 0x83, 0x64, 0x6f, 0x67, 0xc2, 0x80, 0x7f] := by
  have h : readBytes [0xc7, 0x83, 0x64, 0x6f, 0x67, 0xc2, 0x80, 0x7f] =
      .ok (.list [.data [0x64, 0x6f, 0x67], .list [.data [], .data [0x7f]]]) :=
    readBytes_encode (.list [.data [0x64, 0x6f, 0x67], .list [.data [], .data [0x7f]]]) (by decide)
  exact ⟨readBytes_writeBytes_bijection.1 _ (by decide), readBytes_writeBytes_bijection.2.1 _ _ h,
    fun b' h' => readBytes_writeBytes_bijection.2.2 _ _ _ h' h⟩

end Webthree
