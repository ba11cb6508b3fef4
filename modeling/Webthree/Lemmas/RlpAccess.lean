import Webthree.Lemmas.RlpConvert
import Webthree.Rlp.Convert

/-!
# Where the memo of `operator[]` stands

A payload begins with items, one after the other, and either ends behind them or goes on with what is not an item. The memo stands at
one of the items, or behind the last of them; only an exception moves it away, to what is not an item.
-/

namespace Webthree

namespace RLP

open Memo

/-- The constructor of `operator[]` accepts nothing but what begins with an item. -/
theorem framed_of_ofRef {d : BytesConstRef} (hv : d.Valid) {x : RLP} (h : ofRef d (ThrowOnFail ||| FailIfTooSmall) = .ok x) :
    ∃ n, Framed d.toBytes n := by
  have hbig : (ThrowOnFail ||| FailIfTooSmall) &&& FailIfTooBig = 0 := by decide
  have hsmall : (ThrowOnFail ||| FailIfTooSmall) &&& FailIfTooSmall ≠ 0 := by decide
  have hthrow : (ThrowOnFail ||| FailIfTooSmall) &&& ThrowOnFail ≠ 0 := by decide
  rw [ofRef] at h
  simp only [hbig, hsmall, hthrow, ne_eq, not_true_eq_false, not_false_eq_true, if_true, if_false, pure_eq_ok, ok_bind, failOr] at h
  obtain ⟨n, hn, h⟩ := bind_eq_ok.mp h
  split at h
  · cases h
  · rename_i hle
    refine ⟨n, (actualSize_ok_iff (r := ⟨d⟩) hv n).mp ⟨hn, ?_⟩⟩
    simpa using hle

/-- The number of bytes of the first items. -/
def stopOf (cs : List Bytes) (k : Nat) : Nat := (cs.take k).flatten.length

theorem stopOf_succ (cs : List Bytes) (k : Nat) : stopOf cs (k + 1) = stopOf cs k + (cs.getD k []).length := by
  rw [stopOf, stopOf, List.getD_eq_getElem?_getD]
  by_cases hk : k < cs.length
  · rw [List.take_add_one, List.getElem?_eq_getElem hk, List.flatten_append, List.length_append]
    simp
  · rw [List.take_of_length_le (by omega), List.take_of_length_le (by omega), List.getElem?_eq_none (by omega)]
    simp

theorem stopOf_of_le {cs : List Bytes} {k : Nat} (h : cs.length ≤ k) : stopOf cs k = cs.flatten.length := by
  rw [stopOf, List.take_of_length_le h]

theorem flatten_drop (cs : List Bytes) (k : Nat) : cs.flatten.drop (stopOf cs k) = (cs.drop k).flatten := by
  have hsplit : cs.flatten = (cs.take k).flatten ++ (cs.drop k).flatten := by rw [← List.flatten_append, List.take_append_drop]
  rw [hsplit, stopOf, List.drop_left]

theorem stopOf_le_flatten (cs : List Bytes) (k : Nat) : stopOf cs k ≤ cs.flatten.length := by
  have hsplit : cs.flatten = (cs.take k).flatten ++ (cs.drop k).flatten := by rw [← List.flatten_append, List.take_append_drop]
  rw [hsplit, List.length_append, stopOf]
  omega

/-- The size that is read behind the last item. -/
def endSize : Option RLPError → Except RLPError Nat
  | none => .ok 0
  | some e => .error e

/-- The items at the beginning of a payload, and the exception that what is behind them gives, if there is anything. -/
structure Walk (pl : BytesConstRef) (cs : List Bytes) (fail : Option RLPError) : Prop where
  valid : pl.Valid
  framed : ∀ c ∈ cs, c ≠ [] ∧ Framed c c.length
  bytes : ∃ rest, pl.toBytes = cs.flatten ++ rest ∧ (rest = [] ↔ fail = none)
  stops : sizeAsEncoded (pl.croppedFrom cs.flatten.length) = endSize fail

theorem exists_walk {pl : BytesConstRef} (hv : pl.Valid) : ∃ cs fail, Walk pl cs fail := by
  generalize hn : pl.m_count = n
  induction n using Nat.strongRecOn generalizing pl with
  | ind n ih =>
    have hall : pl.croppedFrom 0 = pl := by simp [BytesConstRef.croppedFrom]
    by_cases hempty : pl.toBytes = []
    · refine ⟨[], none, hv, by simp, ⟨[], by simp [hempty]⟩, ?_⟩
      rw [List.flatten_nil, List.length_nil, hall]
      exact (sizeAsEncoded_ok_iff hv 0).mpr (.null hempty)
    · cases hsize : sizeAsEncoded pl with
      | error e =>
        refine ⟨[], some e, hv, by simp, ⟨pl.toBytes, by simp [hempty]⟩, ?_⟩
        rw [List.flatten_nil, List.length_nil, hall]
        exact hsize
      | ok k =>
        have hf := (sizeAsEncoded_ok_iff hv k).mp hsize
        have hpos := hf.pos hempty
        have hle := hf.le_length
        rw [hv.length_toBytes] at hle
        obtain ⟨hv', hbytes, hcount⟩ := hv.croppedFrom hle
        obtain ⟨cs, fail, hw⟩ := ih (pl.croppedFrom k).m_count (by omega) hv' rfl
        obtain ⟨rest, hrest, hiff⟩ := hw.bytes
        have htake : (pl.toBytes.take k).length = k := by rw [List.length_take, hv.length_toBytes, Nat.min_eq_left hle]
        refine ⟨pl.toBytes.take k :: cs, fail, hv, ?_, ⟨rest, ?_, hiff⟩, ?_⟩
        · intro c hc
          rcases List.mem_cons.mp hc with rfl | hc
          · refine ⟨fun hnil => ?_, by rw [htake]; exact hf.take⟩
            rw [hnil, List.length_nil] at htake
            omega
          · exact hw.framed c hc
        · rw [List.flatten_cons, List.append_assoc, ← hrest, hbytes, List.take_append_drop]
        · have hstops := hw.stops
          have hle' : cs.flatten.length ≤ pl.m_count - k := by
            rw [← hcount, ← hv'.length_toBytes, hrest, List.length_append]
            omega
          have hsame : (pl.croppedFrom k).croppedFrom cs.flatten.length = pl.croppedFrom (k + cs.flatten.length) := by
            have hk : pl.croppedFrom k = ⟨pl.mem, pl.m_data + k, pl.m_count - k⟩ := if_pos hle
            have hk' : pl.croppedFrom (k + cs.flatten.length) =
                ⟨pl.mem, pl.m_data + (k + cs.flatten.length), pl.m_count - (k + cs.flatten.length)⟩ := if_pos (by omega)
            rw [hk, hk', BytesConstRef.croppedFrom, if_pos hle', Nat.add_assoc, Nat.sub_sub]
          rw [List.flatten_cons, List.length_append, htake, ← hsame]
          exact hstops

variable {r : RLP} {pl : BytesConstRef} {cs : List Bytes} {fail : Option RLPError}

/-- The reference to an item; behind them all, to nothing at that place. -/
def itemRef (pl : BytesConstRef) (cs : List Bytes) (k : Nat) : BytesConstRef :=
  ⟨pl.mem, pl.m_data + stopOf cs k, (cs.getD k []).length⟩

/-- The memo at an item. -/
def standing (pl : BytesConstRef) (cs : List Bytes) (k : Nat) : Memo := ⟨k, stopOf cs (k + 1), itemRef pl cs k⟩

/-- The memo that an exception leaves behind the last item. -/
def astray (pl : BytesConstRef) (cs : List Bytes) : Memo :=
  ⟨cs.length - 1, cs.flatten.length, pl.croppedFrom cs.flatten.length⟩

namespace Walk

theorem stopOf_le (h : Walk pl cs fail) (k : Nat) : stopOf cs k ≤ pl.m_count := by
  obtain ⟨rest, hrest, -⟩ := h.bytes
  have hlength := congrArg List.length hrest
  rw [h.valid.length_toBytes, List.length_append] at hlength
  have hle := stopOf_le_flatten cs k
  omega

/-- What is left of the payload from an item on. -/
theorem rest (h : Walk pl cs fail) (k : Nat) : (pl.croppedFrom (stopOf cs k)).Valid ∧
    ∃ rest, (pl.croppedFrom (stopOf cs k)).toBytes = (cs.drop k).flatten ++ rest := by
  obtain ⟨hv, hbytes, -⟩ := h.valid.croppedFrom (h.stopOf_le k)
  obtain ⟨rest, hrest, -⟩ := h.bytes
  have hle := stopOf_le_flatten cs k
  exact ⟨hv, rest, by rw [hbytes, hrest, List.drop_append_of_le_length hle, flatten_drop]⟩

/-- An item is read behind the one before it. -/
theorem item_at (h : Walk pl cs fail) {k : Nat} (hk : k < cs.length) :
    sizeAsEncoded (pl.croppedFrom (stopOf cs k)) = .ok (cs.getD k []).length ∧
      (pl.croppedFrom (stopOf cs k)).cropped 0 (cs.getD k []).length = itemRef pl cs k := by
  obtain ⟨hv, rest, hrest⟩ := h.rest k
  have hget : cs.getD k [] = cs[k] := by rw [List.getD_eq_getElem?_getD, List.getElem?_eq_getElem hk, Option.getD_some]
  obtain ⟨hne, hf⟩ := h.framed _ (List.getElem_mem hk)
  have hframed : Framed (pl.croppedFrom (stopOf cs k)).toBytes (cs.getD k []).length := by
    rw [hrest, List.drop_eq_getElem_cons hk, List.flatten_cons, List.append_assoc, hget]
    exact hf.append hne _
  refine ⟨(sizeAsEncoded_ok_iff hv _).mpr hframed, ?_⟩
  have hcropped : pl.croppedFrom (stopOf cs k) = ⟨pl.mem, pl.m_data + stopOf cs k, pl.m_count - stopOf cs k⟩ := if_pos (h.stopOf_le k)
  rw [cropped_framed hv hframed, hcropped, itemRef]

/-- Behind the last item there is nothing. -/
theorem item_end (h : Walk pl cs none) :
    sizeAsEncoded (pl.croppedFrom (stopOf cs cs.length)) = .ok (cs.getD cs.length []).length ∧
      (pl.croppedFrom (stopOf cs cs.length)).cropped 0 (cs.getD cs.length []).length = itemRef pl cs cs.length := by
  have hlength : (cs.getD cs.length []).length = 0 := by simp
  have hstop := stopOf_of_le (le_refl cs.length)
  have hcropped : pl.croppedFrom (stopOf cs cs.length) =
      ⟨pl.mem, pl.m_data + stopOf cs cs.length, pl.m_count - stopOf cs cs.length⟩ := if_pos (h.stopOf_le _)
  refine ⟨by rw [hstop, hlength]; exact h.stops, ?_⟩
  rw [itemRef, hlength, hcropped, BytesConstRef.cropped_eq (by simp)]
  rfl

/-- An index where the memo may stand. -/
def Stands (cs : List Bytes) (fail : Option RLPError) (k : Nat) : Prop := k < cs.length ∨ k = cs.length ∧ fail = none

theorem item_of_stands (h : Walk pl cs fail) {k : Nat} (hk : Stands cs fail k) :
    sizeAsEncoded (pl.croppedFrom (stopOf cs k)) = .ok (cs.getD k []).length ∧
      (pl.croppedFrom (stopOf cs k)).cropped 0 (cs.getD k []).length = itemRef pl cs k := by
  rcases hk with hk | ⟨rfl, rfl⟩
  · exact h.item_at hk
  · exact h.item_end

/-- Where the loop ends on its way to an index. -/
def goal (pl : BytesConstRef) (cs : List Bytes) (fail : Option RLPError) (i : Nat) : EStateM.Result RLPError Memo Unit :=
  if i < cs.length then .ok () (standing pl cs i)
  else
    match fail with
    | none => .ok () (standing pl cs cs.length)
    | some e => .error e (astray pl cs)

/-- The loop goes from one item to the next. -/
theorem accessLoop_eq (h : Walk pl cs fail) (hp : r.payload = .ok pl) (n : Nat) {k : Nat} (hk : Stands cs fail k) :
    r.accessLoop n (standing pl cs k) = goal pl cs fail (k + n) := by
  induction n generalizing k with
  | zero =>
    unfold goal
    rw [accessLoop, Nat.add_zero]
    rcases hk with hk | ⟨rfl, rfl⟩
    · rw [if_pos hk]
    · rw [if_neg (lt_irrefl _)]
  | succ n ih =>
    rw [accessLoop]
    rcases hk with hk | ⟨rfl, rfl⟩
    · have hget : cs.getD k [] = cs[k] := by rw [List.getD_eq_getElem?_getD, List.getElem?_eq_getElem hk, Option.getD_some]
      have hne := (h.framed _ (List.getElem_mem hk)).1
      have hsize : ¬ (standing pl cs k).m_lastItem.size = 0 := by
        simp only [standing, itemRef, BytesConstRef.size, hget, List.length_eq_zero_iff]
        exact hne
      rw [if_neg hsize, hp]
      dsimp only [standing]
      by_cases hnext : Stands cs fail (k + 1)
      · obtain ⟨hread, hitem⟩ := h.item_of_stands hnext
        have hstop : stopOf cs (k + 1) + (itemRef pl cs (k + 1)).size = stopOf cs (k + 1 + 1) := (stopOf_succ cs (k + 1)).symm
        rw [hread]
        dsimp only
        rw [hitem, hstop]
        have hgo := ih hnext
        rw [standing] at hgo
        rw [hgo, Nat.add_right_comm, Nat.add_assoc k n 1]
      · -- the next item is none
        have hlast : k + 1 = cs.length := by
          rw [Stands, not_or] at hnext
          omega
        obtain ⟨e, rfl⟩ : ∃ e, fail = some e := by
          cases fail with
          | none => exact absurd (.inr ⟨hlast, rfl⟩) hnext
          | some e => exact ⟨e, rfl⟩
        have hstops := h.stops
        rw [hlast, stopOf_of_le (le_refl _), hstops]
        dsimp only [endSize]
        have hk' : k = cs.length - 1 := by omega
        rw [goal, if_neg (by omega), astray, ← hk']
    · have hsize : (standing pl cs cs.length).m_lastItem.size = 0 := by simp [standing, itemRef, BytesConstRef.size]
      rw [if_pos hsize, goal, if_neg (by omega)]

/-- What an access to an index gives, and where it leaves the memo. -/
def answer (pl : BytesConstRef) (cs : List Bytes) (fail : Option RLPError) (i : Nat) : EStateM.Result RLPError Memo RLP :=
  if i < cs.length then .ok ⟨itemRef pl cs i⟩ (standing pl cs i)
  else
    match fail with
    | none => .ok ⟨itemRef pl cs cs.length⟩ (standing pl cs cs.length)
    | some e => .error e (astray pl cs)

theorem ofRef_itemRef (h : Walk pl cs fail) {k : Nat} (hk : Stands cs fail k) :
    ofRef (itemRef pl cs k) (ThrowOnFail ||| FailIfTooSmall) = .ok ⟨itemRef pl cs k⟩ ∧ (itemRef pl cs k).toBytes = cs.getD k [] := by
  have hstop := h.stopOf_le (k + 1)
  rw [stopOf_succ] at hstop
  obtain ⟨hv, hbytes⟩ := h.valid.sub hstop
  obtain ⟨rest, hrest, -⟩ := h.bytes
  have htoBytes : (itemRef pl cs k).toBytes = cs.getD k [] := by
    have hle := stopOf_le_flatten cs k
    rw [itemRef, hbytes, hrest, List.drop_append_of_le_length hle, flatten_drop]
    rcases hk with hk | ⟨rfl, -⟩
    · rw [List.drop_eq_getElem_cons hk, List.flatten_cons, List.append_assoc, List.getD_eq_getElem?_getD, List.getElem?_eq_getElem hk,
        Option.getD_some, List.take_left]
    · simp
  refine ⟨ofRef_of_framed hv ?_, htoBytes⟩
  change Framed (itemRef pl cs k).toBytes (cs.getD k []).length
  rw [htoBytes]
  rcases hk with hk | ⟨rfl, -⟩
  · rw [List.getD_eq_getElem?_getD, List.getElem?_eq_getElem hk, Option.getD_some]
    exact (h.framed _ (List.getElem_mem hk)).2
  · rw [List.getD_eq_getElem?_getD, List.getElem?_eq_none (le_refl _)]
    exact .null rfl

/-- The end of an access whose loop has come to its goal. -/
theorem access_of_goal (h : Walk pl cs fail) {i : Nat} {m m' : Memo}
    (hstart : (if i < m.m_lastIndex then r.rewind m else .ok () m) = .ok () m')
    (hloop : r.accessLoop (i - m'.m_lastIndex) m' = goal pl cs fail i) : r.access i m = answer pl cs fail i := by
  rw [access, hstart]
  dsimp only
  rw [hloop]
  unfold goal answer
  by_cases hi : i < cs.length
  · rw [if_pos hi, if_pos hi]
    dsimp only [standing]
    rw [(h.ofRef_itemRef (.inl hi)).1]
  · rw [if_neg hi, if_neg hi]
    cases fail with
    | none =>
      dsimp only [standing]
      rw [(h.ofRef_itemRef (.inr ⟨rfl, rfl⟩)).1]
    | some e => rfl

/-- The first item is found again. -/
theorem rewind_eq (h : Walk pl cs fail) (hp : r.payload = .ok pl) (hfirst : Stands cs fail 0) (m : Memo) :
    r.rewind m = .ok () (standing pl cs 0) := by
  obtain ⟨hread, hitem⟩ := h.item_of_stands hfirst
  have hall : pl.croppedFrom (stopOf cs 0) = pl := by simp [BytesConstRef.croppedFrom, stopOf]
  have hstop : (cs.getD 0 []).length = stopOf cs (0 + 1) := by
    rw [stopOf_succ]
    simp [stopOf]
  rw [hall] at hread hitem
  rw [rewind, hp]
  dsimp only
  rw [hread]
  dsimp only
  rw [hitem, hstop]
  rfl

/-- An access to an index before that of the memo starts at the first item. -/
theorem access_rewound (h : Walk pl cs fail) (hp : r.payload = .ok pl) (hfirst : Stands cs fail 0) {i : Nat} {m : Memo}
    (hi : i < m.m_lastIndex) : r.access i m = answer pl cs fail i := by
  have hstart : (if i < m.m_lastIndex then r.rewind m else .ok () m) = .ok () (standing pl cs 0) := by
    rw [if_pos hi]
    exact h.rewind_eq hp hfirst m
  refine h.access_of_goal hstart ?_
  have hgo := h.accessLoop_eq hp i hfirst
  rw [Nat.zero_add] at hgo
  exact hgo

/-- From an item, every access gives what it is to give. -/
theorem access_standing (h : Walk pl cs fail) (hp : r.payload = .ok pl) {k : Nat} (hk : Stands cs fail k) (i : Nat) :
    r.access i (standing pl cs k) = answer pl cs fail i := by
  by_cases hi : i < k
  · have hfirst : Stands cs fail 0 := by
      rcases hk with hk | ⟨rfl, -⟩
      · exact .inl (by omega)
      · exact .inl (by omega)
    exact h.access_rewound hp hfirst hi
  · have hstart : (if i < (standing pl cs k).m_lastIndex then r.rewind (standing pl cs k) else .ok () (standing pl cs k)) =
        .ok () (standing pl cs k) := if_neg hi
    refine h.access_of_goal hstart ?_
    have hgo := h.accessLoop_eq hp (i - k) hk
    rwa [Nat.add_sub_cancel' (by omega)] at hgo

/-- So does one on a new object, for an index that there may be. -/
theorem access_fresh (h : Walk pl cs fail) (hp : r.payload = .ok pl) (hfirst : Stands cs fail 0) {i : Nat} (hi : i < noIndex) :
    r.access i fresh = answer pl cs fail i := h.access_rewound hp hfirst hi

/-- Astray, an access goes back for an index before that of the memo, and fails again for one behind it; at that index it fails too. -/
theorem access_astray {e : RLPError} (h : Walk pl cs (some e)) (hp : r.payload = .ok pl) (hne : cs ≠ []) (i : Nat) :
    (i ≠ cs.length - 1 → r.access i (astray pl cs) = answer pl cs (some e) i) ∧
      (i = cs.length - 1 → ∃ e', r.access i (astray pl cs) = .error e' (astray pl cs)) := by
  have hpos : 0 < cs.length := List.length_pos_iff.mpr hne
  obtain ⟨hv, -⟩ := h.rest cs.length
  rw [stopOf_of_le (le_refl _)] at hv
  have hbad : ∀ n, ¬ Framed (pl.croppedFrom cs.flatten.length).toBytes n := by
    intro n hn
    have hread := (sizeAsEncoded_ok_iff hv n).mpr hn
    rw [h.stops] at hread
    cases hread
  have hsize : ¬ (astray pl cs).m_lastItem.size = 0 := by
    intro hzero
    refine hbad 0 (.null (List.length_eq_zero_iff.mp ?_))
    rw [hv.length_toBytes]
    exact hzero
  refine ⟨fun hi => ?_, fun hi => ?_⟩
  · rcases Nat.lt_or_gt_of_ne hi with hlt | hgt
    · exact h.access_rewound hp (.inl hpos) hlt
    · have hstart : (if i < (astray pl cs).m_lastIndex then r.rewind (astray pl cs) else .ok () (astray pl cs)) =
          .ok () (astray pl cs) := if_neg (Nat.not_lt.mpr hgt.le)
      refine h.access_of_goal hstart ?_
      obtain ⟨n, hn⟩ : ∃ n, i - (astray pl cs).m_lastIndex = n + 1 := ⟨i - cs.length, by simp only [astray]; omega⟩
      rw [hn, accessLoop, if_neg hsize, hp]
      dsimp only [astray]
      have hstops := h.stops
      rw [hstops]
      dsimp only [endSize]
      rw [goal, if_neg (by omega), astray]
  · have hsame : ¬ i < (astray pl cs).m_lastIndex := by
      rw [hi]
      exact lt_irrefl _
    have hturns : i - (astray pl cs).m_lastIndex = 0 := by
      rw [hi]
      exact Nat.sub_self _
    rw [access, if_neg hsame]
    dsimp only
    rw [hturns, accessLoop]
    dsimp only
    cases hof : ofRef (astray pl cs).m_lastItem (ThrowOnFail ||| FailIfTooSmall) with
    | error e' => exact ⟨e', rfl⟩
    | ok x =>
      -- what is not an item is refused
      obtain ⟨n, hn⟩ := framed_of_ofRef hv hof
      exact absurd hn (hbad n)

/-- Where the items end there is no other item. -/
theorem not_framed_rest {e : RLPError} (h : Walk pl cs (some e)) {rest : Bytes} (hrest : pl.toBytes = cs.flatten ++ rest) (n : Nat) :
    ¬ Framed rest n := by
  intro hn
  have hv := (h.rest cs.length).1
  obtain ⟨-, hbytes, -⟩ := h.valid.croppedFrom (h.stopOf_le cs.length)
  rw [stopOf_of_le (le_refl _)] at hv hbytes
  have hread : sizeAsEncoded (pl.croppedFrom cs.flatten.length) = .ok n := by
    rw [sizeAsEncoded_ok_iff hv, hbytes, hrest, List.drop_left]
    exact hn
  rw [h.stops] at hread
  cases hread

end Walk

/-- Bytes are made of items in one way. -/
theorem Chunks.eq_of_prefix {d : Bytes} {cs cs' : List Bytes} {rest : Bytes} (hd : d = cs.flatten ++ rest)
    (hcs : ∀ c ∈ cs, c ≠ [] ∧ Framed c c.length) (hrest : rest ≠ [] → ∀ n, ¬ Framed rest n) (h : Chunks d cs') :
    cs' = cs ∧ rest = [] := by
  induction cs generalizing d cs' with
  | nil =>
    rw [List.flatten_nil, List.nil_append] at hd
    subst hd
    cases cs' with
    | nil => exact ⟨rfl, h.flatten_eq⟩
    | cons c cs' =>
      have hc := h.cons.1
      have hne : d ≠ [] := by
        rw [h.flatten_eq]
        simp [(h.framed c List.mem_cons_self).1]
      exact absurd hc (hrest hne _)
  | cons c cs ih =>
    obtain ⟨hne, hf⟩ := hcs c List.mem_cons_self
    rw [List.flatten_cons, List.append_assoc] at hd
    have hfd : Framed d c.length := by
      rw [hd]
      exact hf.append hne _
    cases cs' with
    | nil =>
      have hnil := h.flatten_eq
      rw [hd] at hnil
      simp [hne] at hnil
    | cons c' cs' =>
      obtain ⟨hf', htail⟩ := h.cons
      have hlen : c'.length = c.length := hf'.unique hfd
      have hsame := h.flatten_eq
      rw [hd, List.flatten_cons] at hsame
      obtain ⟨rfl, -⟩ := List.append_inj hsame hlen.symm
      rw [hd, List.drop_left] at htail
      obtain ⟨rfl, hnil⟩ := ih rfl (fun x hx => hcs x (List.mem_cons_of_mem _ hx)) htail
      exact ⟨rfl, hnil⟩

namespace Walk

/-- The payload is made of items if nothing is behind those it begins with, and they are the items. -/
theorem chunks_iff (h : Walk pl cs fail) (cs' : List Bytes) : Chunks pl.toBytes cs' ↔ cs' = cs ∧ fail = none := by
  obtain ⟨rest, hrest, hiff⟩ := h.bytes
  constructor
  · intro hchunks
    have hbad : rest ≠ [] → ∀ n, ¬ Framed rest n := by
      intro hne n
      cases fail with
      | none => exact absurd (hiff.mpr rfl) hne
      | some e => exact h.not_framed_rest hrest n
    obtain ⟨rfl, hnil⟩ := Chunks.eq_of_prefix hrest h.framed hbad hchunks
    exact ⟨rfl, hiff.mp hnil⟩
  · rintro ⟨rfl, hnone⟩
    refine ⟨?_, h.framed⟩
    rw [hrest, hiff.mpr hnone, List.append_nil]

/-- The items of a list are counted if nothing is behind them. -/
theorem itemCount_ok_iff (h : Walk pl cs fail) (hp : r.payload = .ok pl) (hlist : r.isList = true) (n : Nat) :
    r.itemCount = .ok n ↔ n = cs.length ∧ fail = none := by
  rw [RLP.itemCount, if_pos hlist, hp, ok_bind]
  constructor
  · intro hcount
    obtain ⟨cs', hlength, hchunks⟩ := chunks_of_itemsLoop h.valid hcount
    obtain ⟨rfl, hnone⟩ := (h.chunks_iff cs').mp hchunks
    exact ⟨hlength.symm, hnone⟩
  · rintro ⟨rfl, hnone⟩
    exact itemsLoop_of_chunks h.valid ((h.chunks_iff cs).mpr ⟨rfl, hnone⟩) (Nat.lt_succ_self _)

end Walk

/-! ## Where accesses lead -/

/-- A payload is a reference into the buffer, and is shorter than any index can be. -/
theorem payload_valid (hv : r.m_data.Valid) (hp : r.payload = .ok pl) : pl.Valid ∧ pl.m_count < noIndex := by
  rw [payload] at hp
  obtain ⟨l, hl, hp⟩ := bind_eq_ok.mp hp
  split at hp
  · cases hp
  · obtain rfl := Except.ok.inj hp
    have hsmall : l < noIndex := by
      cases hd : r.m_data.toBytes with
      | nil =>
        rw [RLP.length, (isNull_iff r hv).mpr hd] at hl
        obtain rfl := Except.ok.inj hl
        decide
      | cons x t =>
        have hx : x.toNat < 256 := x.toNat_lt
        have hn : noIndex = 2 ^ 64 - 1 := rfl
        rw [length_def r (not_isNull hv hd), get_zero hd] at hl
        obtain ⟨-, -, hl⟩ := bind_eq_ok.mp hl
        split_ifs at hl
        · obtain rfl := Except.ok.inj hl
          decide
        · obtain rfl := Except.ok.inj hl
          omega
        · have hlt := (indirectLength_ok hv hd (by omega) hl).2.1
          omega
        · obtain rfl := Except.ok.inj hl
          omega
        · have hlt := (indirectLength_ok hv hd (by omega) hl).2.1
          omega
    rw [BytesConstRef.cropped]
    split
    · rename_i hbounds
      exact ⟨(hv.sub hbounds.2.2).1, hsmall⟩
    · exact ⟨Nat.le_refl _, by decide⟩

theorem length_le_flatten {cs : List Bytes} (h : ∀ c ∈ cs, c ≠ []) : cs.length ≤ cs.flatten.length := by
  induction cs with
  | nil => exact Nat.le_refl _
  | cons c cs ih =>
    have hpos : 0 < c.length := List.length_pos_iff.mpr (h c List.mem_cons_self)
    have htail := ih fun c' hc' => h c' (List.mem_cons_of_mem _ hc')
    rw [List.length_cons, List.flatten_cons, List.length_append]
    omega

theorem Walk.length_le (h : Walk pl cs fail) : cs.length ≤ pl.m_count := by
  have hstop := h.stopOf_le cs.length
  rw [stopOf_of_le (le_refl _)] at hstop
  have hle := length_le_flatten fun c hc => (h.framed c hc).1
  omega

/-- The memo after accesses, one after the other, on a new object. -/
def memoAfter (r : RLP) (is : List Nat) : Memo := is.foldl (fun m i => memoOf (r.access i m)) fresh

/-- Where a memo may be: as it was at the beginning, at an item, or astray. -/
inductive Place (r : RLP) : Memo → Prop where
  | fresh : Place r fresh
  | standing (pl : BytesConstRef) (cs : List Bytes) (fail : Option RLPError) (k : Nat) :
      r.payload = .ok pl → Walk pl cs fail → Walk.Stands cs fail k → Place r (standing pl cs k)
  | astray (pl : BytesConstRef) (cs : List Bytes) (e : RLPError) :
      r.payload = .ok pl → Walk pl cs (some e) → cs ≠ [] → Place r (astray pl cs)

theorem accessLoop_fresh (n : Nat) : r.accessLoop n fresh = .ok () fresh := by
  cases n with
  | zero => rfl
  | succ n => rfl

/-- An access whose steps are known. -/
theorem access_of_steps {i : Nat} {m m₁ m₂ : Memo} {x : RLP}
    (hstart : (if i < m.m_lastIndex then r.rewind m else .ok () m) = .ok () m₁)
    (hloop : r.accessLoop (i - m₁.m_lastIndex) m₁ = .ok () m₂)
    (hitem : ofRef m₂.m_lastItem (ThrowOnFail ||| FailIfTooSmall) = .ok x) : r.access i m = .ok x m₂ := by
  rw [access, hstart]
  dsimp only
  rw [hloop]
  dsimp only
  rw [hitem]

/-- On a new object an index that there cannot be gives nothing. -/
theorem access_fresh_of_le {i : Nat} (hi : noIndex ≤ i) : r.access i fresh = .ok ⟨.null⟩ fresh := by
  have hstay : ¬ i < fresh.m_lastIndex := Nat.not_lt.mpr hi
  have hnull : ofRef .null (ThrowOnFail ||| FailIfTooSmall) = .ok ⟨.null⟩ := ofRef_of_framed (Nat.le_refl _) (.null rfl)
  exact access_of_steps (if_neg hstay) (accessLoop_fresh _) hnull

/-- Where there is no first item to go back to, an exception leaves the object as it was. -/
theorem access_fresh_of_rewind {i : Nat} {e : RLPError} (h : r.rewind fresh = .error e fresh) (hi : i < noIndex) :
    r.access i fresh = .error e fresh := by
  rw [access, if_pos (show i < fresh.m_lastIndex from hi), h]

theorem rewind_of_payload {e : RLPError} (hp : r.payload = .error e) (m : Memo) : r.rewind m = .error e m := by
  rw [rewind, hp]

theorem Walk.rewind_of_nil {e : RLPError} (h : Walk pl [] (some e)) (hp : r.payload = .ok pl) (m : Memo) :
    r.rewind m = .error e m := by
  have hstops := h.stops
  have hall : pl.croppedFrom ([] : List Bytes).flatten.length = pl := by simp [BytesConstRef.croppedFrom]
  rw [hall] at hstops
  rw [rewind, hp]
  dsimp only
  rw [hstops]
  rfl

theorem Walk.place_answer (h : Walk pl cs fail) (hp : r.payload = .ok pl) (hfirst : Walk.Stands cs fail 0) (i : Nat) :
    Place r (memoOf (Walk.answer pl cs fail i)) := by
  unfold Walk.answer
  by_cases hi : i < cs.length
  · rw [if_pos hi]
    exact .standing pl cs fail i hp h (.inl hi)
  · rw [if_neg hi]
    cases fail with
    | none => exact .standing pl cs none cs.length hp h (.inr ⟨rfl, rfl⟩)
    | some e =>
      refine .astray pl cs e hp h ?_
      rintro rfl
      rcases hfirst with hlt | ⟨-, hnone⟩
      · exact absurd hlt (lt_irrefl _)
      · cases hnone

theorem Walk.stands_zero {k : Nat} (hk : Walk.Stands cs fail k) : Walk.Stands cs fail 0 := by
  rcases hk with hlt | ⟨rfl, hnone⟩
  · exact .inl (by omega)
  · by_cases hpos : 0 < cs.length
    · exact .inl hpos
    · exact .inr ⟨by omega, hnone⟩

/-- An access leads from a place to a place. -/
theorem Place.access (hv : r.m_data.Valid) {m : Memo} (h : Place r m) (i : Nat) : Place r (memoOf (r.access i m)) := by
  cases h with
  | fresh =>
    rcases Nat.lt_or_ge i noIndex with hi | hi
    · cases hp : r.payload with
      | error e =>
        rw [access_fresh_of_rewind (rewind_of_payload hp _) hi]
        exact .fresh
      | ok pl =>
        obtain ⟨cs, fail, hw⟩ := exists_walk (payload_valid hv hp).1
        by_cases hfirst : Walk.Stands cs fail 0
        · rw [hw.access_fresh hp hfirst hi]
          exact hw.place_answer hp hfirst i
        · -- neither an item nor the end
          rw [Walk.Stands, not_or] at hfirst
          obtain rfl : cs = [] := List.length_eq_zero_iff.mp (by omega)
          cases fail with
          | none => exact absurd ⟨rfl, rfl⟩ hfirst.2
          | some e =>
            rw [access_fresh_of_rewind (hw.rewind_of_nil hp _) hi]
            exact .fresh
    · rw [access_fresh_of_le hi]
      exact .fresh
  | standing pl cs fail k hp hw hk =>
    rw [hw.access_standing hp hk]
    exact hw.place_answer hp (Walk.stands_zero hk) i
  | astray pl cs e hp hw hne =>
    obtain ⟨hother, hsame⟩ := hw.access_astray hp hne i
    by_cases hi : i = cs.length - 1
    · obtain ⟨e', he⟩ := hsame hi
      rw [he]
      exact .astray pl cs e hp hw hne
    · rw [hother hi]
      exact hw.place_answer hp (.inl (List.length_pos_iff.mpr hne)) i

/-- So do all accesses together. -/
theorem place_memoAfter (hv : r.m_data.Valid) (is : List Nat) : Place r (memoAfter r is) := by
  induction is using List.reverseRecOn with
  | nil => exact .fresh
  | append_singleton is i ih =>
    rw [memoAfter, List.foldl_append]
    exact ih.access hv i

end RLP

end Webthree
