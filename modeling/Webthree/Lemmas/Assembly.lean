import Webthree.Asm.Layout
import Webthree.Lib.EState
import Mathlib.Algebra.BigOperators.Group.List.Basic

/-!
# The code of an assembly

The loop over the items appends a chunk for each of them, with zeros for references. All that follows writes into these zeros and
appends objects, so that each reference has its value in the end and everything else stays.
-/

namespace Webthree

namespace Layout

/-! ## Positions -/

variable {l : Layout}

/-- An item begins where the one before it ends. -/
theorem position_succ {k : Nat} {x : AssemblyItem} (h : l.items[k]? = some x) : l.position (k + 1) = l.position k + l.itemSize x := by
  unfold position
  rw [List.take_add_one, h, List.map_append, List.sum_append]
  rfl

/-- Later items begin later. -/
theorem position_mono {j k : Nat} (h : j ≤ k) : l.position j ≤ l.position k := by
  unfold position
  obtain ⟨d, rfl⟩ := Nat.exists_eq_add_of_le h
  rw [List.take_add, List.map_append, List.sum_append]
  exact Nat.le_add_right _ _

/-- Behind the last item is the end of the code. -/
theorem position_length : l.position l.items.length = l.codeSize := by
  unfold position
  rw [List.take_length]
  rfl

/-- An item ends before each later one. -/
theorem position_end {j k : Nat} {x : AssemblyItem} (h : l.items[j]? = some x) (hjk : j < k) :
    l.position j + l.itemSize x ≤ l.position k :=
  (position_succ h).symm.trans_le (position_mono hjk)

/-- No item ends behind the code. -/
theorem position_end_le {j : Nat} {x : AssemblyItem} (h : l.items[j]? = some x) : l.position j + l.itemSize x ≤ l.codeSize :=
  position_length ▸ position_end h (List.getElem?_eq_some_iff.mp h).1

/-! ## References -/

/-- The places of the items with a key, as positions are kept. -/
def places {κ : Type} (l : Layout) (keep : Nat → Nat) (key : AssemblyItem → Option κ) (k : Nat) : List (κ × Nat) :=
  (List.range k).filterMap fun j => (l.items[j]?.bind key).map fun n => (n, keep (l.position j + 1))

/-- The places before the next item are those before it, and perhaps its own. -/
theorem places_succ {κ : Type} {keep : Nat → Nat} {key : AssemblyItem → Option κ} {k : Nat} {x : AssemblyItem}
    (h : l.items[k]? = some x) :
    l.places keep key (k + 1) = l.places keep key k ++ ((key x).map fun n => (n, keep (l.position k + 1))).toList := by
  unfold places
  rw [List.range_succ, List.filterMap_append, List.filterMap_cons, h, Option.bind_some]
  cases key x with
  | none => rfl
  | some n => rfl

/-- A place is that of one of the items. -/
theorem mem_places {κ : Type} {keep : Nat → Nat} {key : AssemblyItem → Option κ} {k : Nat} {n : κ} {q : Nat} :
    (n, q) ∈ l.places keep key k ↔ ∃ j x, j < k ∧ l.items[j]? = some x ∧ key x = some n ∧ q = keep (l.position j + 1) := by
  unfold places
  rw [List.mem_filterMap]
  constructor
  · rintro ⟨j, hj, hm⟩
    obtain ⟨n', hn, he⟩ := Option.map_eq_some_iff.mp hm
    obtain ⟨x, hx, hkey⟩ := Option.bind_eq_some_iff.mp hn
    cases he
    exact ⟨j, x, List.mem_range.mp hj, hx, hkey, rfl⟩
  · rintro ⟨j, x, hj, hx, hkey, rfl⟩
    exact ⟨j, List.mem_range.mpr hj, by rw [hx, Option.bind_some, hkey]; rfl⟩

/-- The key of the data that is pushed. -/
def dataKey (x : AssemblyItem) : Option U256 := if x.type = .PushData then some x.data else none

/-- The index of the part that is pushed. -/
def subKey (x : AssemblyItem) : Option Nat := if x.type = .PushSub then some (size_t x.data.toNat) else none

/-- The size of the program is pushed. -/
def sizeKey (x : AssemblyItem) : Option Unit := if x.type = .PushProgramSize then some () else none

theorem dataKey_eq_some {x : AssemblyItem} {n : U256} : dataKey x = some n ↔ x.type = .PushData ∧ x.data = n := by
  unfold dataKey
  split <;> simp_all

theorem subKey_eq_some {x : AssemblyItem} {n : Nat} : subKey x = some n ↔ x.type = .PushSub ∧ size_t x.data.toNat = n := by
  unfold subKey
  split <;> simp_all

theorem sizeKey_eq_some {x : AssemblyItem} {n : Unit} : sizeKey x = some n ↔ x.type = .PushProgramSize := by
  unfold sizeKey
  split <;> simp_all

end Layout

namespace Assembly

open Layout

/-! ## Chunks -/

/-- The smallest push of a number. -/
def number (v : Nat) : Bytes :=
  UInt8.ofNat (pushInstruction (max 1 (Webthree.bytesRequired v))) :: toBigEndianIn (max 1 (Webthree.bytesRequired v)) v

/-- A push whose operand is not known yet. -/
def hole (w : Nat) : Bytes := UInt8.ofNat (pushInstruction w) :: List.replicate w 0

/-- What the loop appends for an item. -/
def chunk (a : Assembly) (l : Layout) (x : AssemblyItem) : Bytes :=
  match x.type with
  | .Operation => [UInt8.ofNat x.data.toNat]
  | .PushString =>
    let string := (a.m_strings.find x.data).getD []
    UInt8.ofNat (pushInstruction 32) :: (string.take 32 ++ List.replicate (32 - string.length) 0)
  | .Push => number x.data.toNat
  | .PushTag => hole l.bytesPerTag
  | .PushData | .PushSub | .PushProgramSize => hole l.bytesPerDataRef
  | .PushSubSize => number (l.sizes[size_t x.data.toNat]?.getD 0)
  | .PushLibraryAddress => hole 20
  | .Tag => [0x5b]
  | .UndefinedItem => []

/-- A number is pushed with a byte for the instruction and as many as it needs. -/
theorem length_number (v : Nat) : (number v).length = 1 + max 1 (Webthree.bytesRequired v) := by
  rw [number, List.length_cons, length_toBigEndianIn, Nat.add_comm]

/-- A hole is as long as what is put into it, with a byte for the instruction. -/
theorem length_hole (w : Nat) : (hole w).length = 1 + w := by
  rw [hole, List.length_cons, List.length_replicate, Nat.add_comm]

/-- Each item is written with its size. -/
theorem length_chunk (a : Assembly) (l : Layout) (x : AssemblyItem) : (chunk a l x).length = l.itemSize x := by
  unfold chunk itemSize
  cases x.type with
  | UndefinedItem => rfl
  | Operation => rfl
  | Push => exact length_number _
  | PushString =>
    simp only [List.length_cons, List.length_append, List.length_take, List.length_replicate]
    omega
  | PushTag => exact length_hole _
  | PushSub => exact length_hole _
  | PushSubSize => exact length_number _
  | PushProgramSize => exact length_hole _
  | Tag => rfl
  | PushData => exact length_hole _
  | PushLibraryAddress => exact length_hole _

/-! ## One item -/

/-- What one turn of the loop does. -/
structure Emits (a : Assembly) (l : Layout) (s : Locals) (x : AssemblyItem) (s' : Locals) : Prop where
  code : s'.ret.bytecode = s.ret.bytecode ++ chunk a l x
  tagPos_length : s'.tagPos.length = s.tagPos.length
  tagPos : ∀ n, n ≠ 0 → s'.tagPos[n]? = if x.type = .Tag ∧ tagNumber x = n then some (unsigned s.size) else s.tagPos[n]?
  tagRef : s'.tagRef = if x.type = .PushTag then s.tagRef.set (unsigned (s.size + 1)) (tagNumber x) else s.tagRef
  dataRef : s'.dataRef = s.dataRef ++ ((dataKey x).map fun n => (n, unsigned (s.size + 1))).toList
  subRef : s'.subRef = s.subRef ++ ((subKey x).map fun n => (n, s.size + 1)).toList
  sizeRef : s'.sizeRef = s.sizeRef ++ ((sizeKey x).map fun _ => unsigned (s.size + 1)).toList
  subSize : x.type = .PushSubSize → size_t x.data.toNat < l.sizes.length

/-- A tag that is invalid changes no other tag. -/
theorem noteInvalid_eq_ok {s s' : Locals} {x : AssemblyItem} (h : s.noteInvalid x = .ok s') :
    ∃ tagPos, s' = { s with tagPos } ∧ tagPos.length = s.tagPos.length ∧ ∀ n, n ≠ 0 → tagPos[n]? = s.tagPos[n]? := by
  unfold Locals.noteInvalid at h
  split at h
  · cases h
    exact ⟨s.tagPos, rfl, rfl, fun _ _ => rfl⟩
  · cases htags : s.tagPos with
    | nil =>
      rw [htags] at h
      cases h
    | cons p ps =>
      rw [htags] at h
      cases h
      refine ⟨_, rfl, rfl, fun n hn => ?_⟩
      obtain ⟨n, rfl⟩ := Nat.exists_eq_succ_of_ne_zero hn
      rfl

/-- Each item emits its bytes, and notes its place. -/
theorem assembleItem_emits {a : Assembly} {l : Layout} {subs : List LinkerObject}
    (hsizes : l.sizes = subs.map fun sub => sub.bytecode.length) {s s' : Locals} {x : AssemblyItem}
    (h : a.assembleItem subs l.bytesPerTag l.bytesPerDataRef s x = .ok s') : Emits a l s x s' := by
  rw [assembleItem, bind_eq_ok] at h
  obtain ⟨t, ht, h⟩ := h
  obtain ⟨tagPos, rfl, hlength, htags⟩ := noteInvalid_eq_ok ht
  cases hx : x.type with
  | UndefinedItem =>
    rw [hx] at h
    cases h
  | Operation =>
    rw [hx] at h
    cases h
    refine ⟨?_, hlength, ?_, ?_, ?_, ?_, ?_, ?_⟩ <;> simp [Locals.put, chunk, hx, dataKey, subKey, sizeKey]
    exact htags
  | Push =>
    rw [hx] at h
    cases h
    refine ⟨?_, hlength, ?_, ?_, ?_, ?_, ?_, ?_⟩ <;> simp [putNumber, Locals.put, chunk, number, hx, dataKey, subKey, sizeKey]
    exact htags
  | PushString =>
    rw [hx] at h
    cases hstring : a.m_strings.find x.data with
    | none =>
      simp only [hstring] at h
      cases h
    | some string =>
      simp only [hstring] at h
      cases h
      refine ⟨?_, hlength, ?_, ?_, ?_, ?_, ?_, ?_⟩ <;> simp [Locals.put, chunk, hx, hstring, dataKey, subKey, sizeKey]
      exact htags
  | PushTag =>
    rw [hx] at h
    cases h
    refine ⟨?_, hlength, ?_, ?_, ?_, ?_, ?_, ?_⟩ <;>
      simp [Locals.put, Locals.size, tagNumber, chunk, hole, hx, dataKey, subKey, sizeKey]
    exact htags
  | PushSub =>
    rw [hx] at h
    cases h
    refine ⟨?_, hlength, ?_, ?_, ?_, ?_, ?_, ?_⟩ <;> simp [Locals.put, Locals.size, chunk, hole, hx, dataKey, subKey, sizeKey]
    exact htags
  | PushSubSize =>
    rw [hx] at h
    cases hsub : subs[size_t x.data.toNat]? with
    | none =>
      simp only [hsub] at h
      cases h
    | some sub =>
      simp only [hsub] at h
      cases h
      have hsize : l.sizes[size_t x.data.toNat]?.getD 0 = sub.bytecode.length := by
        rw [hsizes, List.getElem?_map, hsub]
        rfl
      refine ⟨?_, hlength, ?_, ?_, ?_, ?_, ?_, ?_⟩ <;>
        simp [putNumber, Locals.put, chunk, number, hx, hsize, dataKey, subKey, sizeKey]
      · exact htags
      · rw [hsizes, List.length_map]
        exact (List.getElem?_eq_some_iff.mp hsub).1
  | PushProgramSize =>
    rw [hx] at h
    cases h
    refine ⟨?_, hlength, ?_, ?_, ?_, ?_, ?_, ?_⟩ <;> simp [Locals.put, Locals.size, chunk, hole, hx, dataKey, subKey, sizeKey]
    exact htags
  | PushData =>
    rw [hx] at h
    cases h
    refine ⟨?_, hlength, ?_, ?_, ?_, ?_, ?_, ?_⟩ <;> simp [Locals.put, Locals.size, chunk, hole, hx, dataKey, subKey, sizeKey]
    exact htags
  | PushLibraryAddress =>
    rw [hx] at h
    cases hname : a.m_libraries.find x.data with
    | none =>
      simp only [hname] at h
      cases h
    | some name =>
      simp only [hname] at h
      cases h
      refine ⟨?_, hlength, ?_, ?_, ?_, ?_, ?_, ?_⟩ <;> simp [Locals.put, chunk, hole, hx, dataKey, subKey, sizeKey]
      exact htags
  | Tag =>
    rw [hx] at h
    dsimp only at h
    by_cases hrange : tagPos.length ≤ unsigned x.data.toNat
    · rw [if_pos hrange] at h
      cases h
    by_cases hzero : x.data = 0
    · rw [if_neg hrange, if_pos hzero] at h
      cases h
    rw [if_neg hrange, if_neg hzero] at h
    cases h
    refine ⟨?_, ?_, ?_, ?_, ?_, ?_, ?_, ?_⟩ <;> simp [Locals.put, chunk, hx, dataKey, subKey, sizeKey]
    · exact hlength
    · intro n hn
      rw [List.getElem?_set]
      by_cases hnumber : tagNumber x = n
      · rw [if_pos (show unsigned x.data.toNat = n from hnumber), if_pos hnumber, if_pos (not_le.mp hrange)]
        rfl
      · rw [if_neg (show ¬unsigned x.data.toNat = n from hnumber), if_neg hnumber]
        exact htags n hn

/-! ## All items -/

/-- What the loop has done after the first `k` items. -/
structure Emitted (a : Assembly) (l : Layout) (k : Nat) (s : Locals) : Prop where
  code : s.ret.bytecode = (l.items.take k).flatMap (chunk a l)
  /-- The last of the items so far that defines a tag. -/
  tagPos : ∀ n j x, n ≠ 0 → j < k → l.items[j]? = some x → x.type = .Tag → tagNumber x = n →
    (∀ i y, j < i → i < k → l.items[i]? = some y → y.type = .Tag → tagNumber y ≠ n) → s.tagPos[n]? = some (unsigned (l.position j))
  tagRef : ∀ q n, (q, n) ∈ s.tagRef →
    ∃ j x, j < k ∧ l.items[j]? = some x ∧ x.type = .PushTag ∧ q = unsigned (l.position j + 1) ∧ n = tagNumber x
  tagRef_mem : l.codeSize < 2 ^ 32 → ∀ j x, j < k → l.items[j]? = some x → x.type = .PushTag →
    (l.position j + 1, tagNumber x) ∈ s.tagRef
  dataRef : s.dataRef = l.places unsigned dataKey k
  subRef : s.subRef = l.places id subKey k
  sizeRef : s.sizeRef = (l.places unsigned sizeKey k).map Prod.snd
  subSize : ∀ j x, j < k → l.items[j]? = some x → x.type = .PushSubSize → size_t x.data.toNat < l.sizes.length

/-- The bytes before an item end where it begins. -/
theorem length_flatMap_chunk (a : Assembly) (l : Layout) (k : Nat) : ((l.items.take k).flatMap (chunk a l)).length = l.position k := by
  unfold position
  rw [List.length_flatMap]
  congr 1
  exact List.map_congr_left fun x _ => length_chunk a l x

/-- A small number is not truncated. -/
theorem unsigned_of_lt {n : Nat} (h : n < 2 ^ 32) : unsigned n = n := Nat.mod_eq_of_lt h

/-- Every item but an undefined one takes a byte. -/
theorem itemSize_pos {l : Layout} {x : AssemblyItem} (h : x.type ≠ .UndefinedItem) : 0 < l.itemSize x := by
  unfold itemSize
  cases hx : x.type with
  | UndefinedItem => exact absurd hx h
  | _ => simp

/-- Before the end of the code, positions are kept as they are. -/
theorem unsigned_position {l : Layout} (hcode : l.codeSize < 2 ^ 32) {j : Nat} {x : AssemblyItem} (hj : l.items[j]? = some x)
    (hx : x.type ≠ .UndefinedItem) : unsigned (l.position j) = l.position j ∧ unsigned (l.position j + 1) = l.position j + 1 := by
  have hend := position_end_le hj
  have hpos := itemSize_pos (l := l) hx
  exact ⟨unsigned_of_lt (by omega), unsigned_of_lt (by omega)⟩

/-- What is emitted up to an item and for it is emitted up to the next. -/
theorem emitted_succ {a : Assembly} {l : Layout} {k : Nat} {s s' : Locals} {x : AssemblyItem} (hx : l.items[k]? = some x)
    (h : Emitted a l k s) (hs : Emits a l s x s') : Emitted a l (k + 1) s' := by
  have hsize : s.size = l.position k := by
    rw [Locals.size, h.code, length_flatMap_chunk]
  refine ⟨?_, ?_, ?_, ?_, ?_, ?_, ?_, ?_⟩
  · rw [hs.code, h.code, List.take_add_one, hx, List.flatMap_append]
    simp
  · intro n j y hn hj hy hyt hyn hlast
    rw [hs.tagPos n hn, hsize]
    rcases Nat.lt_succ_iff_lt_or_eq.mp hj with hj | rfl
    · rw [if_neg fun hxn => hlast k x hj (Nat.lt_succ_self k) hx hxn.1 hxn.2]
      exact h.tagPos n j y hn hj hy hyt hyn fun i z hji hi => hlast i z hji (Nat.lt_succ_of_lt hi)
    · rw [hx] at hy
      cases hy
      rw [if_pos ⟨hyt, hyn⟩]
  · intro q n hm
    rw [hs.tagRef] at hm
    have hold : (q, n) ∈ s.tagRef →
        ∃ j x, j < k + 1 ∧ l.items[j]? = some x ∧ x.type = .PushTag ∧ q = unsigned (l.position j + 1) ∧ n = tagNumber x := by
      intro hm
      obtain ⟨j, y, hj, hy⟩ := h.tagRef q n hm
      exact ⟨j, y, Nat.lt_succ_of_lt hj, hy⟩
    by_cases hxt : x.type = .PushTag
    · rw [if_pos hxt] at hm
      rcases Assoc.mem_set hm with he | hm
      · obtain ⟨rfl, rfl⟩ := Prod.mk.inj he
        exact ⟨k, x, Nat.lt_succ_self k, hx, hxt, by rw [hsize], rfl⟩
      · exact hold hm
    · rw [if_neg hxt] at hm
      exact hold hm
  · intro hcode j y hj hy hyt
    rw [hs.tagRef]
    rcases Nat.lt_succ_iff_lt_or_eq.mp hj with hj | rfl
    · have hm := h.tagRef_mem hcode j y hj hy hyt
      by_cases hxt : x.type = .PushTag
      · rw [if_pos hxt]
        refine Assoc.mem_set_of_ne hm ?_
        have hne : x.type ≠ .UndefinedItem := by rw [hxt]; nofun
        have hend := position_end hy hj
        have hpos := itemSize_pos (l := l) (x := y) (by rw [hyt]; nofun)
        rw [hsize, (unsigned_position hcode hx hne).2]
        dsimp only
        omega
      · rw [if_neg hxt]
        exact hm
    · rw [hx] at hy
      cases hy
      have hne : x.type ≠ .UndefinedItem := by rw [hyt]; nofun
      rw [if_pos hyt, hsize, (unsigned_position hcode hx hne).2]
      exact Assoc.mem_set_self _ _ _
  · rw [hs.dataRef, h.dataRef, places_succ hx, hsize]
  · rw [hs.subRef, h.subRef, places_succ hx, hsize]
    rfl
  · rw [hs.sizeRef, h.sizeRef, places_succ hx, hsize, List.map_append]
    cases sizeKey x with
    | none => rfl
    | some n => rfl
  · intro j y hj hy hyt
    rcases Nat.lt_succ_iff_lt_or_eq.mp hj with hj | rfl
    · exact h.subSize j y hj hy hyt
    · rw [hx] at hy
      cases hy
      exact hs.subSize hyt

/-! ## Tags -/

/-- What is written for tags. -/
def tagStores (w : Nat) (s : Locals) : List (Nat × Bytes) :=
  (s.tagRef.insertionSort fun i j => i.1 ≤ j.1).map fun i =>
    (i.1, toBigEndianIn w ((tagPosition s.tagPos i.2).toOption.getD 0))

/-- The tags are stored into the bytes. -/
theorem resolveTags_eq_ok {w : Nat} {s : Locals} {code : Bytes} (h : resolveTags w s = .ok code) :
    code = storeAll s.ret.bytecode (tagStores w s) := by
  unfold resolveTags at h
  unfold tagStores
  revert h
  generalize s.tagRef.insertionSort (fun i j => i.1 ≤ j.1) = refs
  generalize s.ret.bytecode = code₀
  intro h
  induction refs generalizing code₀ with
  | nil =>
    cases h
    rfl
  | cons i refs ih =>
    rw [List.foldlM_cons, bind_eq_ok] at h
    obtain ⟨code₁, h₁, h⟩ := h
    rw [bind_eq_ok] at h₁
    obtain ⟨p, hp, h₁⟩ := h₁
    cases h₁
    rw [ih _ h, List.map_cons, storeAll_cons, hp]
    rfl

/-- A tag is stored where it is referred to. -/
theorem mem_tagStores {w : Nat} {s : Locals} {p : Nat × Bytes} : p ∈ tagStores w s ↔
    ∃ q n, (q, n) ∈ s.tagRef ∧ p = (q, toBigEndianIn w ((tagPosition s.tagPos n).toOption.getD 0)) := by
  unfold tagStores
  rw [List.mem_map]
  constructor
  · rintro ⟨i, hi, rfl⟩
    exact ⟨i.1, i.2, (List.mem_insertionSort _).mp hi, rfl⟩
  · rintro ⟨q, n, hm, rfl⟩
    exact ⟨(q, n), (List.mem_insertionSort _).mpr hm, rfl⟩

/-- A tag with a position has it. -/
theorem tagPosition_of_some {tagPos : List Nat} {n p : Nat} (hn : n ≠ 0) (h : tagPos[n]? = some p) :
    tagPosition tagPos n = .ok p := by
  have hlt := (List.getElem?_eq_some_iff.mp h).1
  unfold tagPosition
  rw [if_neg (by omega)]
  dsimp only
  rw [h]
  exact if_neg fun hz => hn hz.1

/-! ## Objects -/

section Objects

variable {κ : Type} [DecidableEq κ]

/-- The references to a key are those in its range. -/
theorem mem_equal_range {refs : List (κ × Nat)} {n : κ} {q : Nat} : q ∈ equal_range refs n ↔ (n, q) ∈ refs := by
  unfold equal_range
  rw [List.mem_map]
  constructor
  · rintro ⟨⟨n', q'⟩, hm, rfl⟩
    rw [List.mem_filter] at hm
    obtain rfl := of_decide_eq_true hm.2
    exact hm.1
  · intro hm
    exact ⟨(n, q), List.mem_filter.mpr ⟨hm, decide_eq_true rfl⟩, rfl⟩

/-- The bytes that an object takes, none if nothing refers to it. -/
def placed (refs : List (κ × Nat)) (e : κ × LinkerObject) : Bytes :=
  if refs.any (fun r => r.1 = e.1) then e.2.bytecode else []

/-- The range is empty exactly if nothing refers to the key. -/
theorem equal_range_eq_nil {refs : List (κ × Nat)} {n : κ} :
    equal_range refs n = [] ↔ refs.any (fun r => r.1 = n) = false := by
  unfold equal_range
  simp [List.filter_eq_nil_iff]

/-- All objects are placed one after the other, and the places that refer to one get its offset. -/
theorem foldl_place {w : Nat} {refs : List (κ × Nat)} (entries : List (κ × LinkerObject)) {code tail : Bytes} {ret : LinkerObject}
    (hwithin : ∀ r ∈ refs, r.2 + w ≤ code.length) (hret : ret.bytecode = code ++ tail) :
    ∃ ps, (entries.foldl (fun ret e => place w ret (equal_range refs e.1) e.2) ret).bytecode =
        storeAll code ps ++ (tail ++ entries.flatMap (placed refs)) ∧
      ∀ p, p ∈ ps ↔ ∃ j e q, entries[j]? = some e ∧ (e.1, q) ∈ refs ∧
        p = (q, toBigEndianIn w (code.length + tail.length + ((entries.take j).map fun e => (placed refs e).length).sum)) := by
  induction entries generalizing code tail ret with
  | nil => exact ⟨[], by rw [List.flatMap_nil, List.append_nil]; exact hret, by simp⟩
  | cons e entries ih =>
    rw [List.foldl_cons]
    by_cases hrefs : equal_range refs e.1 = []
    · have hplaced : placed refs e = [] := if_neg (by rw [equal_range_eq_nil.mp hrefs]; nofun)
      have hnext : (place w ret (equal_range refs e.1) e.2).bytecode = code ++ tail := by rw [place, if_pos hrefs, hret]
      obtain ⟨ps, hcode, hps⟩ := ih hwithin hnext
      refine ⟨ps, by rw [hcode, List.flatMap_cons, hplaced, List.nil_append], fun p => (hps p).trans ?_⟩
      constructor
      · rintro ⟨j, e', q, hj, hq, rfl⟩
        exact ⟨j + 1, e', q, hj, hq, by simp [hplaced]⟩
      · rintro ⟨j, e', q, hj, hq, rfl⟩
        cases j with
        | zero =>
          cases hj
          have hnone := mem_equal_range.mpr hq
          rw [hrefs] at hnone
          cases hnone
        | succ j => exact ⟨j, e', q, hj, hq, by simp [hplaced]⟩
    · have hplaced : placed refs e = e.2.bytecode := if_pos (by rw [← Bool.not_eq_false, ← equal_range_eq_nil]; exact hrefs)
      have hstores : Within ((equal_range refs e.1).map fun r => (r, toBigEndianIn w ret.bytecode.length)) code.length := by
        intro p hp
        obtain ⟨q, hq, rfl⟩ := List.mem_map.mp hp
        dsimp only
        rw [length_toBigEndianIn]
        exact hwithin _ (mem_equal_range.mp hq)
      have hlength := length_storeAll hstores
      have hnext : (place w ret (equal_range refs e.1) e.2).bytecode =
          storeAll code ((equal_range refs e.1).map fun r => (r, toBigEndianIn w ret.bytecode.length)) ++ (tail ++ e.2.bytecode) := by
        rw [place, if_neg hrefs]
        show storeSize w ret.bytecode (equal_range refs e.1) ++ e.2.bytecode = _
        rw [storeSize, ← List.append_assoc, ← storeAll_append_right hstores, ← hret]
      obtain ⟨ps, hcode, hps⟩ := ih (by rw [hlength]; exact hwithin) hnext
      refine ⟨_ ++ ps, by rw [hcode, storeAll_append, List.flatMap_cons, hplaced, List.append_assoc], fun p => ?_⟩
      rw [List.mem_append, hps, hlength]
      constructor
      · rintro (hp | ⟨j, e', q, hj, hq, rfl⟩)
        · obtain ⟨q, hq, rfl⟩ := List.mem_map.mp hp
          exact ⟨0, e, q, rfl, mem_equal_range.mp hq, by rw [hret, List.length_append]; rfl⟩
        · exact ⟨j + 1, e', q, hj, hq, by simp [hplaced, Nat.add_assoc]⟩
      · rintro ⟨j, e', q, hj, hq, rfl⟩
        cases j with
        | zero =>
          cases hj
          exact Or.inl (List.mem_map.mpr ⟨q, mem_equal_range.mpr hq, by rw [hret, List.length_append]; rfl⟩)
        | succ j => exact Or.inr ⟨j, e', q, hj, hq, by simp [hplaced, Nat.add_assoc]⟩

end Objects

/-! ## The whole -/

/-- A key is in a place exactly if it is that of an item. -/
theorem any_places {κ : Type} [DecidableEq κ] {l : Layout} {keep : Nat → Nat} {key : AssemblyItem → Option κ} {n : κ} :
    (l.places keep key l.items.length).any (fun r => r.1 = n) = l.items.any fun x => key x = some n := by
  rw [Bool.eq_iff_iff, List.any_eq_true, List.any_eq_true]
  constructor
  · rintro ⟨⟨n', q⟩, hm, hn⟩
    obtain ⟨j, x, -, hx, hkey, -⟩ := mem_places.mp hm
    obtain rfl := of_decide_eq_true hn
    exact ⟨x, List.mem_of_getElem? hx, decide_eq_true hkey⟩
  · rintro ⟨x, hx, hkey⟩
    obtain ⟨j, hj⟩ := List.getElem?_of_mem hx
    have hlt := (List.getElem?_eq_some_iff.mp hj).1
    exact ⟨(n, _), mem_places.mpr ⟨j, x, hlt, hj, of_decide_eq_true hkey, rfl⟩, decide_eq_true rfl⟩

/-- No item has a place exactly if none has a key. -/
theorem places_eq_nil {κ : Type} [DecidableEq κ] {l : Layout} {keep : Nat → Nat} {key : AssemblyItem → Option κ} :
    l.places keep key l.items.length = [] ↔ l.items.any (fun x => (key x).isSome) = false := by
  rw [List.any_eq_false, List.eq_nil_iff_forall_not_mem]
  constructor
  · intro h x hx hkey
    obtain ⟨n, hn⟩ := Option.isSome_iff_exists.mp hkey
    obtain ⟨j, hj⟩ := List.getElem?_of_mem hx
    exact h _ (mem_places.mpr ⟨j, x, (List.getElem?_eq_some_iff.mp hj).1, hj, hn, rfl⟩)
  · rintro h ⟨n, q⟩ hm
    obtain ⟨j, x, -, hx, hkey, -⟩ := mem_places.mp hm
    exact h x (List.mem_of_getElem? hx) (by rw [hkey]; rfl)

/-- A sub-assembly is referred to by an item. -/
theorem subReferred_eq (l : Layout) (i : Nat) : l.subReferred i = l.items.any fun x => subKey x = some i := by
  unfold subReferred
  congr 1
  funext x
  exact decide_eq_decide.mpr subKey_eq_some.symm

/-- Data are referred to by an item. -/
theorem dataReferred_eq (l : Layout) (k : U256) : l.dataReferred k = l.items.any fun x => dataKey x = some k := by
  unfold dataReferred
  congr 1
  funext x
  exact decide_eq_decide.mpr dataKey_eq_some.symm

/-- The parts and what they are referred to by. -/
def subEntries (subs : List LinkerObject) : List (Nat × LinkerObject) := subs.zipIdx.map fun sub => (sub.2, sub.1)

/-- The data, as objects. -/
def dataEntries (data : List (U256 × Bytes)) : List (U256 × LinkerObject) := data.map fun d => (d.1, ⟨d.2, []⟩)

/-- Each sub-assembly is under its index. -/
theorem getElem?_subEntries {subs : List LinkerObject} {j : Nat} {e : Nat × LinkerObject} (h : (subEntries subs)[j]? = some e) :
    subs[e.1]? = some e.2 ∧ e.1 = j := by
  rw [subEntries, List.getElem?_map, List.getElem?_zipIdx] at h
  obtain ⟨p, hp, rfl⟩ := Option.map_eq_some_iff.mp h
  obtain ⟨object, hobject, rfl⟩ := Option.map_eq_some_iff.mp hp
  simpa using hobject

/-- The byte between the items and the parts. -/
def separatorBytes (l : Layout) : Bytes := List.replicate l.separator 0

/-- All that is appended to the items. -/
def appended (l : Layout) (subs : List LinkerObject) : Bytes :=
  separatorBytes l ++ (subEntries subs).flatMap (placed (l.places id subKey l.items.length)) ++
    (dataEntries l.data).flatMap (placed (l.places unsigned dataKey l.items.length))

/-- Each sub-assembly is appended as often as its size says. -/
theorem map_length_subEntries {l : Layout} {subs : List LinkerObject} (hsizes : l.sizes = subs.map fun sub => sub.bytecode.length) :
    (subEntries subs).map (fun e => (placed (l.places id subKey l.items.length) e).length) = l.subSizes := by
  unfold subEntries subSizes
  rw [hsizes, List.zipIdx_map, List.map_map, List.map_map]
  refine List.map_congr_left fun e _ => ?_
  simp only [Function.comp_apply, placed, any_places, subReferred_eq, Prod.map, id_eq]
  split <;> rfl

/-- So are the data. -/
theorem map_length_dataEntries {l : Layout} :
    (dataEntries l.data).map (fun e => (placed (l.places unsigned dataKey l.items.length) e).length) = l.dataSizes := by
  unfold dataEntries dataSizes
  rw [List.map_map]
  refine List.map_congr_left fun e _ => ?_
  simp only [Function.comp_apply, placed, any_places, dataReferred_eq]
  split <;> rfl

/-- What is written at which place in the code of the items. -/
structure Stores (l : Layout) (s : Locals) (subs : List LinkerObject) (ps : List (Nat × Bytes)) : Prop where
  within : Within ps l.codeSize
  mem : ∀ p, p ∈ ps ↔ p ∈ tagStores l.bytesPerTag s ∨
    (∃ n q object, (n, q) ∈ l.places id subKey l.items.length ∧ subs[n]? = some object ∧
      p = (q, toBigEndianIn l.bytesPerDataRef (l.subOffset n))) ∨
    (∃ k q j d, (k, q) ∈ l.places unsigned dataKey l.items.length ∧ l.data[j]? = some d ∧ d.1 = k ∧
      p = (q, toBigEndianIn l.bytesPerDataRef (l.dataOffset j))) ∨
    ∃ u q, (u, q) ∈ l.places unsigned sizeKey l.items.length ∧ p = (q, toBigEndianIn l.bytesPerDataRef l.size)

/-- The places of references have room for them. -/
theorem places_within {κ : Type} {l : Layout} {keep : Nat → Nat} (hkeep : ∀ n, keep n ≤ n) {key : AssemblyItem → Option κ} {w : Nat}
    (hw : ∀ x n, key x = some n → l.itemSize x = 1 + w) {r : κ × Nat} (h : r ∈ l.places keep key l.items.length) :
    r.2 + w ≤ l.codeSize := by
  obtain ⟨j, x, -, hx, hkey, hq⟩ := mem_places.mp (show (r.1, r.2) ∈ _ from h)
  have hend := position_end_le hx
  have hle := hkeep (l.position j + 1)
  rw [hw x _ hkey] at hend
  omega

/-- The local variables after the loop over the items. -/
theorem emitted_of_loop {a : Assembly} {l : Layout} {subs : List LinkerObject}
    (hsizes : l.sizes = subs.map fun sub => sub.bytecode.length) {n : Nat} {s : Locals}
    (h : l.items.foldlM (a.assembleItem subs l.bytesPerTag l.bytesPerDataRef) ⟨⟨[], []⟩, List.replicate n 0, [], [], [], []⟩ = .ok s) :
    Emitted a l l.items.length s := by
  refine foldlM_invariant (P := Emitted a l) ?_ (fun k x t t' hx ht hs => emitted_succ hx ht (assembleItem_emits hsizes hs)) h
  exact ⟨rfl, nofun, nofun, nofun, rfl, rfl, rfl, nofun⟩

/-- What an assembly is assembled to: the code of its items, with what is written into it, and what is appended. -/
theorem assembleWith_eq_ok {a : Assembly} {totalBytes : Nat} {subs : List LinkerObject} {ret : LinkerObject}
    (hrequired : a.bytesRequired = .ok totalBytes) (h : a.assembleWith totalBytes subs = .ok ret) {l : Layout}
    (hl : l = a.layoutWith (subs.map fun sub => sub.bytecode.length)) :
    ∃ s ps, Emitted a l l.items.length s ∧ Stores l s subs ps ∧
      ret.bytecode = storeAll (l.items.flatMap (chunk a l)) ps ++ appended l subs := by
  have hsizes : l.sizes = subs.map fun sub => sub.bytecode.length := by rw [hl]; rfl
  have htag : l.bytesPerTag = Webthree.bytesRequired totalBytes := by
    rw [hl, layoutWith, hrequired]
    rfl
  have href : l.bytesPerDataRef = Webthree.bytesRequired (unsigned (totalBytes + (subs.map fun sub => sub.bytecode.length).sum)) := by
    rw [hl, layoutWith, hrequired]
    rfl
  have hitems : a.m_items = l.items := by rw [hl]; rfl
  have hdata : a.m_data = l.data := by rw [hl]; rfl
  simp only [assembleWith, ← htag, ← href, hitems, hdata, bind_eq_ok] at h
  obtain ⟨s, hs, code₁, htags, h⟩ := h
  cases h
  have he := emitted_of_loop hsizes hs
  have hcode : s.ret.bytecode = l.items.flatMap (chunk a l) := by rw [he.code, List.take_length]
  have hlength : s.ret.bytecode.length = l.codeSize := by
    rw [he.code, length_flatMap_chunk, position_length]
  -- tags
  have hwithin₁ : Within (tagStores l.bytesPerTag s) l.codeSize := by
    intro p hp
    obtain ⟨q, n, hm, rfl⟩ := mem_tagStores.mp hp
    obtain ⟨j, x, -, hx, hxt, rfl, -⟩ := he.tagRef q n hm
    have hend := position_end_le hx
    have hle : unsigned (l.position j + 1) ≤ l.position j + 1 := Nat.mod_le _ _
    simp only [itemSize, hxt] at hend
    rw [length_toBigEndianIn]
    dsimp only
    omega
  have hcode₁ := resolveTags_eq_ok htags
  have hlength₁ : code₁.length = l.codeSize := by
    rw [hcode₁, length_storeAll (by rw [hlength]; exact hwithin₁), hlength]
  -- the separator
  have hseparator : (if s.dataRef ≠ [] ∧ s.subRef ≠ [] then code₁ ++ [0] else code₁) = code₁ ++ separatorBytes l := by
    have hdataRef : s.dataRef ≠ [] ↔ (l.items.any fun x => x.type = .PushData) = true := by
      rw [he.dataRef, Ne, places_eq_nil, Bool.not_eq_false]
      simp [dataKey]
    have hsubRef : s.subRef ≠ [] ↔ (l.items.any fun x => x.type = .PushSub) = true := by
      rw [he.subRef, Ne, places_eq_nil, Bool.not_eq_false]
      simp [subKey]
    unfold separatorBytes separator
    by_cases hboth : s.dataRef ≠ [] ∧ s.subRef ≠ []
    · rw [if_pos hboth, if_pos (by rw [← hdataRef, ← hsubRef]; exact hboth)]
      rfl
    · rw [if_neg hboth, if_neg (by rw [← hdataRef, ← hsubRef]; exact hboth)]
      exact (List.append_nil _).symm
  have hsubFold : ∀ r, subs.zipIdx.foldl (fun ret sub => place l.bytesPerDataRef ret (equal_range s.subRef sub.2) sub.1) r =
      (subEntries subs).foldl (fun ret e => place l.bytesPerDataRef ret (equal_range s.subRef e.1) e.2) r :=
    fun r => by rw [subEntries, List.foldl_map]
  have hdataFold : ∀ r, l.data.foldl (fun ret d => place l.bytesPerDataRef ret (equal_range s.dataRef d.1) ⟨d.2, []⟩) r =
      (dataEntries l.data).foldl (fun ret e => place l.bytesPerDataRef ret (equal_range s.dataRef e.1) e.2) r :=
    fun r => by rw [dataEntries, List.foldl_map]
  rw [hseparator, hsubFold, hdataFold]
  -- the parts
  have hsubWithin : ∀ r ∈ s.subRef, r.2 + l.bytesPerDataRef ≤ l.codeSize := by
    intro r hr
    rw [he.subRef] at hr
    refine places_within (fun n => le_rfl) (fun x n hx => ?_) hr
    rw [itemSize, (subKey_eq_some.mp hx).1]
  obtain ⟨ps₁, hcode₂, hps₁⟩ := foldl_place (subEntries subs) (hlength₁.symm ▸ hsubWithin)
    (show (⟨code₁ ++ separatorBytes l, s.ret.linkReferences⟩ : LinkerObject).bytecode = _ from rfl)
  simp only [hlength₁, separatorBytes, List.length_replicate, List.map_take, he.subRef, map_length_subEntries hsizes] at hps₁
  have hwithin₂ : Within ps₁ l.codeSize := by
    intro p hp
    obtain ⟨j, e, q, -, hq, rfl⟩ := (hps₁ p).mp hp
    rw [length_toBigEndianIn]
    exact hsubWithin _ (by rw [he.subRef]; exact hq)
  have hlength₂ : (storeAll code₁ ps₁).length = l.codeSize := by
    rw [length_storeAll (by rw [hlength₁]; exact hwithin₂), hlength₁]
  -- the data
  have hdataWithin : ∀ r ∈ s.dataRef, r.2 + l.bytesPerDataRef ≤ l.codeSize := by
    intro r hr
    rw [he.dataRef] at hr
    refine places_within (fun n => Nat.mod_le _ _) (fun x n hx => ?_) hr
    rw [itemSize, (dataKey_eq_some.mp hx).1]
  obtain ⟨ps₂, hcode₃, hps₂⟩ := foldl_place (dataEntries l.data) (hlength₂.symm ▸ hdataWithin) hcode₂
  have htail : (separatorBytes l ++ (subEntries subs).flatMap (placed s.subRef)).length = l.separator + l.subSizes.sum := by
    rw [List.length_append, separatorBytes, List.length_replicate, List.length_flatMap, he.subRef, map_length_subEntries hsizes]
  simp only [hlength₂, htail, List.map_take, he.dataRef, map_length_dataEntries] at hps₂
  have hwithin₃ : Within ps₂ l.codeSize := by
    intro p hp
    obtain ⟨j, e, q, -, hq, rfl⟩ := (hps₂ p).mp hp
    rw [length_toBigEndianIn]
    exact hdataWithin _ (by rw [he.dataRef]; exact hq)
  have hlength₃ : (storeAll (storeAll code₁ ps₁) ps₂).length = l.codeSize := by
    rw [length_storeAll (by rw [hlength₂]; exact hwithin₃), hlength₂]
  -- the size
  have hsizeWithin : Within (s.sizeRef.map fun q => (q, toBigEndianIn l.bytesPerDataRef l.size)) l.codeSize := by
    intro p hp
    obtain ⟨q, hq, rfl⟩ := List.mem_map.mp hp
    rw [he.sizeRef] at hq
    obtain ⟨r, hr, rfl⟩ := List.mem_map.mp hq
    rw [length_toBigEndianIn]
    refine places_within (fun n => Nat.mod_le _ _) (fun x n hx => ?_) hr
    rw [itemSize, sizeKey_eq_some.mp hx]
  have happended : separatorBytes l ++ (subEntries subs).flatMap (placed s.subRef) ++ (dataEntries l.data).flatMap (placed s.dataRef) =
      appended l subs := by
    rw [he.subRef, he.dataRef]
    rfl
  rw [happended] at hcode₃
  have hlength : (storeAll (storeAll code₁ ps₁) ps₂ ++ appended l subs).length = l.size := by
    rw [List.length_append, hlength₃, ← happended, List.length_append, htail, List.length_flatMap, he.dataRef, map_length_dataEntries,
      Layout.size]
    omega
  refine ⟨s, tagStores l.bytesPerTag s ++ ps₁ ++ ps₂ ++ s.sizeRef.map fun q => (q, toBigEndianIn l.bytesPerDataRef l.size), he,
    ⟨?_, ?_⟩, ?_⟩
  · intro p hp
    simp only [List.mem_append] at hp
    rcases hp with ((hp | hp) | hp) | hp
    · exact hwithin₁ p hp
    · exact hwithin₂ p hp
    · exact hwithin₃ p hp
    · exact hsizeWithin p hp
  · intro p
    rw [List.mem_append, List.mem_append, List.mem_append, hps₁, hps₂, List.mem_map, or_assoc, or_assoc]
    refine or_congr Iff.rfl (or_congr ?_ (or_congr ?_ ?_))
    · constructor
      · rintro ⟨j, e, q, hj, hq, rfl⟩
        obtain ⟨hj, he⟩ := getElem?_subEntries hj
        exact ⟨e.1, q, e.2, hq, hj, by rw [subOffset, he]⟩
      · rintro ⟨n, q, object, hq, hn, rfl⟩
        exact ⟨n, (n, object), q, by rw [subEntries, List.getElem?_map, List.getElem?_zipIdx, hn]; simp, hq, rfl⟩
    · constructor
      · rintro ⟨j, e, q, hj, hq, rfl⟩
        rw [dataEntries, List.getElem?_map] at hj
        obtain ⟨d, hd, rfl⟩ := Option.map_eq_some_iff.mp hj
        exact ⟨d.1, q, j, d, hq, hd, rfl, by rw [dataOffset]; congr 2; omega⟩
      · rintro ⟨k, q, j, d, hq, hd, rfl, rfl⟩
        exact ⟨j, (d.1, ⟨d.2, []⟩), q, by rw [dataEntries, List.getElem?_map, hd]; rfl, hq, by rw [dataOffset]; congr 2; omega⟩
    · constructor
      · rintro ⟨q, hq, rfl⟩
        rw [he.sizeRef] at hq
        obtain ⟨r, hr, rfl⟩ := List.mem_map.mp hq
        exact ⟨r.1, r.2, hr, rfl⟩
      · rintro ⟨u, q, hq, rfl⟩
        exact ⟨q, by rw [he.sizeRef]; exact List.mem_map.mpr ⟨_, hq, rfl⟩, rfl⟩
  · dsimp only
    rw [hcode₃, storeSize, hlength, storeAll_append_right (by rw [hlength₃]; exact hsizeWithin), hcode₁, hcode, storeAll_append,
      storeAll_append, storeAll_append]

/-! ## Sizes -/

/-- What is appended has the size that the layout says. -/
theorem length_appended {l : Layout} {subs : List LinkerObject} (hsizes : l.sizes = subs.map fun sub => sub.bytecode.length) :
    (appended l subs).length = l.separator + l.subSizes.sum + l.dataSizes.sum := by
  rw [appended, List.length_append, List.length_append, separatorBytes, List.length_replicate, List.length_flatMap, List.length_flatMap,
    map_length_subEntries hsizes, map_length_dataEntries]

/-- What is emitted has the size of the code. -/
theorem length_chunks (a : Assembly) (l : Layout) : (l.items.flatMap (chunk a l)).length = l.codeSize := by
  have h := length_flatMap_chunk a l l.items.length
  rw [List.take_length, position_length] at h
  exact h

/-- To assemble is to know the size, to assemble what is inside, and then the rest. -/
theorem assemble_eq_ok {a : Assembly} {ret : LinkerObject} : a.assemble = .ok ret ↔
    ∃ totalBytes subs, a.bytesRequired = .ok totalBytes ∧ assembleAll a.m_subs = .ok subs ∧ a.assembleWith totalBytes subs = .ok ret := by
  obtain ⟨usedTags, items, data, sorted, subs, strings, libraries⟩ := a
  rw [assemble]
  simp only [bind_eq_ok]
  constructor
  · rintro ⟨totalBytes, ht, subs', hs, h⟩
    exact ⟨totalBytes, subs', ht, hs, h⟩
  · rintro ⟨totalBytes, subs', ht, hs, h⟩
    exact ⟨totalBytes, ht, subs', hs, h⟩

/-- The sub-assemblies are assembled in order. -/
theorem assembleAll_cons_eq_ok {sub : Assembly} {subs : List Assembly} {objects : List LinkerObject} :
    assembleAll (sub :: subs) = .ok objects ↔
      ∃ object objects', sub.assemble = .ok object ∧ assembleAll subs = .ok objects' ∧ objects = object :: objects' := by
  rw [assembleAll]
  simp only [bind_eq_ok]
  constructor
  · rintro ⟨object, ho, objects', hos, h⟩
    cases h
    exact ⟨object, objects', ho, hos, rfl⟩
  · rintro ⟨object, objects', ho, hos, rfl⟩
    exact ⟨object, ho, objects', hos, rfl⟩

/-- What the parts are assembled to is what each of them is assembled to. -/
theorem getElem?_assembleAll {subs : List Assembly} {objects : List LinkerObject} (h : assembleAll subs = .ok objects) {i : Nat} :
    (∀ sub, subs[i]? = some sub → ∃ object, objects[i]? = some object ∧ sub.assemble = .ok object) ∧
      ∀ object, objects[i]? = some object → ∃ sub, subs[i]? = some sub ∧ sub.assemble = .ok object := by
  induction subs generalizing objects i with
  | nil =>
    cases h
    exact ⟨nofun, nofun⟩
  | cons sub subs ih =>
    obtain ⟨object, objects', ho, hos, rfl⟩ := assembleAll_cons_eq_ok.mp h
    cases i with
    | zero =>
      refine ⟨fun s hs => ?_, fun o ho' => ?_⟩
      · cases hs
        exact ⟨object, rfl, ho⟩
      · cases ho'
        exact ⟨sub, rfl, ho⟩
    | succ i => exact ih hos

/-- The bytes are as many as the layout says. -/
theorem length_of_assembleWith {a : Assembly} {totalBytes : Nat} {subs : List LinkerObject} {ret : LinkerObject}
    (hrequired : a.bytesRequired = .ok totalBytes) (h : a.assembleWith totalBytes subs = .ok ret) :
    ret.bytecode.length = (a.layoutWith (subs.map fun sub => sub.bytecode.length)).size := by
  obtain ⟨s, ps, -, hstores, hcode⟩ := assembleWith_eq_ok hrequired h rfl
  rw [hcode, List.length_append, length_storeAll (by rw [length_chunks]; exact hstores.within), length_chunks, length_appended rfl,
    Layout.size]
  omega

mutual

/-- The size of what an assembly is assembled to is the size of its layout. -/
theorem length_assemble : ∀ (a : Assembly) (ret : LinkerObject), a.assemble = .ok ret → ret.bytecode.length = a.size
  | ⟨usedTags, items, data, sorted, subs, strings, libraries⟩, ret, h => by
    obtain ⟨totalBytes, objects, hrequired, hobjects, h⟩ := assemble_eq_ok.mp h
    rw [length_of_assembleWith hrequired h, length_assembleAll subs objects hobjects, size]

/-- The objects have the sizes of their assemblies. -/
theorem length_assembleAll : ∀ (subs : List Assembly) (objects : List LinkerObject), assembleAll subs = .ok objects →
    (objects.map fun object => object.bytecode.length) = sizes subs
  | [], objects, h => by
    cases h
    rw [sizes]
    rfl
  | sub :: subs, objects, h => by
    obtain ⟨object, objects', ho, hos, rfl⟩ := assembleAll_cons_eq_ok.mp h
    rw [List.map_cons, sizes, length_assemble sub object ho, length_assembleAll subs objects' hos]

end

end Assembly

end Webthree
