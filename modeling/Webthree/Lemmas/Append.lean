import Webthree.Asm.Append

/-!
# What is appended

What `append` does to each part of an assembly, what an item of either assembly refers to in the result, and that what the members
make is well formed.
-/

namespace Webthree

namespace OpenAssembly

open AssemblyItem

variable {a other r : OpenAssembly} {i : AssemblyItem}

/-! ## The loops -/

/-- The items are appended, renamed. -/
theorem foldl_appendItem_items (s : OpenAssembly) (items : List AssemblyItem) :
    (items.foldl (fun s i => s.appendItem (a.renamed i)) s).m_items = s.m_items ++ items.map a.renamed := by
  induction items generalizing s with
  | nil => simp
  | cons i items ih =>
    rw [List.foldl_cons, ih, appendItem]
    simp

/-- The loop over the items does nothing to the rest. -/
theorem foldl_appendItem_frame (s : OpenAssembly) (items : List AssemblyItem) :
    let t := items.foldl (fun s i => s.appendItem (a.renamed i)) s
    t.m_usedTags = s.m_usedTags ∧ t.m_data = s.m_data ∧ t.m_subs = s.m_subs ∧ t.m_strings = s.m_strings ∧
      t.m_libraries = s.m_libraries := by
  induction items generalizing s with
  | nil => exact ⟨rfl, rfl, rfl, rfl, rfl⟩
  | cons i items ih => exact ih (s.appendItem (a.renamed i))

/-- The data are looked up in the first assembly, then in the second. -/
theorem foldl_insertData_find (s : OpenAssembly) (data : List (U256 × Bytes)) (k : U256) :
    Assoc.find (data.foldl insertData s).m_data k = (Assoc.find s.m_data k).or (Assoc.find data k) := by
  induction data generalizing s with
  | nil => simp [Assoc.find]
  | cons d data ih =>
    obtain ⟨k', v⟩ := d
    rw [List.foldl_cons, ih, insertData, Assoc.find_insertSorted s.m_data_sorted, Option.or_assoc, Assoc.find]
    by_cases h : k' = k
    · rw [if_pos h, if_pos h, Option.some_or]
    · rw [if_neg h, if_neg h, Option.none_or]

/-- The loop over the data does nothing to the rest. -/
theorem foldl_insertData_frame (s : OpenAssembly) (data : List (U256 × Bytes)) :
    let t := data.foldl insertData s
    t.m_items = s.m_items ∧ t.m_usedTags = s.m_usedTags ∧ t.m_subs = s.m_subs ∧ t.m_strings = s.m_strings ∧
      t.m_libraries = s.m_libraries := by
  induction data generalizing s with
  | nil => exact ⟨rfl, rfl, rfl, rfl, rfl⟩
  | cons d data ih => exact ih (s.insertData d)

/-! ## The result -/

/-- What is in the assembly after another one has been appended. -/
structure Result (a other r : OpenAssembly) : Prop where
  items : r.m_items = a.m_items ++ other.m_items.map a.renamed
  usedTags : r.m_usedTags = a.m_usedTags + other.m_usedTags
  subs : r.m_subs = a.m_subs ++ other.m_subs
  data : ∀ k, Assoc.find r.m_data k = (Assoc.find a.m_data k).or (Assoc.find other.m_data k)
  strings : ∀ k, r.m_strings.find k = (a.m_strings.find k).or (other.m_strings.find k)
  libraries : ∀ k, r.m_libraries.find k = (a.m_libraries.find k).or (other.m_libraries.find k)

/-- What `append` makes is a result. -/
theorem append_result (h : a.append other = some r) : Result a other r := by
  unfold append at h
  obtain ⟨-, h⟩ := Option.ite_none_right_eq_some.mp h
  replace h := Option.some.inj h
  subst h
  obtain ⟨htags, hdata, hsubs, hstrings, hlibraries⟩ := foldl_appendItem_frame (a := a) a other.m_items
  have hitems := foldl_appendItem_items (a := a) a other.m_items
  set s := other.m_items.foldl (fun s i => s.appendItem (a.renamed i)) a
  set t : OpenAssembly := { s with m_deposit := a.m_deposit + other.m_deposit, m_usedTags := s.m_usedTags + other.m_usedTags } with ht
  obtain ⟨hitems', htags', hsubs', hstrings', hlibraries'⟩ := foldl_insertData_frame t other.m_data
  refine ⟨?_, ?_, ?_, ?_, ?_, ?_⟩
  · exact hitems'.trans hitems
  · exact htags'.trans (congrArg (· + other.m_usedTags) htags)
  · exact congrArg (· ++ other.m_subs) (hsubs'.trans hsubs)
  · intro k
    refine (foldl_insertData_find t other.m_data k).trans ?_
    rw [ht, hdata]
  · intro k
    refine (congrArg (Assoc.find · k) (congrArg (fun l => other.m_strings.foldl Assoc.insert l) (hstrings'.trans hstrings))).trans ?_
    exact Assoc.find_foldl_insert _ _ k
  · intro k
    refine (congrArg (Assoc.find · k) (congrArg (fun l => other.m_libraries.foldl Assoc.insert l)
      (hlibraries'.trans hlibraries))).trans ?_
    exact Assoc.find_foldl_insert _ _ k

/-! ## Renaming -/

@[simp] theorem renamed_type (a : OpenAssembly) (i : AssemblyItem) : (a.renamed i).type = i.type := by
  unfold renamed
  split
  · rfl
  · split
    · rfl
    · rfl

/-- A tag is renamed by the number of tags there were. -/
theorem renamed_data_tag (a : OpenAssembly) (h : i.type = .Tag ∨ i.type = .PushTag) :
    (a.renamed i).data = i.data + BitVec.ofNat 256 a.m_usedTags.toNat := by
  unfold renamed
  rw [dif_pos h]
  rfl

/-- A sub-assembly is renamed by the number of those there were. -/
theorem renamed_data_sub (a : OpenAssembly) (h : i.type = .PushSub ∨ i.type = .PushSubSize) :
    (a.renamed i).data = i.data + BitVec.ofNat 256 a.m_subs.length := by
  have hn : ¬ (i.type = .Tag ∨ i.type = .PushTag) := by
    rcases h with h | h <;> simp [h]
  unfold renamed
  rw [dif_neg hn, dif_pos h]
  rfl

/-- Other items are not renamed. -/
theorem renamed_eq_self (a : OpenAssembly) (h : ¬ (i.type = .Tag ∨ i.type = .PushTag))
    (h' : ¬ (i.type = .PushSub ∨ i.type = .PushSubSize)) : a.renamed i = i := by
  unfold renamed
  rw [dif_neg h, dif_neg h']

/-- The data of a renamed tag as a number, for a tag that some assembly gave out. -/
theorem toNat_renamed_tag (a : OpenAssembly) (h : i.type = .Tag ∨ i.type = .PushTag) (hlt : i.data.toNat < 2 ^ 32) :
    (a.renamed i).data.toNat = i.data.toNat + a.m_usedTags.toNat := by
  have := a.m_usedTags.toNat_lt
  rw [renamed_data_tag a h, BitVec.toNat_add, BitVec.toNat_ofNat]
  omega

/-! ## What items refer to in the result -/

namespace Result

/-- What is kept in the result is kept in the first or in the second. -/
theorem kept (h : Result a other r) (i : AssemblyItem) : r.kept i = (a.kept i).or (other.kept i) := by
  unfold Assembly.kept
  split
  · rw [h.data, Option.map_or]
  · rw [h.strings, Option.map_or]
  · rw [h.libraries, Option.map_or]
  · rfl

/-- Where a tag is defined in the result. -/
theorem places (h : Result a other r) (t : U256) :
    r.places t = a.places t ++
      (other.m_items.findIdxs fun i => i.type = .Tag ∧ (a.renamed i).data = t).map (· + a.m_items.length) := by
  unfold Assembly.places
  rw [h.items, List.findIdxs_append, List.findIdxs_map, ← List.findIdxs_start, Nat.zero_add]
  simp [Function.comp_def]

/-- A tag of the first assembly is defined where it was. -/
theorem places_own (h : Result a other r) (hother : other.WellFormed) {t : U256} (ht : t.toNat < a.m_usedTags.toNat) :
    r.places t = a.places t := by
  have hnone : (other.m_items.findIdxs fun i => i.type = .Tag ∧ (a.renamed i).data = t) = [] := by
    refine List.findIdxs_eq_nil_iff.mpr fun i hi => decide_eq_false ?_
    rintro ⟨htag, rfl⟩
    have hlt := ((hother.items i hi).tag htag).2
    rw [toNat_renamed_tag a (Or.inl htag) (hlt.trans other.m_usedTags.toNat_lt)] at ht
    omega
  rw [h.places, hnone, List.map_nil, List.append_nil]

/-- A tag of the other one is defined where its copy is. -/
theorem places_copy (h : Result a other r) (ha : a.WellFormed) {d : U256} (hd : d.toNat < 2 ^ 32) :
    r.places (d + BitVec.ofNat 256 a.m_usedTags.toNat) = (other.places d).map (· + a.m_items.length) := by
  have hnone : a.places (d + BitVec.ofNat 256 a.m_usedTags.toNat) = [] := by
    refine List.findIdxs_eq_nil_iff.mpr fun i hi => decide_eq_false ?_
    rintro ⟨htag, hdata⟩
    have hlt := ((ha.items i hi).tag htag).2
    have := a.m_usedTags.toNat_lt
    rw [hdata, BitVec.toNat_add, BitVec.toNat_ofNat] at hlt
    omega
  have hsame : (fun i : AssemblyItem => decide (i.type = .Tag ∧ (a.renamed i).data = d + BitVec.ofNat 256 a.m_usedTags.toNat)) =
      fun i => decide (i.type = .Tag ∧ i.data = d) := by
    funext i
    refine decide_eq_decide.mpr (and_congr_right fun htag => ?_)
    rw [renamed_data_tag a (Or.inl htag)]
    exact BitVec.add_left_inj _
  rw [h.places, hnone, List.nil_append, hsame, Assembly.places]

/-- The part with a number of the first assembly. -/
theorem sub_own (h : Result a other r) {k : Nat} (hk : k < a.m_subs.length) : r.m_subs[k]? = a.m_subs[k]? := by
  rw [h.subs, List.getElem?_append_left hk]

/-- The sub-assemblies of the second are behind those of the first. -/
theorem sub_copy (h : Result a other r) (k : Nat) : r.m_subs[k + a.m_subs.length]? = other.m_subs[k]? := by
  rw [h.subs, List.getElem?_append_right (Nat.le_add_left _ _), Nat.add_sub_cancel]

end Result

/-- What is kept under a hash does not move. -/
theorem moved_of_kept {a : Assembly} {x : Referent} (h : a.kept i = some x) (n : Nat) : x.moved n = x := by
  unfold Assembly.kept at h
  split at h
  · obtain ⟨d, -, rfl⟩ := Option.map_eq_some_iff.mp h
    rfl
  · obtain ⟨d, -, rfl⟩ := Option.map_eq_some_iff.mp h
    rfl
  · obtain ⟨d, -, rfl⟩ := Option.map_eq_some_iff.mp h
    rfl
  · cases h

/-- What is kept does not move. -/
theorem map_moved_kept (a : Assembly) (i : AssemblyItem) (n : Nat) :
    (a.kept i).toList.map (Referent.moved n) = (a.kept i).toList := by
  cases h : a.kept i with
  | none => rfl
  | some x => exact congrArg (fun y => [y]) (moved_of_kept h n)

theorem size_t_of_lt {n : Nat} (h : n < 2 ^ 64) : size_t n = n := Nat.mod_eq_of_lt h

/-- What an item that is neither a tag nor a part refers to. -/
theorem referents_eq_kept (a : Assembly) (htag : i.type ≠ .PushTag) (hsub : ¬ (i.type = .PushSub ∨ i.type = .PushSubSize)) :
    a.referents i = (a.kept i).toList := by
  unfold Assembly.referents
  split
  · contradiction
  · rename_i h
    exact absurd (Or.inl h) hsub
  · rename_i h
    exact absurd (Or.inr h) hsub
  · rfl

/-- An item for a sub-assembly refers to it. -/
theorem referents_eq_sub (a : Assembly) (h : i.type = .PushSub ∨ i.type = .PushSubSize) :
    a.referents i = (a.m_subs[size_t i.data.toNat]?).toList.map .sub := by
  unfold Assembly.referents
  rcases h with h | h
  · rw [h]
  · rw [h]

/-- A pushed tag refers to the places of the tag. -/
theorem referents_eq_places (a : Assembly) (h : i.type = .PushTag) (h0 : i.data ≠ 0) :
    a.referents i = (a.places i.data).map .place := by
  unfold Assembly.referents
  rw [h]
  exact if_neg h0

/-- The tag zero is that of errors. -/
theorem eq_errorTag (h : i.type = .PushTag) (h0 : i.data = 0) : i = .errorTag := AssemblyItem.eq_of h h0

/-- An item without a hash has nothing kept. -/
theorem kept_eq_none (a : Assembly) (h : ¬ (i.type = .PushData ∨ i.type = .PushString ∨ i.type = .PushLibraryAddress)) :
    a.kept i = none := by
  unfold Assembly.kept
  split
  · rename_i ht
    exact absurd (Or.inl ht) h
  · rename_i ht
    exact absurd (Or.inr (Or.inl ht)) h
  · rename_i ht
    exact absurd (Or.inr (Or.inr ht)) h
  · rfl

/-- An item under whose hash something is kept is copied as it is. -/
theorem kept_plain (a : OpenAssembly) {b : Assembly} {x : Referent} (h : b.kept i = some x) :
    i.type ≠ .PushTag ∧ ¬ (i.type = .PushSub ∨ i.type = .PushSubSize) ∧ a.renamed i = i := by
  have hk : i.type = .PushData ∨ i.type = .PushString ∨ i.type = .PushLibraryAddress := by
    by_contra hn
    rw [kept_eq_none b hn] at h
    cases h
  have hplain : ∀ t : AssemblyItemType, t ≠ .PushData → t ≠ .PushString → t ≠ .PushLibraryAddress → i.type ≠ t := by
    rintro t hd hs hl rfl
    rcases hk with hk | hk | hk
    · exact hd hk
    · exact hs hk
    · exact hl hk
  have hpush := hplain .PushTag nofun nofun nofun
  have hsub : ¬ (i.type = .PushSub ∨ i.type = .PushSubSize) :=
    not_or.mpr ⟨hplain .PushSub nofun nofun nofun, hplain .PushSubSize nofun nofun nofun⟩
  exact ⟨hpush, hsub, renamed_eq_self a (not_or.mpr ⟨hplain .Tag nofun nofun nofun, hpush⟩) hsub⟩

namespace Result

/-- Nothing changes for an item of the first assembly. -/
theorem referents_own (h : Result a other r) (ha : a.WellFormed) (hother : other.WellFormed) (hi : a.Knows i) :
    r.referents i = a.referents i := by
  by_cases htag : i.type = .PushTag
  · by_cases h0 : i.data = 0
    · rw [eq_errorTag htag h0]
      rfl
    · have hlt := ((hi.pushTag htag).resolve_left h0).2
      rw [referents_eq_places _ htag h0, referents_eq_places _ htag h0, h.places_own hother hlt]
  · by_cases hsub : i.type = .PushSub ∨ i.type = .PushSubSize
    · have hlt := hi.sub hsub
      have hsize := ha.subs
      rw [referents_eq_sub _ hsub, referents_eq_sub _ hsub, size_t_of_lt (by omega), h.sub_own hlt]
    · rw [referents_eq_kept _ htag hsub, referents_eq_kept _ htag hsub, h.kept]
      by_cases hk : i.type = .PushData ∨ i.type = .PushString ∨ i.type = .PushLibraryAddress
      · obtain ⟨x, hx⟩ := Option.isSome_iff_exists.mp (hi.kept hk)
        rw [hx, Option.some_or]
      · rw [kept_eq_none _ hk, kept_eq_none _ hk, Option.none_or]

/-- What a renamed item refers to, where it is not the error tag and its hash is not that of something else. -/
theorem referents_copy (h : Result a other r) (ha : a.WellFormed) (hother : other.WellFormed) (hi : other.Knows i)
    (herror : i ≠ .errorTag) (hkept : ∀ x, a.kept i = some x → other.kept i = some x) :
    r.referents (a.renamed i) = (other.referents i).map (Referent.moved a.m_items.length) := by
  by_cases htag : i.type = .PushTag
  · have h0 : i.data ≠ 0 := fun h0 => herror (eq_errorTag htag h0)
    have hlt := ((hi.pushTag htag).resolve_left h0).2.trans other.m_usedTags.toNat_lt
    have hdata := renamed_data_tag a (Or.inr htag)
    have h0' : (a.renamed i).data ≠ 0 := by
      intro hz
      have hnat := toNat_renamed_tag a (Or.inr htag) hlt
      have hpos := ha.usedTags
      have hzero : (0 : U256).toNat = 0 := rfl
      rw [hz, hzero] at hnat
      omega
    rw [referents_eq_places _ ((renamed_type a i).trans htag) h0', referents_eq_places _ htag h0, hdata, h.places_copy ha hlt,
      List.map_map, List.map_map]
    rfl
  · by_cases hsub : i.type = .PushSub ∨ i.type = .PushSubSize
    · have hlt := hi.sub hsub
      have hsize := ha.subs
      have hsize' := hother.subs
      have hnat : (a.renamed i).data.toNat = i.data.toNat + a.m_subs.length := by
        rw [renamed_data_sub a hsub, BitVec.toNat_add, BitVec.toNat_ofNat]
        omega
      have hsub' : (a.renamed i).type = .PushSub ∨ (a.renamed i).type = .PushSubSize := by
        rw [renamed_type]
        exact hsub
      rw [referents_eq_sub _ hsub', referents_eq_sub _ hsub, hnat, size_t_of_lt (by omega), size_t_of_lt (by omega), h.sub_copy,
        List.map_map]
      rfl
    · have hkeep : ∀ x : Assembly, x.referents (a.renamed i) = (x.kept i).toList := by
        intro x
        by_cases hdef : i.type = .Tag
        · have hn : ¬ ((a.renamed i).type = .PushSub ∨ (a.renamed i).type = .PushSubSize) := by simp [hdef]
          have hn' : ¬ ((a.renamed i).type = .PushData ∨ (a.renamed i).type = .PushString ∨
              (a.renamed i).type = .PushLibraryAddress) := by simp [hdef]
          rw [referents_eq_kept _ (by simp [hdef]) hn, kept_eq_none _ hn', kept_eq_none _ (by simp [hdef])]
        · rw [renamed_eq_self a (by simp [htag, hdef]) hsub, referents_eq_kept _ htag hsub]
      rw [hkeep, referents_eq_kept _ htag hsub, map_moved_kept, h.kept]
      cases hx : a.kept i with
      | none => rw [Option.none_or]
      | some x => rw [Option.some_or, hkept x hx]

/-- The number of a tag that was renamed is none that the first assembly gave out. -/
theorem not_hasTag (hi : other.Knows i) (htag : i.type = .Tag ∨ i.type = .PushTag) : ¬ a.HasTag (a.renamed i).data := by
  have hlt : i.data.toNat < 2 ^ 32 := by
    have hused := other.m_usedTags.toNat_lt
    rcases htag with htag | htag
    · exact (hi.tag htag).2.trans hused
    · rcases hi.pushTag htag with h0 | h0
      · simp [h0]
      · exact h0.2.trans hused
  rintro ⟨-, hhas⟩
  rw [toNat_renamed_tag a htag hlt] at hhas
  omega

/-- The error tag becomes the first number that the first assembly did not give out. -/
theorem renamed_errorTag_ne (ha : a.WellFormed) : a.renamed .errorTag ≠ .errorTag := by
  intro h
  have hnat := toNat_renamed_tag a (i := .errorTag) (Or.inr rfl) (by decide)
  have hpos := ha.usedTags
  rw [h] at hnat
  simp only [Nat.left_eq_add] at hnat
  omega

/-- Own items stay where they are. -/
theorem getElem?_own (h : Result a other r) {k : Nat} (hk : a.m_items[k]? = some i) : r.m_items[k]? = some i := by
  rw [h.items, List.getElem?_append_left (List.getElem?_eq_some_iff.mp hk).1, hk]

/-- Copied items follow. -/
theorem getElem?_copy (h : Result a other r) {k : Nat} (hk : other.m_items[k]? = some i) :
    r.m_items[a.m_items.length + k]? = some (a.renamed i) := by
  rw [h.items, List.getElem?_append_right (Nat.le_add_right _ _), Nat.add_sub_cancel_left, List.getElem?_map, hk]
  rfl

end Result

/-! ## Assemblies that the members make are well formed -/

/-- `b` gave out as much as `a` and keeps as much. -/
structure Extends (a b : Assembly) : Prop where
  tags : a.m_usedTags.toNat ≤ b.m_usedTags.toNat
  subs : a.m_subs.length ≤ b.m_subs.length
  data : ∀ k, (Assoc.find a.m_data k).isSome → (Assoc.find b.m_data k).isSome
  strings : ∀ k, (a.m_strings.find k).isSome → (b.m_strings.find k).isSome
  libraries : ∀ k, (a.m_libraries.find k).isSome → (b.m_libraries.find k).isSome

namespace Extends

variable {a b : Assembly}

/-- What is kept in an assembly is kept when it grows. -/
theorem kept (h : Extends a b) (hk : (a.kept i).isSome) : (b.kept i).isSome := by
  unfold Assembly.kept at hk ⊢
  split at hk
  · rw [Option.isSome_map] at hk ⊢
    exact h.data _ hk
  · rw [Option.isSome_map] at hk ⊢
    exact h.strings _ hk
  · rw [Option.isSome_map] at hk ⊢
    exact h.libraries _ hk
  · cases hk

/-- What `a` knows `b` knows. -/
theorem knows (h : Extends a b) (hi : a.Knows i) : b.Knows i where
  tag ht := ⟨(hi.tag ht).1, (hi.tag ht).2.trans_le h.tags⟩
  pushTag ht := (hi.pushTag ht).imp_right fun hhas => ⟨hhas.1, hhas.2.trans_le h.tags⟩
  sub hs := (hi.sub hs).trans_le h.subs
  kept hk := h.kept (hi.kept hk)

/-- With the items of `a`, `b` is as well formed. -/
theorem wellFormed (h : Extends a b) (ha : a.WellFormed) (hitems : b.m_items = a.m_items) (hsubs : b.m_subs.length < 2 ^ 63) :
    b.WellFormed where
  usedTags := ha.usedTags.trans_le h.tags
  subs := hsubs
  items i hi := h.knows (ha.items i (hitems ▸ hi))

end Extends

/-- An empty assembly is well formed. -/
theorem wellFormed_empty : (empty : OpenAssembly).WellFormed where
  usedTags := by decide
  subs := by decide
  items := by simp [empty]

/-- To append an item that is known keeps an assembly well formed. -/
theorem wellFormed_appendItem (h : a.WellFormed) (hi : a.Knows i) : (a.appendItem i).WellFormed where
  usedTags := h.usedTags
  subs := h.subs
  items j hj := by
    have hext : Extends a.toAssembly (a.appendItem i).toAssembly := ⟨le_rfl, le_rfl, fun _ => id, fun _ => id, fun _ => id⟩
    rcases List.mem_append.mp hj with hj | hj
    · exact hext.knows (h.items j hj)
    · rw [List.mem_singleton.mp hj]
      exact hext.knows hi

/-- A number more is given out. -/
theorem wellFormed_newTag (h : a.WellFormed) (hroom : a.m_usedTags.toNat + 1 < 2 ^ 32) : a.newTag.2.WellFormed := by
  have hnext : a.newTag.2.m_usedTags.toNat = a.m_usedTags.toNat + 1 :=
    (UInt32.toNat_add _ _).trans (Nat.mod_eq_of_lt hroom)
  have hext : Extends a.toAssembly a.newTag.2.toAssembly :=
    ⟨by omega, le_rfl, fun _ => id, fun _ => id, fun _ => id⟩
  exact hext.wellFormed h rfl h.subs

/-- What is found is found after something else is set. -/
theorem isSome_find_set {β : Type} (l : Assoc U256 β) (k : U256) (v : β) (k' : U256) (h : (l.find k').isSome) :
    ((l.set k v).find k').isSome := by
  rw [Assoc.find_set]
  split
  · rfl
  · exact h

/-- New data keep it so. -/
theorem wellFormed_newData (sha3 : Bytes → U256) (data : Bytes) (h : a.WellFormed) : (a.newData sha3 data).2.WellFormed := by
  have hdata : ∀ k, (Assoc.find a.m_data k).isSome → (Assoc.find (a.newData sha3 data).2.m_data k).isSome := by
    intro k hk
    have hfilter := Assoc.find_remove a.m_data (sha3 data) k
    rw [Assoc.remove] at hfilter
    rw [newData, Assoc.find_insertSorted (a.m_data_sorted.filter _), hfilter]
    by_cases he : k = sha3 data
    · simp [he]
    · rw [if_neg he, Option.isSome_or, hk, Bool.true_or]
  have hext : Extends a.toAssembly (a.newData sha3 data).2.toAssembly := ⟨le_rfl, le_rfl, hdata, fun _ => id, fun _ => id⟩
  exact hext.wellFormed h rfl h.subs

/-- A pushed string keeps it so. -/
theorem wellFormed_newPushString (sha3 : Bytes → U256) (data : Bytes) (h : a.WellFormed) :
    (a.newPushString sha3 data).2.WellFormed := by
  have hext : Extends a.toAssembly (a.newPushString sha3 data).2.toAssembly :=
    ⟨le_rfl, le_rfl, fun _ => id, isSome_find_set _ _ _, fun _ => id⟩
  exact hext.wellFormed h rfl h.subs

/-- A pushed address of a library keeps it so. -/
theorem wellFormed_newPushLibraryAddress (sha3 : Bytes → U256) (identifier : String) (h : a.WellFormed) :
    (a.newPushLibraryAddress sha3 identifier).2.WellFormed := by
  have hext : Extends a.toAssembly (a.newPushLibraryAddress sha3 identifier).2.toAssembly :=
    ⟨le_rfl, le_rfl, fun _ => id, fun _ => id, isSome_find_set _ _ _⟩
  exact hext.wellFormed h rfl h.subs

/-- A new sub-assembly keeps it so. -/
theorem wellFormed_newSub (sub : Assembly) (h : a.WellFormed) (hroom : a.m_subs.length + 1 < 2 ^ 63) :
    (a.newSub sub).2.WellFormed := by
  have hlen : (a.newSub sub).2.m_subs.length = a.m_subs.length + 1 := List.length_append
  have hext : Extends a.toAssembly (a.newSub sub).2.toAssembly :=
    ⟨le_rfl, by omega, fun _ => id, fun _ => id, fun _ => id⟩
  exact hext.wellFormed h rfl (by omega)

/-- An appended assembly keeps it so. -/
theorem wellFormed_append (ha : a.WellFormed) (hother : other.WellFormed)
    (htags : a.m_usedTags.toNat + other.m_usedTags.toNat < 2 ^ 32) (hsubs : a.m_subs.length + other.m_subs.length < 2 ^ 63)
    (hr : a.append other = some r) : r.WellFormed := by
  have h := append_result hr
  have hused : r.m_usedTags.toNat = a.m_usedTags.toNat + other.m_usedTags.toNat := by
    rw [h.usedTags, UInt32.toNat_add, Nat.mod_eq_of_lt htags]
  have hlen : r.m_subs.length = a.m_subs.length + other.m_subs.length := by
    rw [h.subs, List.length_append]
  have hpos := ha.usedTags
  have hext : Extends a.toAssembly r.toAssembly := by
    refine ⟨by omega, by omega, fun k hk => ?_, fun k hk => ?_, fun k hk => ?_⟩
    · rw [h.data, Option.isSome_or, hk, Bool.true_or]
    · rw [h.strings, Option.isSome_or, hk, Bool.true_or]
    · rw [h.libraries, Option.isSome_or, hk, Bool.true_or]
  refine ⟨by omega, by omega, ?_⟩
  intro i hi
  rw [h.items] at hi
  rcases List.mem_append.mp hi with hi | hi
  · exact hext.knows (ha.items i hi)
  · obtain ⟨j, hj, rfl⟩ := List.mem_map.mp hi
    have hknows := hother.items j hj
    have hpos' := hother.usedTags
    refine ⟨?_, ?_, ?_, ?_⟩
    · rw [renamed_type]
      intro ht
      have hlt := (hknows.tag ht).2
      have hnat := toNat_renamed_tag a (Or.inl ht) (hlt.trans other.m_usedTags.toNat_lt)
      exact ⟨by omega, by omega⟩
    · rw [renamed_type]
      intro ht
      have hlt : j.data.toNat < other.m_usedTags.toNat := by
        rcases hknows.pushTag ht with h0 | h0
        · rw [h0]
          exact hpos'
        · exact h0.2
      have hnat := toNat_renamed_tag a (Or.inr ht) (hlt.trans other.m_usedTags.toNat_lt)
      exact Or.inr ⟨by omega, by omega⟩
    · rw [renamed_type]
      intro ht
      have hlt := hknows.sub ht
      rw [renamed_data_sub a ht, BitVec.toNat_add, BitVec.toNat_ofNat]
      omega
    · rw [renamed_type]
      intro ht
      obtain ⟨x, hx⟩ := Option.isSome_iff_exists.mp (hknows.kept ht)
      rw [(kept_plain a hx).2.2, h.kept, hx, Option.isSome_or, Option.isSome_some, Bool.or_true]

/-- Every member keeps an assembly well formed. -/
theorem Built.wellFormed {sha3 : Bytes → U256} (h : Built sha3 a) : a.WellFormed := by
  induction h with
  | empty => exact wellFormed_empty
  | deposits d b t _ ih => exact ⟨ih.usedTags, ih.subs, ih.items⟩
  | appendItem _ hi ih => exact wellFormed_appendItem ih hi
  | newTag _ hroom ih => exact wellFormed_newTag ih hroom
  | newPushTag _ hroom ih => exact wellFormed_newTag ih hroom
  | newData data _ ih => exact wellFormed_newData sha3 data ih
  | newSub _ _ hroom ih _ => exact wellFormed_newSub _ ih hroom
  | newPushString data _ ih => exact wellFormed_newPushString sha3 data ih
  | newPushLibraryAddress identifier _ ih => exact wellFormed_newPushLibraryAddress sha3 identifier ih
  | append _ _ htags hsubs hr ih iho => exact wellFormed_append ih iho htags hsubs hr

theorem knows_ofInstruction (a : Assembly) (j : Instruction) : a.Knows (.ofInstruction j) := ⟨nofun, nofun, nofun, nofun⟩

/-- Items that the assembly knows, one after the other. -/
theorem Built.foldl_appendItem {sha3 : Bytes → U256} {items : List AssemblyItem} (h : Built sha3 a)
    (hitems : ∀ i ∈ items, ∀ b : Assembly, b.Knows i) : Built sha3 (items.foldl OpenAssembly.appendItem a) := by
  induction items generalizing a with
  | nil => exact h
  | cons i items ih =>
    refine ih (h.appendItem (hitems i List.mem_cons_self a.toAssembly)) ?_
    intro j hj
    exact hitems j (List.mem_cons_of_mem _ hj)

/-- The member that pops what is left is one that makes assemblies, too. -/
theorem Built.appendTo {sha3 : Bytes → U256} {deposit : Int} (h : Built sha3 a) (ho : Built sha3 other)
    (htags : a.m_usedTags.toNat + other.m_usedTags.toNat < 2 ^ 32) (hsubs : a.m_subs.length + other.m_subs.length < 2 ^ 63)
    (hr : a.appendTo other deposit = some r) : Built sha3 r := by
  obtain ⟨-, hr⟩ := Option.ite_none_left_eq_some.mp hr
  obtain ⟨s, hs, rfl⟩ := Option.map_eq_some_iff.mp hr
  refine (h.append ho htags hsubs hs).foldl_appendItem ?_
  intro i hi b
  rw [List.eq_of_mem_replicate hi]
  exact knows_ofInstruction b .POP

end OpenAssembly

end Webthree
