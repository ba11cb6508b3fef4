import Webthree.Lemmas.Assembly

/-!
# Every reference is resolved

An assembly that is assembled has each of its references resolved exactly if the layout fits into the widths that were chosen before
it was known.
-/

namespace Webthree

namespace Assembly

open Layout

/-! ## What is written for an item -/

/-- The bytes are those that an item is to have for its operand. -/
def Written (l : Layout) (tagPos : List Nat) (x : AssemblyItem) (b : Bytes) : Prop :=
  (x.type = .PushTag ∧ b = toBigEndianIn l.bytesPerTag ((tagPosition tagPos (tagNumber x)).toOption.getD 0)) ∨
  (x.type = .PushSub ∧ b = toBigEndianIn l.bytesPerDataRef (l.subOffset (size_t x.data.toNat))) ∨
  (x.type = .PushData ∧ ∃ j d, l.data[j]? = some d ∧ d.1 = x.data ∧ b = toBigEndianIn l.bytesPerDataRef (l.dataOffset j)) ∨
  (x.type = .PushProgramSize ∧ b = toBigEndianIn l.bytesPerDataRef l.size)

/-- Data is found under its key only once. -/
theorem index_unique {data : List (U256 × Bytes)} (h : data.Pairwise fun d d' => d.1 < d'.1) {i j : Nat} {d d' : U256 × Bytes}
    (hi : data[i]? = some d) (hj : data[j]? = some d') (he : d.1 = d'.1) : i = j := by
  obtain ⟨hilt, rfl⟩ := List.getElem?_eq_some_iff.mp hi
  obtain ⟨hjlt, rfl⟩ := List.getElem?_eq_some_iff.mp hj
  rcases lt_trichotomy i j with hij | hij | hij
  · exact absurd he (BitVec.ne_of_lt (List.pairwise_iff_getElem.mp h i j hilt hjlt hij))
  · exact hij
  · exact absurd he.symm (BitVec.ne_of_lt (List.pairwise_iff_getElem.mp h j i hjlt hilt hij))

theorem written_unique {l : Layout} (hdata : l.data.Pairwise fun d d' => d.1 < d'.1) {tagPos : List Nat} {x : AssemblyItem}
    {b b' : Bytes} (h : Written l tagPos x b) (h' : Written l tagPos x b') : b = b' := by
  rcases h with ⟨hx, rfl⟩ | ⟨hx, rfl⟩ | ⟨hx, j, d, hj, hd, rfl⟩ | ⟨hx, rfl⟩ <;>
    rcases h' with ⟨hx', rfl⟩ | ⟨hx', rfl⟩ | ⟨hx', j', d', hj', hd', rfl⟩ | ⟨hx', rfl⟩ <;>
    first
      | rfl
      | cases hx.symm.trans hx'; done
      | rw [index_unique hdata hj hj' (hd.trans hd'.symm)]

/-- An item for which something is written is a push with a hole of that length. -/
theorem Written.hole {a : Assembly} {l : Layout} {tagPos : List Nat} {x : AssemblyItem} {b : Bytes} (h : Written l tagPos x b) :
    chunk a l x = hole b.length ∧ l.itemSize x = 1 + b.length := by
  rcases h with ⟨hx, rfl⟩ | ⟨hx, rfl⟩ | ⟨hx, -, -, -, -, rfl⟩ | ⟨hx, rfl⟩ <;>
    rw [length_toBigEndianIn, chunk, itemSize, hx] <;> exact ⟨rfl, rfl⟩

section Code

variable {a : Assembly} {l : Layout} {s : Locals} {subs : List LinkerObject} {ps : List (Nat × Bytes)}

/-- Below `2 ^ 32`, what is written is written for an item, behind its instruction. -/
theorem written_of_mem (hemitted : Emitted a l l.items.length s) (hstores : Stores l s subs ps) (hcode : l.codeSize < 2 ^ 32)
    {p : Nat × Bytes} (hp : p ∈ ps) :
    ∃ j x, l.items[j]? = some x ∧ p.1 = l.position j + 1 ∧ Written l s.tagPos x p.2 := by
  have hkeep : ∀ {j x}, l.items[j]? = some x → x.type ≠ .UndefinedItem → unsigned (l.position j + 1) = l.position j + 1 :=
    fun hx hne => (unsigned_position hcode hx hne).2
  rcases (hstores.mem p).mp hp with hp | ⟨n, q, object, hm, -, rfl⟩ | ⟨k, q, i, d, hm, hi, hd, rfl⟩ | ⟨u, q, hm, rfl⟩
  · obtain ⟨q, n, hm, rfl⟩ := mem_tagStores.mp hp
    obtain ⟨j, x, -, hx, hxt, rfl, rfl⟩ := hemitted.tagRef q n hm
    exact ⟨j, x, hx, hkeep hx (by rw [hxt]; nofun), Or.inl ⟨hxt, rfl⟩⟩
  · obtain ⟨j, x, -, hx, hkey, rfl⟩ := mem_places.mp hm
    obtain ⟨hxt, rfl⟩ := subKey_eq_some.mp hkey
    exact ⟨j, x, hx, rfl, Or.inr (Or.inl ⟨hxt, rfl⟩)⟩
  · obtain ⟨j, x, -, hx, hkey, rfl⟩ := mem_places.mp hm
    obtain ⟨hxt, rfl⟩ := dataKey_eq_some.mp hkey
    exact ⟨j, x, hx, hkeep hx (by rw [hxt]; nofun), Or.inr (Or.inr (Or.inl ⟨hxt, i, d, hi, hd, rfl⟩))⟩
  · obtain ⟨j, x, -, hx, hkey, rfl⟩ := mem_places.mp hm
    have hxt := sizeKey_eq_some.mp hkey
    exact ⟨j, x, hx, hkeep hx (by rw [hxt]; nofun), Or.inr (Or.inr (Or.inr ⟨hxt, rfl⟩))⟩

/-- Nothing else is written where an item is than what is written for it. -/
theorem written_apart (hemitted : Emitted a l l.items.length s) (hstores : Stores l s subs ps) (hcode : l.codeSize < 2 ^ 32) {k : Nat}
    {x : AssemblyItem} (hk : l.items[k]? = some x) {p : Nat × Bytes} (hp : p ∈ ps) :
    (p.1 = l.position k + 1 ∧ Written l s.tagPos x p.2) ∨ l.position k + l.itemSize x ≤ p.1 ∨ p.1 + p.2.length ≤ l.position k := by
  obtain ⟨j, y, hj, hpj, hw⟩ := written_of_mem hemitted hstores hcode hp
  have hsize := (hw.hole (a := a)).2
  rcases lt_trichotomy j k with hjk | rfl | hjk
  · have hend := position_end hj hjk
    exact Or.inr (Or.inr (by omega))
  · rw [hk] at hj
    cases hj
    exact Or.inl ⟨hpj, hw⟩
  · have hend := position_end hk hjk
    exact Or.inr (Or.inl (by omega))

/-- The chunk of an item before anything is written. -/
theorem slice_chunk {k : Nat} {x : AssemblyItem} (hk : l.items[k]? = some x) :
    slice (l.items.flatMap (chunk a l)) (l.position k) (l.itemSize x) = chunk a l x := by
  have h := slice_flatMap (f := chunk a l) hk
  rw [length_flatMap_chunk, length_chunk] at h
  exact h

/-- What is appended is found behind the code of the items. -/
theorem slice_appended (hstores : Stores l s subs ps) {code : Bytes}
    (hret : code = storeAll (l.items.flatMap (chunk a l)) ps ++ appended l subs) (q n : Nat) :
    slice code (l.codeSize + q) n = slice (appended l subs) q n := by
  have hlength := length_storeAll (show Within ps (l.items.flatMap (chunk a l)).length by rw [length_chunks]; exact hstores.within)
  rw [length_chunks] at hlength
  rw [hret, ← hlength, slice_append_right]

variable (hemitted : Emitted a l l.items.length s) (hstores : Stores l s subs ps) (hcode : l.codeSize < 2 ^ 32)
  {code : Bytes} (hret : code = storeAll (l.items.flatMap (chunk a l)) ps ++ appended l subs)

include hemitted hstores hcode hret

/-- The first byte of an item stays. -/
theorem getElem?_position {k : Nat} {x : AssemblyItem} (hk : l.items[k]? = some x) {c : UInt8} {cs : Bytes}
    (hchunk : chunk a l x = c :: cs) : code[l.position k]? = some c := by
  have hsize : l.itemSize x = cs.length + 1 := by rw [← length_chunk a, hchunk, List.length_cons]
  have hend := position_end_le hk
  have hlength := length_storeAll (show Within ps (l.items.flatMap (chunk a l)).length by rw [length_chunks]; exact hstores.within)
  rw [length_chunks] at hlength
  have hstay : slice (storeAll (l.items.flatMap (chunk a l)) ps) (l.position k) 1 = slice (l.items.flatMap (chunk a l)) (l.position k) 1 := by
    refine slice_storeAll_of_disjoint (by rw [length_chunks]; exact hstores.within) fun p hp => ?_
    rcases written_apart hemitted hstores hcode hk hp with ⟨hq, -⟩ | hq | hq <;> omega
  have hbase := getElem?_eq_of_slice_eq (slice_chunk (a := a) hk) (k := 0) (by omega)
  have hfull := getElem?_eq_of_slice_eq hstay (k := 0) Nat.one_pos
  rw [getElem?_slice, if_pos Nat.one_pos] at hfull
  rw [hret, List.getElem?_append_left (by omega)]
  exact hfull.trans (hbase.trans (by rw [hchunk]; rfl))

/-- The rest of an item for which nothing is written stays. -/
theorem slice_position {k : Nat} {x : AssemblyItem} (hk : l.items[k]? = some x) (hnot : ∀ b, ¬Written l s.tagPos x b) :
    slice code (l.position k) (l.itemSize x) = chunk a l x := by
  have hend := position_end_le hk
  have hlength := length_storeAll (show Within ps (l.items.flatMap (chunk a l)).length by rw [length_chunks]; exact hstores.within)
  rw [length_chunks] at hlength
  rw [hret, slice_append_left (by omega), ← slice_chunk hk]
  refine slice_storeAll_of_disjoint (by rw [length_chunks]; exact hstores.within) fun p hp => ?_
  rcases written_apart hemitted hstores hcode hk hp with ⟨-, hw⟩ | hq | hq
  · exact absurd hw (hnot _)
  · exact Or.inl hq
  · exact Or.inr hq

/-- The operand of a reference is what is written for it. -/
theorem operand_of_mem (hdata : l.data.Pairwise fun d d' => d.1 < d'.1) {k : Nat} {x : AssemblyItem} (hk : l.items[k]? = some x)
    {b : Bytes} (hb : Written l s.tagPos x b) (hlt : b.length ≤ 4) (hm : (l.position k + 1, b) ∈ ps) :
    operand code (l.position k) = fromBigEndian b := by
  obtain ⟨hchunk, hsize⟩ := hb.hole (a := a)
  have hfirst := getElem?_position hemitted hstores hcode hret hk hchunk
  have hend := position_end_le hk
  have hlength := length_storeAll (show Within ps (l.items.flatMap (chunk a l)).length by rw [length_chunks]; exact hstores.within)
  rw [length_chunks] at hlength
  have hwidth : (UInt8.ofNat (pushInstruction b.length)).toNat - 0x5f = b.length := by
    rw [UInt8.toNat_ofNat', pushInstruction]
    omega
  rw [operand, hfirst, Option.getD_some, hwidth]
  congr 1
  rw [hret, slice_append_left (by omega)]
  refine slice_storeAll_of_mem (by rw [length_chunks]; exact hstores.within) hm fun p hp => ?_
  rcases written_apart hemitted hstores hcode hk hp with ⟨hq, hw⟩ | hq | hq
  · exact Or.inl (Prod.ext hq (written_unique hdata hw hb))
  · exact Or.inr (Or.inl (by omega))
  · exact Or.inr (Or.inr (by omega))

/-- The operand of the smallest push of a number is the number. -/
theorem operand_of_number {k : Nat} {x : AssemblyItem} (hk : l.items[k]? = some x) (hnot : ∀ b, ¬Written l s.tagPos x b) {v : Nat}
    (hchunk : chunk a l x = number v) (hv : v < 2 ^ 64) : operand code (l.position k) = v := by
  have hfirst := getElem?_position hemitted hstores hcode hret hk hchunk
  have hslice := slice_position hemitted hstores hcode hret hk hnot
  have hb : max 1 (Webthree.bytesRequired v) ≤ 8 := max_le (by decide) ((bytesRequired_le_iff v 8).mpr (by omega))
  have hwidth : (UInt8.ofNat (pushInstruction (max 1 (Webthree.bytesRequired v)))).toNat - 0x5f = max 1 (Webthree.bytesRequired v) := by
    rw [UInt8.toNat_ofNat', pushInstruction]
    omega
  have hrest : slice code (l.position k + 1) (max 1 (Webthree.bytesRequired v)) =
      toBigEndianIn (max 1 (Webthree.bytesRequired v)) v := by
    rw [← length_chunk a, hchunk, length_number] at hslice
    exact slice_of_cons hslice
  rw [operand, hfirst, Option.getD_some, hwidth, hrest]
  exact fromBigEndian_toBigEndianIn_iff.mpr ((bytesRequired_le_iff v _).mp (le_max_right _ _))

end Code

/-! ## What is appended -/

section Appended

variable {l : Layout} {subs : List LinkerObject}

theorem separatorBytes_length (l : Layout) : (separatorBytes l).length = l.separator := List.length_replicate

theorem slice_sub (hsizes : l.sizes = subs.map fun sub => sub.bytecode.length) {n : Nat} {object : LinkerObject}
    (hn : subs[n]? = some object) (hreferred : l.subReferred n = true) :
    slice (appended l subs) (l.separator + (l.subSizes.take n).sum) object.bytecode.length = object.bytecode := by
  have hentry : (subEntries subs)[n]? = some (n, object) := by
    rw [subEntries, List.getElem?_map, List.getElem?_zipIdx, hn]
    simp
  have hplaced : placed (l.places id subKey l.items.length) (n, object) = object.bytecode := by
    rw [placed, any_places, ← subReferred_eq, if_pos hreferred]
  have hbefore : (((subEntries subs).take n).flatMap (placed (l.places id subKey l.items.length))).length = (l.subSizes.take n).sum := by
    rw [List.length_flatMap, List.map_take, map_length_subEntries hsizes]
  have hend := length_take_flatMap_le (f := placed (l.places id subKey l.items.length)) hentry
  have hslice := slice_flatMap (f := placed (l.places id subKey l.items.length)) hentry
  rw [hplaced, hbefore] at hslice hend
  rw [appended, slice_append_left (by rw [List.length_append, separatorBytes_length]; omega), ← separatorBytes_length l,
    slice_append_right]
  exact hslice

theorem slice_data (hsizes : l.sizes = subs.map fun sub => sub.bytecode.length) {j : Nat} {d : U256 × Bytes} (hj : l.data[j]? = some d)
    (hreferred : l.dataReferred d.1 = true) :
    slice (appended l subs) (l.separator + l.subSizes.sum + (l.dataSizes.take j).sum) d.2.length = d.2 := by
  have hentry : (dataEntries l.data)[j]? = some (d.1, ⟨d.2, []⟩) := by
    rw [dataEntries, List.getElem?_map, hj]
    rfl
  have hplaced : placed (l.places unsigned dataKey l.items.length) (d.1, ⟨d.2, []⟩) = d.2 := by
    rw [placed, any_places, ← dataReferred_eq, if_pos hreferred]
  have hbefore : (((dataEntries l.data).take j).flatMap (placed (l.places unsigned dataKey l.items.length))).length =
      (l.dataSizes.take j).sum := by
    rw [List.length_flatMap, List.map_take, map_length_dataEntries]
  have hslice := slice_flatMap (f := placed (l.places unsigned dataKey l.items.length)) hentry
  rw [hplaced, hbefore] at hslice
  have hlength : (separatorBytes l ++ (subEntries subs).flatMap (placed (l.places id subKey l.items.length))).length =
      l.separator + l.subSizes.sum := by
    rw [List.length_append, separatorBytes_length, List.length_flatMap, map_length_subEntries hsizes]
  rw [appended, ← hlength, slice_append_right]
  exact hslice

end Appended

/-! ## Widths -/

theorem bytesRequiredFrom_lt {a : Assembly} {n br totalBytes : Nat} (h : a.bytesRequiredFrom n br = .ok totalBytes) :
    totalBytes < 2 ^ 32 := by
  have hwith : ∀ {br ret}, a.bytesRequiredWith br = .ok ret → ret < 2 ^ 32 := by
    intro br ret h
    rw [bytesRequiredWith, bind_eq_ok] at h
    obtain ⟨items, -, h⟩ := h
    cases h
    exact Nat.mod_lt _ (by decide)
  induction n generalizing br with
  | zero => exact hwith h
  | succ n ih =>
    rw [bytesRequiredFrom, bind_eq_ok] at h
    obtain ⟨ret, hret, h⟩ := h
    split at h
    · cases h
      exact hwith hret
    · exact ih h

theorem bytesRequired_le_four {n : Nat} (h : n < 2 ^ 32) : Webthree.bytesRequired n ≤ 4 :=
  (bytesRequired_le_iff n 4).mpr h

/-- What is known of an assembly that is assembled. -/
theorem assembled_of_ok {a : Assembly} {ret : LinkerObject} (h : a.assemble = .ok ret) :
    ∃ s subs ps, assembleAll a.m_subs = .ok subs ∧ (a.layout.sizes = subs.map fun sub => sub.bytecode.length) ∧
      Emitted a a.layout a.layout.items.length s ∧ Stores a.layout s subs ps ∧
      ret.bytecode = storeAll (a.layout.items.flatMap (chunk a a.layout)) ps ++ appended a.layout subs ∧
      a.layout.bytesPerTag ≤ 4 ∧ a.layout.bytesPerDataRef ≤ 4 := by
  obtain ⟨totalBytes, subs, hrequired, hsubs, hwith⟩ := assemble_eq_ok.mp h
  have hsizes := length_assembleAll _ _ hsubs
  obtain ⟨s, ps, hemitted, hstores, hret⟩ := assembleWith_eq_ok hrequired hwith (l := a.layout) (by rw [layout, hsizes])
  refine ⟨s, subs, ps, hsubs, hsizes.symm, hemitted, hstores, hret, ?_, ?_⟩
  · rw [layout, layoutWith, hrequired]
    exact bytesRequired_le_four (bytesRequiredFrom_lt hrequired)
  · exact bytesRequired_le_four (Nat.mod_lt _ (by decide))

/-! ## The operands -/

section Operands

variable {a : Assembly} {ret : LinkerObject} (h : a.assemble = .ok ret) (hrange : InRange a)

include h hrange

theorem operand_tag {k : Nat} {x : AssemblyItem} (hk : a.m_items[k]? = some x) (hx : x.type = .PushTag) (hn : tagNumber x ≠ 0) {j : Nat}
    (hj : a.layout.Defines (tagNumber x) j) :
    operand ret.bytecode (a.layout.position k) = fromBigEndian (toBigEndianIn a.layout.bytesPerTag (a.layout.position j)) ∧
      ret.bytecode[a.layout.position j]? = some 0x5b := by
  obtain ⟨s, subs, ps, -, -, hemitted, hstores, hret, hwidth, -⟩ := assembled_of_ok h
  obtain ⟨⟨y, hy, hyt, hyn⟩, hlast⟩ := hj
  have hposition : tagPosition s.tagPos (tagNumber x) = .ok (a.layout.position j) := by
    refine tagPosition_of_some hn ?_
    rw [hemitted.tagPos _ j y hn (List.getElem?_eq_some_iff.mp hy).1 hy hyt hyn fun i z hji _ => hlast i z hji,
      (unsigned_position hrange.1 hy (by rw [hyt]; nofun)).1]
  have hwritten : Written a.layout s.tagPos x (toBigEndianIn a.layout.bytesPerTag (a.layout.position j)) :=
    Or.inl ⟨hx, by rw [hposition]; rfl⟩
  refine ⟨operand_of_mem hemitted hstores hrange.1 hret a.m_data_sorted hk hwritten (by rw [length_toBigEndianIn]; exact hwidth) ?_, ?_⟩
  · refine (hstores.mem _).mpr (Or.inl (mem_tagStores.mpr ⟨_, tagNumber x, ?_, by rw [hposition]; rfl⟩))
    exact hemitted.tagRef_mem hrange.1 k x (List.getElem?_eq_some_iff.mp hk).1 hk hx
  · exact getElem?_position hemitted hstores hrange.1 hret hy (by rw [chunk, hyt])

theorem operand_data {k : Nat} {x : AssemblyItem} (hk : a.m_items[k]? = some x) (hx : x.type = .PushData) {j : Nat} {d : U256 × Bytes}
    (hj : a.m_data[j]? = some d) (hd : d.1 = x.data) :
    operand ret.bytecode (a.layout.position k) = fromBigEndian (toBigEndianIn a.layout.bytesPerDataRef (a.layout.dataOffset j)) ∧
      slice ret.bytecode (a.layout.dataOffset j) d.2.length = d.2 := by
  obtain ⟨s, subs, ps, -, hsizes, hemitted, hstores, hret, -, hwidth⟩ := assembled_of_ok h
  have hwritten : Written a.layout s.tagPos x (toBigEndianIn a.layout.bytesPerDataRef (a.layout.dataOffset j)) :=
    Or.inr (Or.inr (Or.inl ⟨hx, j, d, hj, hd, rfl⟩))
  refine ⟨operand_of_mem hemitted hstores hrange.1 hret a.m_data_sorted hk hwritten (by rw [length_toBigEndianIn]; exact hwidth) ?_, ?_⟩
  · refine (hstores.mem _).mpr (Or.inr (Or.inr (Or.inl ⟨x.data, _, j, d, ?_, hj, hd, rfl⟩)))
    refine mem_places.mpr ⟨k, x, (List.getElem?_eq_some_iff.mp hk).1, hk, dataKey_eq_some.mpr ⟨hx, rfl⟩, ?_⟩
    exact ((unsigned_position hrange.1 hk (by rw [hx]; nofun)).2).symm
  · have hreferred : a.layout.dataReferred d.1 = true :=
      List.any_eq_true.mpr ⟨x, List.mem_of_getElem? hk, decide_eq_true ⟨hx, hd.symm⟩⟩
    rw [dataOffset, Nat.add_assoc, Nat.add_assoc, slice_appended hstores hret, ← Nat.add_assoc]
    exact slice_data hsizes hj hreferred

theorem operand_sub {k : Nat} {x : AssemblyItem} (hk : a.m_items[k]? = some x) (hx : x.type = .PushSub) {sub : Assembly}
    (hsub : a.m_subs[size_t x.data.toNat]? = some sub) :
    operand ret.bytecode (a.layout.position k) =
        fromBigEndian (toBigEndianIn a.layout.bytesPerDataRef (a.layout.subOffset (size_t x.data.toNat))) ∧
      ∃ object, sub.assemble = .ok object ∧
        slice ret.bytecode (a.layout.subOffset (size_t x.data.toNat)) object.bytecode.length = object.bytecode := by
  obtain ⟨s, subs, ps, hsubs, hsizes, hemitted, hstores, hret, -, hwidth⟩ := assembled_of_ok h
  obtain ⟨object, hobject, hassembled⟩ := (getElem?_assembleAll hsubs).1 sub hsub
  have hwritten : Written a.layout s.tagPos x
      (toBigEndianIn a.layout.bytesPerDataRef (a.layout.subOffset (size_t x.data.toNat))) := Or.inr (Or.inl ⟨hx, rfl⟩)
  refine ⟨operand_of_mem hemitted hstores hrange.1 hret a.m_data_sorted hk hwritten (by rw [length_toBigEndianIn]; exact hwidth) ?_,
    object, hassembled, ?_⟩
  · refine (hstores.mem _).mpr (Or.inr (Or.inl ⟨size_t x.data.toNat, _, object, ?_, hobject, rfl⟩))
    exact mem_places.mpr ⟨k, x, (List.getElem?_eq_some_iff.mp hk).1, hk, subKey_eq_some.mpr ⟨hx, rfl⟩, rfl⟩
  · have hreferred : a.layout.subReferred (size_t x.data.toNat) = true :=
      List.any_eq_true.mpr ⟨x, List.mem_of_getElem? hk, decide_eq_true ⟨hx, rfl⟩⟩
    rw [subOffset, Nat.add_assoc, slice_appended hstores hret]
    exact slice_sub hsizes hobject hreferred

theorem operand_programSize {k : Nat} {x : AssemblyItem} (hk : a.m_items[k]? = some x) (hx : x.type = .PushProgramSize) :
    operand ret.bytecode (a.layout.position k) = fromBigEndian (toBigEndianIn a.layout.bytesPerDataRef a.layout.size) ∧
      ret.bytecode.length = a.layout.size := by
  obtain ⟨s, subs, ps, -, hsizes, hemitted, hstores, hret, -, hwidth⟩ := assembled_of_ok h
  have hwritten : Written a.layout s.tagPos x (toBigEndianIn a.layout.bytesPerDataRef a.layout.size) :=
    Or.inr (Or.inr (Or.inr ⟨hx, rfl⟩))
  refine ⟨operand_of_mem hemitted hstores hrange.1 hret a.m_data_sorted hk hwritten (by rw [length_toBigEndianIn]; exact hwidth) ?_, ?_⟩
  · refine (hstores.mem _).mpr (Or.inr (Or.inr (Or.inr ⟨(), _, ?_, rfl⟩)))
    refine mem_places.mpr ⟨k, x, (List.getElem?_eq_some_iff.mp hk).1, hk, sizeKey_eq_some.mpr hx, ?_⟩
    exact ((unsigned_position hrange.1 hk (by rw [hx]; nofun)).2).symm
  · rw [hret, List.length_append, length_storeAll (by rw [length_chunks]; exact hstores.within), length_chunks, length_appended hsizes,
      Layout.size]
    omega

theorem operand_subSize {k : Nat} {x : AssemblyItem} (hk : a.m_items[k]? = some x) (hx : x.type = .PushSubSize) :
    ∃ sub object, a.m_subs[size_t x.data.toNat]? = some sub ∧ sub.assemble = .ok object ∧
      operand ret.bytecode (a.layout.position k) = object.bytecode.length := by
  obtain ⟨s, subs, ps, hsubs, hsizes, hemitted, hstores, hret, -, -⟩ := assembled_of_ok h
  have hlt := hemitted.subSize k x (List.getElem?_eq_some_iff.mp hk).1 hk hx
  rw [hsizes, List.length_map] at hlt
  have hobject := List.getElem?_eq_getElem hlt
  obtain ⟨sub, hsub, hassembled⟩ := (getElem?_assembleAll hsubs).2 _ hobject
  refine ⟨sub, _, hsub, hassembled, ?_⟩
  have hsize : a.layout.sizes[size_t x.data.toNat]? = some subs[size_t x.data.toNat].bytecode.length := by
    rw [hsizes, List.getElem?_map, hobject]
    rfl
  have hsmall := hrange.2 _ (List.mem_of_getElem? hsize)
  have hchunk : chunk a a.layout x = number subs[size_t x.data.toNat].bytecode.length := by
    rw [chunk, hx, hsize]
    rfl
  have hnot : ∀ b, ¬Written a.layout s.tagPos x b := by
    rintro b (⟨hy, -⟩ | ⟨hy, -⟩ | ⟨hy, -⟩ | ⟨hy, -⟩) <;> cases hx.symm.trans hy
  exact operand_of_number hemitted hstores hrange.1 hret hk hnot hchunk hsmall

end Operands

/-! ## The layout decides -/

theorem sum_take_le (l : List Nat) (k : Nat) : (l.take k).sum ≤ l.sum := by
  have h := congrArg List.sum (List.take_append_drop k l)
  rw [List.sum_append] at h
  omega

theorem position_le_codeSize (l : Layout) (k : Nat) : l.position k ≤ l.codeSize := by
  unfold position codeSize
  rw [List.map_take]
  exact sum_take_le _ _

/-- Nothing is truncated where the whole size fits into the widths. -/
theorem fits_of_size {a : Assembly} (htag : a.layout.size < 256 ^ a.layout.bytesPerTag)
    (href : a.layout.size < 256 ^ a.layout.bytesPerDataRef) : Fits a := by
  refine ⟨?_, ?_, ?_, fun _ _ _ => href⟩
  · intro x _ _ _ j _
    have hle := position_le_codeSize a.layout j
    unfold Layout.size at htag
    omega
  · intro x _ _ j d _ _
    have hle := sum_take_le a.layout.dataSizes j
    unfold Layout.size at href
    unfold dataOffset
    omega
  · intro x _ _ _
    have hle := sum_take_le a.layout.subSizes (size_t x.data.toNat)
    unfold Layout.size at href
    unfold subOffset
    omega

/-- An assembly whose code has positions that an `unsigned` keeps is assembled with every reference resolved exactly if no operand is
truncated. -/
theorem assemble_resolves (a : Assembly) (ret : LinkerObject) (h : a.assemble = .ok ret) :
    (InRange a ∧ Fits a → Resolved a ret.bytecode) ∧ (InRange a → Resolved a ret.bytecode → Fits a) := by
  refine ⟨fun ⟨hrange, hfits⟩ => ⟨?_, ?_, ?_, ?_, ?_⟩, fun hrange hresolved => ⟨?_, ?_, ?_, ?_⟩⟩
  · intro k x hk hx hn j hj
    obtain ⟨hoperand, hbyte⟩ := operand_tag h hrange hk hx hn hj
    exact ⟨hoperand.trans (fromBigEndian_toBigEndianIn_iff.mpr (hfits.tags x (List.mem_of_getElem? hk) hx hn j hj)), hbyte⟩
  · intro k x hk hx j d hj hd
    obtain ⟨hoperand, hslice⟩ := operand_data h hrange hk hx hj hd
    exact ⟨hoperand.trans (fromBigEndian_toBigEndianIn_iff.mpr (hfits.data x (List.mem_of_getElem? hk) hx j d hj hd)), hslice⟩
  · intro k x hk hx sub hsub
    obtain ⟨hoperand, hslice⟩ := operand_sub h hrange hk hx hsub
    have hlt := (List.getElem?_eq_some_iff.mp hsub).1
    exact ⟨hoperand.trans (fromBigEndian_toBigEndianIn_iff.mpr (hfits.subs x (List.mem_of_getElem? hk) hx hlt)), hslice⟩
  · intro k x hk hx
    exact operand_subSize h hrange hk hx
  · intro k x hk hx
    obtain ⟨hoperand, hlength⟩ := operand_programSize h hrange hk hx
    rw [hoperand, hlength]
    exact fromBigEndian_toBigEndianIn_iff.mpr (hfits.programSize x (List.mem_of_getElem? hk) hx)
  · intro x hm hx hn j hj
    obtain ⟨k, hk⟩ := List.getElem?_of_mem hm
    have hoperand := (operand_tag h hrange hk hx hn hj).1
    exact fromBigEndian_toBigEndianIn_iff.mp (hoperand.symm.trans (hresolved.tags k x hk hx hn j hj).1)
  · intro x hm hx j d hj hd
    obtain ⟨k, hk⟩ := List.getElem?_of_mem hm
    have hoperand := (operand_data h hrange hk hx hj hd).1
    exact fromBigEndian_toBigEndianIn_iff.mp (hoperand.symm.trans (hresolved.data k x hk hx j d hj hd).1)
  · intro x hm hx hlt
    obtain ⟨k, hk⟩ := List.getElem?_of_mem hm
    have hsub := List.getElem?_eq_getElem hlt
    have hoperand := (operand_sub h hrange hk hx hsub).1
    exact fromBigEndian_toBigEndianIn_iff.mp (hoperand.symm.trans (hresolved.subs k x hk hx _ hsub).1)
  · intro x hm hx
    obtain ⟨k, hk⟩ := List.getElem?_of_mem hm
    obtain ⟨hoperand, hlength⟩ := operand_programSize h hrange hk hx
    have hsize := hresolved.programSize k x hk hx
    rw [hlength] at hsize
    exact fromBigEndian_toBigEndianIn_iff.mp (hoperand.symm.trans hsize)

/-! ## A tag that does not fit -/

namespace AssemblySample

theorem no_data : ([] : List (U256 × Bytes)).Pairwise fun d d' => d.1 < d'.1 := .nil

/-- An assembly of instructions. -/
def ofItems (m_items : List AssemblyItem) (m_subs : List Assembly) : Assembly := ⟨2, m_items, [], no_data, m_subs, [], []⟩

/-- An item that is no instruction. -/
def item (type : AssemblyItemType) (data : U256) (h : type ≠ .Operation) : AssemblyItem := ⟨type, data, fun he => absurd he h⟩

/-- Code that pushes all there is to push, with a part. -/
def small : Assembly :=
  ⟨2, [.pushTag 1, .ofInstruction .JUMP, .tag 1, item .PushSub 0 (by decide), item .PushSubSize 0 (by decide),
    item .PushProgramSize 0 (by decide), item .PushData 7 (by decide)], [(7, [0xaa, 0xbb])], List.pairwise_singleton _ _, [ofItems [.ofInstruction .STOP] []], [], []⟩

/-- A jump over many pushes of the offset of a part. -/
def jumpItems : List AssemblyItem :=
  .pushTag 1 :: .ofInstruction .JUMP :: List.replicate 85 (item .PushSub 0 (by decide)) ++ [.tag 1, .ofInstruction .STOP]

/-- Two bytes are needed for the offset, but one byte was chosen for the tag. -/
def jump : Assembly := ofItems jumpItems [ofItems (List.replicate 80 (.ofInstruction .STOP)) []]

end AssemblySample

open AssemblySample

theorem assemble_resolves_small : ∃ ret, small.assemble = .ok ret ∧ Resolved small ret.bytecode := by
  have hok : small.assemble.toOption.isSome = true := by decide +kernel
  have hrange : InRange small := ⟨by decide +kernel, by decide +kernel⟩
  cases h : small.assemble with
  | error e =>
    rw [h] at hok
    cases hok
  | ok ret => exact ⟨ret, rfl, (assemble_resolves small ret h).1 ⟨hrange, fits_of_size (by decide +kernel) (by decide +kernel)⟩⟩

/-- The tag is at 258, but what is pushed for it is 2. -/
theorem assemble_truncates : ∃ ret, jump.assemble = .ok ret ∧ ¬Resolved jump ret.bytecode := by
  have hoperand : (jump.assemble.toOption.map fun ret => operand ret.bytecode (jump.layout.position 0)) = some 2 := by decide +kernel
  have hposition : jump.layout.position 87 = 258 := by decide +kernel
  have hdefines : jump.layout.Defines (tagNumber (.pushTag 1)) 87 := by
    refine ⟨⟨.tag 1, by decide +kernel, rfl, rfl⟩, fun k x hk hx hxt => ?_⟩
    have hrest : x ∈ jumpItems.drop 88 := by
      obtain ⟨d, rfl⟩ := Nat.exists_eq_add_of_le (Nat.succ_le_of_lt hk)
      exact List.mem_of_getElem? ((List.getElem?_drop).trans hx)
    rw [show jumpItems.drop 88 = [.ofInstruction .STOP] from by decide +kernel, List.mem_singleton] at hrest
    rw [hrest] at hxt
    cases hxt
  cases h : jump.assemble with
  | error e =>
    rw [h] at hoperand
    cases hoperand
  | ok ret =>
    refine ⟨ret, rfl, fun hresolved => ?_⟩
    have htag := (hresolved.tags 0 (.pushTag 1) rfl rfl (by decide) 87 hdefines).1
    rw [h] at hoperand
    have hpushed : operand ret.bytecode (jump.layout.position 0) = 2 := Option.some.inj hoperand
    rw [hposition, hpushed] at htag
    cases htag

end Assembly

end Webthree
