import Webthree.Asm.ControlFlowGraph
import Webthree.Lib.EState
import Webthree.Lib.Ranges

/-!
# The blocks have no item in common

The blocks that the items are split into have no item in common, linking them only makes them shorter, and as the links are inverse to
each other, no block is put into the final code twice.
-/

namespace Webthree

open Ranges (Separate PartOf)

/-- Its places in the list of items. -/
def BasicBlock.range (block : BasicBlock) : Nat × Nat := (block.beginIndex, block.endIndex)

namespace ControlFlowGraph

/-! ## Maps of blocks -/

/-- A block that is modified is found so, and the others as before. -/
theorem find_modify (m : Blocks) (id c : BlockId) (f : BasicBlock → BasicBlock) :
    (modify m id f).find c = if c = id then some (f ((m.find id).getD {})) else m.find c := Assoc.find_setSorted m _ c

/-- Where a block is changed, each block comes from the one that was there. -/
theorem of_find_modify {m : Blocks} {id c : BlockId} {block C : BasicBlock} {f : BasicBlock → BasicBlock} (hb : m.find id = some block)
    (hc : (modify m id f).find c = some C) : ∃ C₀, m.find c = some C₀ ∧ C = if c = id then f C₀ else C₀ := by
  rw [find_modify, hb, Option.getD_some] at hc
  by_cases h : c = id
  · rw [if_pos h, Option.some_inj] at hc
    exact ⟨block, h ▸ hb, by rw [if_pos h, hc]⟩
  · rw [if_neg h] at hc
    exact ⟨C, hc, (if_neg h).symm⟩

/-- A block is there exactly if it is found. -/
theorem blockAt_eq_ok {m : Blocks} {id : BlockId} {block : BasicBlock} : blockAt m id = .ok block ↔ m.find id = some block := by
  unfold blockAt
  cases m.find id with
  | none => simp
  | some b => simp

/-- The keys are in order. -/
def Sorted (m : Blocks) : Prop := m.Pairwise fun d e => d.1 < e.1

/-- To modify a block keeps them sorted. -/
theorem Sorted.modify {m : Blocks} (h : Sorted m) (id : BlockId) (f : BasicBlock → BasicBlock) : Sorted (modify m id f) :=
  Assoc.pairwise_setSorted h _

theorem Sorted.proper {m : Blocks} (h : Sorted m) : Assoc.Proper m := List.pairwise_map.mpr (h.imp fun hlt => hlt.ne)

/-- The blocks of the second map come from those of the first one, as the relation says. -/
def Carries (R : BasicBlock → BasicBlock → Prop) (m m' : Blocks) : Prop :=
  ∀ id block', m'.find id = some block' → ∃ block, m.find id = some block ∧ R block block'

section Carries

variable {R S : BasicBlock → BasicBlock → Prop} {m m' m'' : Blocks}

theorem Carries.refl (h : ∀ block, R block block) (m : Blocks) : Carries R m m := fun _ block hb => ⟨block, hb, h block⟩

/-- What is carried on twice is carried on. -/
theorem Carries.trans (htrans : ∀ a b c, R a b → R b c → R a c) (h : Carries R m m') (h' : Carries R m' m'') : Carries R m m'' := by
  intro id block'' hb''
  obtain ⟨block', hb', hr'⟩ := h' id block'' hb''
  obtain ⟨block, hb, hr⟩ := h id block' hb'
  exact ⟨block, hb, htrans _ _ _ hr hr'⟩

/-- What is carried on can be weakened. -/
theorem Carries.mono (hRS : ∀ a b, R a b → S a b) (h : Carries R m m') : Carries S m m' := by
  intro id block' hb'
  obtain ⟨block, hb, hr⟩ := h id block' hb'
  exact ⟨block, hb, hRS _ _ hr⟩

/-- One block of the map is changed. -/
theorem Carries.modify (hrefl : ∀ block, R block block) {id : BlockId} {block : BasicBlock} {f : BasicBlock → BasicBlock}
    (hb : m.find id = some block) (hf : R block (f block)) : Carries R m (modify m id f) := by
  intro c C hc
  obtain ⟨C₀, hC₀, rfl⟩ := of_find_modify hb hc
  refine ⟨C₀, hC₀, ?_⟩
  split
  · rename_i hid
    cases hb.symm.trans (hid ▸ hC₀)
    exact hf
  · exact hrefl C₀

/-- Blocks are taken out of the map. -/
theorem Carries.filter (hrefl : ∀ block, R block block) (hm : Sorted m) (p : BlockId × BasicBlock → Bool) : Carries R m (m.filter p) := by
  intro id block hb
  exact ⟨block, Assoc.find_eq_some_of_mem hm.proper (List.mem_filter.mp (Assoc.mem_of_find_eq_some hb)).1, hrefl block⟩

end Carries

/-- The blocks of a code of so many items: no two have an item in common. -/
structure Cut (n : Nat) (m : Blocks) : Prop where
  sorted : Sorted m
  valid {id : BlockId} {block : BasicBlock} : m.find id = some block → id ≠ BlockId.invalid
  within {id : BlockId} {block : BasicBlock} : m.find id = some block → block.endIndex ≤ n
  separate {b c : BlockId} {B C : BasicBlock} : b ≠ c → m.find b = some B → m.find c = some C → Separate B.range C.range

/-- Parts of the blocks have no item in common either. -/
theorem Cut.of_carries {n : Nat} {m m' : Blocks} (h : Cut n m) (hs : Sorted m') (hm : Carries (fun B B' => PartOf B'.range B.range) m m') :
    Cut n m' where
  sorted := hs
  valid hb := by
    obtain ⟨B, hB, -⟩ := hm _ _ hb
    exact h.valid hB
  within hb := by
    obtain ⟨B, hB, hw⟩ := hm _ _ hb
    exact hw.2.trans (h.within hB)
  separate hne hb hc := by
    obtain ⟨B, hB, hw⟩ := hm _ _ hb
    obtain ⟨C, hC, hw'⟩ := hm _ _ hc
    exact (h.separate hne hB hC).mono hw hw'

/-! ## Splitting -/

namespace Split

/-- What holds before the item at the index is split off: the blocks that are not open have no item in common and end before the one that
is open. -/
structure Splits (i : Nat) (s : Split) : Prop where
  sorted : Sorted s.m_blocks
  valid {id : BlockId} {block : BasicBlock} : s.m_blocks.find id = some block → id ≠ BlockId.invalid
  unlinked {id : BlockId} {block : BasicBlock} : s.m_blocks.find id = some block →
    block.next = BlockId.invalid ∧ block.prev = BlockId.invalid
  ended {id : BlockId} {block : BasicBlock} : id ≠ s.id → s.m_blocks.find id = some block → block.endIndex ≤ i
  opened : s.id ≠ BlockId.invalid → ∃ block, s.m_blocks.find s.id = some block ∧ block.beginIndex ≤ i ∧
    ∀ c C, c ≠ s.id → s.m_blocks.find c = some C → C.endIndex ≤ block.beginIndex
  separate {b c : BlockId} {B C : BasicBlock} : b ≠ s.id → c ≠ s.id → b ≠ c → s.m_blocks.find b = some B → s.m_blocks.find c = some C →
    Separate B.range C.range

variable {i : Nat} {s : Split}

/-- The block that is open may be changed, unless this changes its start. -/
theorem Splits.modify (h : Splits i s) (hid : s.id ≠ BlockId.invalid) {f : BasicBlock → BasicBlock}
    (hbegin : ∀ block, (f block).beginIndex = block.beginIndex)
    (hf : ∀ block, (f block).next = block.next ∧ (f block).prev = block.prev) : Splits i (s.modify f) := by
  obtain ⟨block, hblock, hle, hbefore⟩ := h.opened hid
  have hother : ∀ c C, c ≠ s.id → (s.modify f).m_blocks.find c = some C → s.m_blocks.find c = some C := by
    intro c C hne hc
    rwa [Split.modify, find_modify, if_neg hne] at hc
  have hself : (s.modify f).m_blocks.find s.id = some (f block) := by
    rw [Split.modify, find_modify, if_pos rfl, hblock, Option.getD_some]
  refine ⟨h.sorted.modify _ _, fun {c C} hc => ?_, fun {c C} hc => ?_, fun hne hc => h.ended hne (hother _ _ hne hc), fun _ => ?_,
    fun hb hc hne hB hC => h.separate hb hc hne (hother _ _ hb hB) (hother _ _ hc hC)⟩
  · by_cases hne : c = s.id
    · exact hne ▸ hid
    · exact h.valid (hother c C hne hc)
  · by_cases hne : c = s.id
    · rw [hne, hself, Option.some_inj] at hc
      rw [← hc, (hf block).1, (hf block).2]
      exact h.unlinked hblock
    · exact h.unlinked (hother c C hne hc)
  · refine ⟨f block, hself, (hbegin block).trans_le hle, fun c C hne hc => ?_⟩
    rw [hbegin]
    exact hbefore c C hne (hother c C hne hc)

/-- The block that is open is closed where it ends. -/
theorem Splits.close (h : Splits i s) {j : Nat} (hij : i ≤ j)
    (hend : ∀ block, s.m_blocks.find s.id = some block → block.endIndex ≤ j) : Splits j { s with id := BlockId.invalid } where
  sorted := h.sorted
  valid := h.valid
  unlinked := h.unlinked
  ended {c C} _ hc := by
    by_cases hne : c = s.id
    · exact hend C (hne ▸ hc)
    · exact (h.ended hne hc).trans hij
  opened hne := absurd rfl hne
  separate {b c B C} _ _ hne hB hC := by
    by_cases hb : b = s.id
    · obtain ⟨block, hblock, -, hbefore⟩ := h.opened (hb ▸ h.valid hB)
      have hc : c ≠ s.id := fun hc => hne (hb.trans hc.symm)
      cases (hb ▸ hB).symm.trans hblock
      exact Or.inr (hbefore c C hc hC)
    · by_cases hc : c = s.id
      · obtain ⟨block, hblock, -, hbefore⟩ := h.opened (hc ▸ h.valid hC)
        cases (hc ▸ hC).symm.trans hblock
        exact Or.inl (hbefore b B hb hB)
      · exact h.separate hb hc hne hB hC

/-- The block that is open is changed so that it ends at the index, and closed. -/
theorem Splits.modify_close (h : Splits i s) (hid : s.id ≠ BlockId.invalid) {j : Nat} (hij : i ≤ j) {f : BasicBlock → BasicBlock}
    (hbegin : ∀ block, (f block).beginIndex = block.beginIndex)
    (hf : ∀ block, (f block).next = block.next ∧ (f block).prev = block.prev) (hend : ∀ block, (f block).endIndex = j) :
    Splits j { s.modify f with id := BlockId.invalid } := by
  refine (h.modify hid hbegin hf).close hij fun block hblock => ?_
  rw [Split.modify, find_modify, if_pos rfl, Option.some_inj] at hblock
  rw [← hblock, hend]

/-- A block is opened where none is open, which may have been there before. -/
theorem Splits.reopen (h : Splits i s) (hid : s.id = BlockId.invalid) {t : Split} (hvalid : t.id ≠ BlockId.invalid)
    {f : BasicBlock → BasicBlock} (ht : t.m_blocks = ControlFlowGraph.modify s.m_blocks t.id f)
    (hbegin : ∀ block, (f block).beginIndex = i)
    (hf : ∀ block, (f block).next = block.next ∧ (f block).prev = block.prev) : Splits i t := by
  have hother : ∀ c C, c ≠ t.id → t.m_blocks.find c = some C → s.m_blocks.find c = some C := by
    intro c C hne hc
    rwa [ht, find_modify, if_neg hne] at hc
  have hself : t.m_blocks.find t.id = some (f ((s.m_blocks.find t.id).getD {})) := by rw [ht, find_modify, if_pos rfl]
  have hclosed : ∀ {c C}, s.m_blocks.find c = some C → c ≠ s.id := fun hc => hid ▸ h.valid hc
  refine ⟨ht ▸ h.sorted.modify _ _, fun {c C} hc => ?_, fun {c C} hc => ?_,
    fun hne hc => h.ended (hclosed (hother _ _ hne hc)) (hother _ _ hne hc), fun _ => ?_, fun {b c B C} hb hc hne hB hC => ?_⟩
  · by_cases hne : c = t.id
    · exact hne ▸ hvalid
    · exact h.valid (hother c C hne hc)
  · by_cases hne : c = t.id
    · rw [hne, hself, Option.some_inj] at hc
      rw [← hc, (hf _).1, (hf _).2]
      cases hold : s.m_blocks.find t.id with
      | none => exact ⟨rfl, rfl⟩
      | some block => exact h.unlinked hold
    · exact h.unlinked (hother c C hne hc)
  · refine ⟨_, hself, (hbegin _).le, fun c C hne hc => ?_⟩
    rw [hbegin]
    exact h.ended (hclosed (hother c C hne hc)) (hother c C hne hc)
  · have hB' := hother b B hb hB
    have hC' := hother c C hc hC
    exact h.separate (hclosed hB') (hclosed hC') hne hB' hC'

/-- Blocks that are split up to an item are so up to a later one. -/
theorem Splits.mono (h : Splits i s) {j : Nat} (hij : i ≤ j) : Splits j s where
  sorted := h.sorted
  valid := h.valid
  unlinked := h.unlinked
  ended hne hc := (h.ended hne hc).trans hij
  opened hid := by
    obtain ⟨block, hblock, hle, hbefore⟩ := h.opened hid
    exact ⟨block, hblock, hle.trans hij, hbefore⟩
  separate := h.separate

end Split

open Split (Splits)

/-- The identifier of a value is a valid one. -/
theorem ofU256_ne_invalid {d : U256} {id : BlockId} (h : BlockId.ofU256 d = .ok id) : id ≠ BlockId.invalid := by
  unfold BlockId.ofU256 at h
  split at h
  · rename_i hlt
    cases h
    exact (hlt.trans (by decide : BlockId.initial < BlockId.invalid)).ne
  · cases h

section Item

variable {i : Nat} {item : AssemblyItem} {s t : Split}

/-- A block that is closed ends at the item. -/
theorem closeBlock_splits (h : Splits i s) : Splits i (closeBlock i item s) := by
  unfold closeBlock
  split
  · by_cases hid : s.id = BlockId.invalid
    · rw [if_neg (not_not.mpr hid), ← hid]
      exact h
    · rw [if_pos hid]
      exact h.modify_close hid le_rfl (f := fun block => { block with endIndex := i }) (fun _ => rfl) (fun _ => ⟨rfl, rfl⟩) fun _ => rfl
  · exact h

/-- A block that is opened begins at the item. -/
theorem openBlock_splits (h : Splits i s) (ht : openBlock i item s = .ok t) : Splits i t ∧ t.id ≠ BlockId.invalid := by
  have hopen : s.id = BlockId.invalid → ∀ u : Split,
      (pure (u.modify fun block => { block with beginIndex := i }) : Except OptimizerError Split) = .ok t →
      u.m_blocks = s.m_blocks → u.id ≠ BlockId.invalid → Splits i t ∧ t.id ≠ BlockId.invalid := by
    intro hid u ht hblocks huid
    cases ht
    exact ⟨h.reopen hid (f := fun block => { block with beginIndex := i }) huid (hblocks ▸ rfl) (fun _ => rfl) fun _ => ⟨rfl, rfl⟩, huid⟩
  unfold openBlock at ht
  split at ht
  · rename_i hid
    dsimp only at ht
    split at ht
    · simp only [bind_eq_ok] at ht
      obtain ⟨id, hid', u, hu, ht⟩ := ht
      cases hu
      exact hopen hid _ ht rfl (ofU256_ne_invalid hid')
    · rw [bind_eq_ok] at ht
      obtain ⟨u, hu, ht⟩ := ht
      unfold generateNewId at hu
      dsimp only at hu
      split at hu
      · rename_i hlt
        cases hu
        exact hopen hid _ ht rfl (hlt.trans (by decide : BlockId.initial < BlockId.invalid)).ne
      · cases hu
  · rename_i hid
    cases ht
    exact ⟨h, hid⟩

/-- Tags that are pushed change no bounds. -/
theorem pushTags_splits (h : Splits i s) (hid : s.id ≠ BlockId.invalid) (ht : pushTags item s = .ok t) :
    Splits i t ∧ t.id ≠ BlockId.invalid := by
  unfold pushTags at ht
  split at ht
  · rw [bind_eq_ok] at ht
    obtain ⟨tag, -, ht⟩ := ht
    cases ht
    exact ⟨h.modify hid (fun _ => rfl) fun _ => ⟨rfl, rfl⟩, hid⟩
  · cases ht
    exact ⟨h, hid⟩

/-- A block that is ended ends behind the item. -/
theorem endBlock_splits (h : Splits i s) (hid : s.id ≠ BlockId.invalid) : Splits (i + 1) (endBlock i item s) := by
  unfold endBlock
  split
  · exact h.modify_close hid (Nat.le_succ i) (f := fun block => { block with endIndex := i + 1, endType := endTypeOf item }) (fun _ => rfl)
      (fun _ => ⟨rfl, rfl⟩) fun _ => rfl
  · exact h.mono (Nat.le_succ i)

/-- An item splits the blocks before it from those behind it. -/
theorem splitItem_splits (h : Splits i s) (ht : splitItem i item s = .ok t) : Splits (i + 1) t := by
  unfold splitItem at ht
  simp only [bind_eq_ok] at ht
  obtain ⟨u, hu, v, hv, ht⟩ := ht
  cases ht
  obtain ⟨hu, huid⟩ := openBlock_splits (closeBlock_splits h) hu
  obtain ⟨hv, hvid⟩ := pushTags_splits hu huid hv
  exact endBlock_splits hv hvid

end Item

/-- The loop splits at each of the items. -/
theorem splitLoop_splits {items : List AssemblyItem} {i : Nat} {s t : Split} (h : Splits i s) (ht : splitLoop items i s = .ok t) :
    Splits (i + items.length) t := by
  induction items generalizing i s with
  | nil =>
    cases ht
    exact h
  | cons item items ih =>
    rw [splitLoop, bind_eq_ok] at ht
    obtain ⟨u, hu, ht⟩ := ht
    rw [List.length_cons, Nat.add_comm items.length, ← Nat.add_assoc]
    exact ih (splitItem_splits h hu) ht

/-- The blocks are not linked yet. -/
def Unlinked (m : Blocks) : Prop := ∀ id block, m.find id = some block → block.next = BlockId.invalid ∧ block.prev = BlockId.invalid

/-- The blocks are cut out of the items, and are not linked yet. -/
theorem splitBlocks_cut {items : List AssemblyItem} {lastUsedId : Nat} {m : Blocks} (h : splitBlocks items lastUsedId = .ok m) :
    Cut items.length m ∧ Unlinked m := by
  have hfirst : ∀ {id block}, (modify [] BlockId.initial fun block => { block with beginIndex := 0 }).find id = some block →
      id = BlockId.initial ∧ block = {} := by
    intro id block hb
    rw [find_modify] at hb
    split at hb
    · cases hb
      exact ⟨‹_›, rfl⟩
    · cases hb
  have hstart : Splits 0 ⟨modify [] BlockId.initial fun block => { block with beginIndex := 0 }, BlockId.initial, lastUsedId⟩ := by
    refine ⟨List.pairwise_singleton _ _, fun hb => ?_, fun hb => ?_, fun hne hb => absurd (hfirst hb).1 hne, fun _ => ?_,
      fun hb _ _ hB _ => absurd (hfirst hB).1 hb⟩
    · rw [(hfirst hb).1]
      decide
    · rw [(hfirst hb).2]
      exact ⟨rfl, rfl⟩
    · exact ⟨{}, rfl, le_rfl, fun c C hne hc => absurd (hfirst hc).1 hne⟩
  unfold splitBlocks at h
  rw [bind_eq_ok] at h
  obtain ⟨s, hs, h⟩ := h
  have hsplits := splitLoop_splits hstart hs
  rw [Nat.zero_add] at hsplits
  suffices hclosed : Splits items.length ⟨m, BlockId.invalid, s.m_lastUsedId⟩ from
    ⟨⟨hclosed.sorted, hclosed.valid, fun hb => hclosed.ended (hclosed.valid hb) hb,
      fun hne hB hC => hclosed.separate (hclosed.valid hB) (hclosed.valid hC) hne hB hC⟩, fun _ _ => hclosed.unlinked⟩
  split at h
  · rename_i hid
    cases h
    exact hsplits.modify_close hid le_rfl
      (f := fun block => { block with endIndex := items.length, endType := if block.endType = .HANDOVER then .STOP else block.endType })
      (fun _ => rfl) (fun _ => ⟨rfl, rfl⟩) fun _ => rfl
  · rename_i hid
    cases h
    rw [← not_not.mp hid]
    exact hsplits

/-! ## Linking -/

/-- What may differ once the links are resolved: the next block of one that hands over. -/
def Resolved (block block' : BasicBlock) : Prop :=
  block'.range = block.range ∧ block'.prev = block.prev ∧ (handsOver block' = false → block'.next = block.next)

/-- To resolve the next links changes nothing but these. -/
theorem resolveNextLinks_carries {m m' : Blocks} (hs : Sorted m) (h : resolveNextLinks m = .ok m') : Sorted m' ∧ Carries Resolved m m' := by
  have hall : List.Forall₂ (fun e e' => e'.1 = e.1 ∧ Resolved e.2 e'.2) m m' := by
    refine (forall₂_of_mapM h).imp fun e e' he => ?_
    by_cases hover : handsOver e.2 = true
    · rw [if_pos hover] at he
      split at he
      · cases he
      · cases he
        exact ⟨rfl, rfl, rfl, fun hstop => absurd (hover.symm.trans hstop) Bool.noConfusion⟩
    · rw [if_neg hover] at he
      cases he
      exact ⟨rfl, rfl, rfl, fun _ => rfl⟩
  clear h
  have hkeys : m'.map Prod.fst = m.map Prod.fst := by
    induction hall with
    | nil => rfl
    | cons he _ ih => rw [List.map_cons, List.map_cons, he.1, ih (List.pairwise_cons.mp hs).2]
  refine ⟨List.pairwise_map.mp (hkeys ▸ List.pairwise_map.mpr hs), ?_⟩
  clear hkeys hs
  intro id block' hb'
  induction hall with
  | nil => cases hb'
  | @cons e e' m m' he hall ih =>
    rw [Assoc.find_cons] at hb'
    rw [Assoc.find_cons, ← he.1]
    split at hb'
    · rename_i hk
      cases hb'
      exact ⟨e.2, if_pos hk, he.2⟩
    · rename_i hk
      rw [if_neg hk]
      exact ih hb'

/-- Only blocks that hand over have a next one. -/
def Stopped (m : Blocks) : Prop := ∀ id block, m.find id = some block → handsOver block = false → block.next = BlockId.invalid

/-- The links while blocks get their predecessors, where those for which `P` holds are done. -/
structure Linked (P : BlockId → Prop) (m : Blocks) : Prop where
  stopped : Stopped m
  prevs {c : BlockId} {C : BasicBlock} : m.find c = some C → C.prev ≠ BlockId.invalid →
    P C.prev ∧ ∃ B, m.find C.prev = some B ∧ B.next = c
  nexts {b : BlockId} {B : BasicBlock} : P b → m.find b = some B → handsOver B = true → ∃ C, m.find B.next = some C ∧ C.prev = b

/-- The links are inverse to each other. -/
def Inverse (m : Blocks) : Prop :=
  ∀ b c B C, m.find b = some B → m.find c = some C → (B.next = c ↔ C.prev = b)

/-- Links that are set for every block are inverse. -/
theorem Linked.inverse {P : BlockId → Prop} {n : Nat} {m : Blocks} (h : Linked P m) (hm : Cut n m) (hP : ∀ id block, m.find id = some block → P id) :
    Inverse m := by
  intro b c B C hB hC
  constructor
  · rintro rfl
    have hover : handsOver B = true := by
      by_contra hstop
      exact hm.valid hC (h.stopped b B hB (Bool.not_eq_true _ ▸ hstop))
    obtain ⟨C', hC', hprev⟩ := h.nexts (hP b B hB) hB hover
    cases hC.symm.trans hC'
    exact hprev
  · rintro rfl
    obtain ⟨-, B', hB', hnext⟩ := h.prevs hC (hm.valid hB)
    cases hB.symm.trans hB'
    exact hnext

/-- What setting the predecessor of a block leaves as it is. -/
def SameNext (block block' : BasicBlock) : Prop :=
  block'.range = block.range ∧ block'.next = block.next ∧ handsOver block' = handsOver block

theorem SameNext.refl (block : BasicBlock) : SameNext block block := ⟨rfl, rfl, rfl⟩

theorem SameNext.trans (a b c : BasicBlock) (h : SameNext a b) (h' : SameNext b c) : SameNext a c :=
  ⟨h'.1.trans h.1, h'.2.1.trans h.2.1, h'.2.2.trans h.2.2⟩

/-- What is cut stays so while nothing changes but the links back. -/
theorem Cut.of_sameNext {n : Nat} {m m' : Blocks} (h : Cut n m) (hs : Sorted m') (hm : Carries SameNext m m') : Cut n m' :=
  h.of_carries hs (hm.mono fun B B' (hr : SameNext B B') => by rw [hr.1]; exact PartOf.refl _)

/-- To set one link back links one block more. -/
theorem setPrevLink_linked {P : BlockId → Prop} {n : Nat} {m m' : Blocks} {id : BlockId} (hm : Cut n m) (h : Linked P m)
    (hm' : setPrevLink m id = .ok m') : Cut n m' ∧ Linked (fun b => P b ∨ b = id) m' ∧ Carries SameNext m m' := by
  unfold setPrevLink at hm'
  rw [bind_eq_ok] at hm'
  obtain ⟨B, hB, hm'⟩ := hm'
  rw [blockAt_eq_ok] at hB
  by_cases hover : handsOver B = true
  · rw [if_pos hover, bind_eq_ok] at hm'
    obtain ⟨N, hN, hm'⟩ := hm'
    rw [blockAt_eq_ok] at hN
    split at hm'
    · cases hm'
    rename_i hfree
    cases hm'
    have hcarries : Carries SameNext m (modify m B.next fun next => { next with prev := id }) :=
      Carries.modify SameNext.refl hN ⟨rfl, rfl, rfl⟩
    have hnext : (modify m B.next fun next => { next with prev := id }).find B.next = some { N with prev := id } := by
      rw [find_modify, if_pos rfl, hN, Option.getD_some]
    have hother : ∀ {c}, c ≠ B.next → (modify m B.next fun next => { next with prev := id }).find c = m.find c :=
      fun hne => (find_modify m B.next _ _).trans (if_neg hne)
    have hkeep : ∀ {b B₀}, m.find b = some B₀ →
        ∃ B', (modify m B.next fun next => { next with prev := id }).find b = some B' ∧ B'.next = B₀.next := by
      intro b B₀ hb
      rcases eq_or_ne b B.next with rfl | hne
      · cases hN.symm.trans hb
        exact ⟨_, hnext, rfl⟩
      · exact ⟨B₀, (hother hne).trans hb, rfl⟩
    refine ⟨hm.of_sameNext (hm.sorted.modify _ _) hcarries, ⟨?_, ?_, ?_⟩, hcarries⟩
    · intro c C hC hstop
      obtain ⟨C₀, hC₀, -, hsame, hhands⟩ := hcarries c C hC
      rw [hsame]
      exact h.stopped c C₀ hC₀ (hhands ▸ hstop)
    · intro c C hC hprev
      by_cases hne : c = B.next
      · cases hnext.symm.trans (hne ▸ hC)
        obtain ⟨B', hB', hsame⟩ := hkeep hB
        exact ⟨Or.inr rfl, B', hB', hsame.trans hne.symm⟩
      · obtain ⟨hP, B₀, hB₀, hc⟩ := h.prevs ((hother hne).symm.trans hC) hprev
        obtain ⟨B', hB', hsame⟩ := hkeep hB₀
        exact ⟨Or.inl hP, B', hB', hsame.trans hc⟩
    · intro b Bm hPb hBm hhands
      obtain ⟨B₀, hB₀, -, hsame, hsameHands⟩ := hcarries b Bm hBm
      rw [hsame]
      by_cases hid : b = id
      · cases hB.symm.trans (hid ▸ hB₀)
        exact ⟨_, hnext, hid.symm⟩
      · obtain ⟨C, hC, hprev⟩ := h.nexts (hPb.resolve_right hid) hB₀ (hsameHands ▸ hhands)
        have hne : B₀.next ≠ B.next := by
          intro he
          cases hN.symm.trans (he ▸ hC)
          exact hm.valid hB₀ (hprev.symm.trans (not_not.mp hfree))
        exact ⟨C, (hother hne).trans hC, hprev⟩
  · rw [if_neg hover] at hm'
    cases hm'
    refine ⟨hm, ⟨h.stopped, fun hC hprev => ?_, fun hPb hb hhands => ?_⟩, Carries.refl SameNext.refl m⟩
    · obtain ⟨hP, hrest⟩ := h.prevs hC hprev
      exact ⟨Or.inl hP, hrest⟩
    · rcases hPb with hPb | rfl
      · exact h.nexts hPb hb hhands
      · cases hB.symm.trans hb
        exact absurd hhands hover

/-- The variables of the second loop: the links are inverse to each other. -/
structure Joined (n : Nat) (m : Blocks) : Prop where
  cut : Cut n m
  stopped : Stopped m
  inverse : Inverse m

/-- Once all links back are set, the blocks are joined. -/
theorem setPrevLink_joined {n : Nat} {m m' : Blocks} (hm : Cut n m) (hstopped : Stopped m)
    (hprev : ∀ id block, m.find id = some block → block.prev = BlockId.invalid)
    (h : (m.map Prod.fst).foldlM setPrevLink m = .ok m') : Joined n m' := by
  obtain ⟨hcut, hlinked, hcarries⟩ := foldlM_invariant
    (P := fun k m' => Cut n m' ∧ Linked (· ∈ (m.map Prod.fst).take k) m' ∧ Carries SameNext m m')
    ⟨hm, ⟨hstopped, fun hC hne => absurd (hprev _ _ hC) hne, fun hP => absurd hP List.not_mem_nil⟩, Carries.refl SameNext.refl m⟩
    (fun k id m₁ m₂ hid ⟨hcut, hlinked, hcarries⟩ hstep => by
      obtain ⟨hcut, hlinked, hmore⟩ := setPrevLink_linked hcut hlinked hstep
      refine ⟨hcut, ?_, hcarries.trans SameNext.trans hmore⟩
      rw [List.take_add_one, hid]
      simpa using hlinked) h
  rw [List.take_length] at hlinked
  refine ⟨hcut, hlinked.stopped, hlinked.inverse hcut fun id block hb => ?_⟩
  obtain ⟨B, hB, -⟩ := hcarries id block hb
  exact List.mem_map_of_mem (f := Prod.fst) (Assoc.mem_of_find_eq_some hB)

/-- A block that ends with a jump gets the target as its next block, and loses the jump, or nothing is changed. -/
theorem linkJump_cases {items : List AssemblyItem} {turns : Nat} {m m' : Blocks} {id : BlockId}
    (h : linkJump items turns m id = .ok m') :
    m' = m ∨ ∃ nextId B N, m.find id = some B ∧ handsOver B = false ∧ m.find nextId = some N ∧ N.prev = BlockId.invalid ∧
      m' = modify (modify m nextId fun next => { next with prev := id }) id fun block => { block with
        next := nextId
        endIndex := block.endIndex - 2
        pushedTags := block.pushedTags.dropLast
        endType := .HANDOVER } := by
  unfold linkJump at h
  rw [bind_eq_ok] at h
  obtain ⟨B, hB, h⟩ := h
  rw [blockAt_eq_ok] at hB
  split at h
  · cases h
    exact Or.inl rfl
  rename_i hjump
  obtain ⟨hjump, -⟩ := not_or.mp hjump
  have hstop : handsOver B = false := by
    unfold handsOver
    rw [not_not.mp hjump]
    rfl
  split at h
  · cases h
  split at h
  · cases h
    exact Or.inl rfl
  rw [bind_eq_ok] at h
  obtain ⟨nextId, -, h⟩ := h
  split at h
  · cases h
    exact Or.inl rfl
  rename_i N hN
  split at h
  · cases h
    exact Or.inl rfl
  rename_i hfree
  rw [bind_eq_ok] at h
  obtain ⟨leads, -, h⟩ := h
  split at h
  · cases h
    exact Or.inl rfl
  split at h
  · cases h
  cases h
  exact Or.inr ⟨nextId, B, N, hB, hstop, hN, not_not.mp hfree, rfl⟩

/-- To link a jump keeps blocks joined. -/
theorem linkJump_joined {items : List AssemblyItem} {turns n : Nat} {m m' : Blocks} {id : BlockId} (hm : Joined n m)
    (h : linkJump items turns m id = .ok m') : Joined n m' := by
  rcases linkJump_cases h with rfl | ⟨nextId, B, N, hB, hstop, hN, hfree, rfl⟩
  · exact hm
  have hfind : ∀ c C', Assoc.find (modify (modify m nextId fun next => { next with prev := id }) id fun block => { block with
        next := nextId
        endIndex := block.endIndex - 2
        pushedTags := block.pushedTags.dropLast
        endType := .HANDOVER }) c = some C' →
      ∃ C, m.find c = some C ∧ C'.prev = (if c = nextId then id else C.prev) ∧ C'.next = (if c = id then nextId else C.next) ∧
        PartOf C'.range C.range ∧ (handsOver C' = false → c ≠ id ∧ handsOver C = false) := by
    intro c C' hC'
    obtain ⟨B₁, hB₁⟩ : ∃ B₁, (modify m nextId fun next => { next with prev := id }).find id = some B₁ := by
      rw [find_modify]
      split
      · exact ⟨_, rfl⟩
      · exact ⟨B, hB⟩
    obtain ⟨C₁, hC₁, rfl⟩ := of_find_modify hB₁ hC'
    obtain ⟨C, hC, rfl⟩ := of_find_modify hN hC₁
    refine ⟨C, hC, ?_⟩
    by_cases hnext : c = nextId
    · by_cases hid : c = id
      · simp only [if_pos hnext, if_pos hid]
        exact ⟨trivial, trivial, ⟨le_rfl, Nat.sub_le _ _⟩, fun hover => by cases hover⟩
      · simp only [if_pos hnext, if_neg hid]
        exact ⟨trivial, trivial, PartOf.refl _, fun hC => ⟨hid, hC⟩⟩
    · by_cases hid : c = id
      · simp only [if_neg hnext, if_pos hid]
        exact ⟨trivial, trivial, ⟨le_rfl, Nat.sub_le _ _⟩, fun hover => by cases hover⟩
      · simp only [if_neg hnext, if_neg hid]
        exact ⟨trivial, trivial, PartOf.refl _, fun hC => ⟨hid, hC⟩⟩
  refine ⟨hm.cut.of_carries ((hm.cut.sorted.modify _ _).modify _ _) fun c C' hC' => ?_, fun c C' hC' hC'stop => ?_,
    fun b c B' C' hB' hC' => ?_⟩
  · obtain ⟨C, hC, -, -, hwithin, -⟩ := hfind c C' hC'
    exact ⟨C, hC, hwithin⟩
  · obtain ⟨C, hC, -, hnext, -, hstops⟩ := hfind c C' hC'
    rw [hnext, if_neg (hstops hC'stop).1]
    exact hm.stopped c C hC (hstops hC'stop).2
  · obtain ⟨B₀, hB₀, -, hnext, -⟩ := hfind b B' hB'
    obtain ⟨C₀, hC₀, hprev, -⟩ := hfind c C' hC'
    rw [hnext, hprev]
    by_cases hid : b = id
    · rw [if_pos hid]
      cases hB.symm.trans (hid ▸ hB₀)
      by_cases hc : c = nextId
      · rw [if_pos hc]
        exact iff_of_true hc.symm hid.symm
      · -- before, the block had no next one
        rw [if_neg hc, ← hm.inverse b c B C₀ hB₀ hC₀, hm.stopped id B hB hstop]
        exact iff_of_false (Ne.symm hc) (hm.cut.valid hC₀).symm
    · rw [if_neg hid]
      by_cases hc : c = nextId
      · -- before, the target had no predecessor
        rw [if_pos hc, hm.inverse b c B₀ C₀ hB₀ hC₀]
        cases hN.symm.trans (hc ▸ hC₀)
        rw [hfree]
        exact iff_of_false (hm.cut.valid hB₀).symm (Ne.symm hid)
      · rw [if_neg hc]
        exact hm.inverse b c B₀ C₀ hB₀ hC₀

/-- With all links set, the blocks are joined. -/
theorem setPrevLinks_joined {items : List AssemblyItem} {turns n : Nat} {m m' : Blocks} (hm : Cut n m) (hstopped : Stopped m)
    (hprev : ∀ id block, m.find id = some block → block.prev = BlockId.invalid) (h : setPrevLinks items turns m = .ok m') :
    Joined n m' := by
  unfold setPrevLinks at h
  rw [bind_eq_ok] at h
  obtain ⟨m₁, h₁, h⟩ := h
  exact foldlM_invariant (P := fun _ => Joined n) (setPrevLink_joined hm hstopped hprev h₁)
    (fun _ _ _ _ _ hm hstep => linkJump_joined hm hstep) h

/-! ## Gathering knowledge -/

/-- What the knowledge about a block leaves as it is. -/
def Framed (block block' : BasicBlock) : Prop := block'.range = block.range ∧ block'.next = block.next ∧ block'.prev = block.prev

theorem Framed.refl (block : BasicBlock) : Framed block block := ⟨rfl, rfl, rfl⟩

theorem Framed.trans (a b c : BasicBlock) (h : Framed a b) (h' : Framed b c) : Framed a c :=
  ⟨h'.1.trans h.1, h'.2.1.trans h.2.1, h'.2.2.trans h.2.2⟩

/-- To gather knowledge changes no bounds and no links. -/
theorem gatherLoop_framed (sha3 : Bytes → U256) (n : Nat) (items : List AssemblyItem) (turns : Nat) (workQueue : List WorkQueueItem)
    (unknownJumpEncountered : Bool) {m : Blocks} (hm : Sorted m) (s : ExpressionClasses) :
    Runs (gatherLoop sha3 n items turns workQueue unknownJumpEncountered m) s (fun m' _ => Sorted m' ∧ Carries Framed m m')
      fun _ _ => True := by
  induction turns generalizing workQueue unknownJumpEncountered m s with
  | zero => exact trivial
  | succ turns ih =>
    cases workQueue with
    | nil => exact ⟨hm, Carries.refl Framed.refl m⟩
    | cons item workQueue =>
      rw [gatherLoop]
      split
      · exact trivial
      split
      · exact ih workQueue unknownJumpEncountered hm s
      rename_i block hblock
      refine runs_bind_of_forall (fun state s => ?_) fun _ _ => trivial
      cases state with
      | none => exact ih workQueue unknownJumpEncountered hm s
      | some state =>
        refine runs_bind_of_forall (fun fed s => ?_) fun _ _ => trivial
        have hstart : Carries Framed m (modify m item.blockId fun block => { block with startState := some state }) :=
          Carries.modify Framed.refl hblock ⟨rfl, rfl, rfl⟩
        have hfind : (modify m item.blockId fun block => { block with startState := some state }).find item.blockId =
            some { block with startState := some state } := by
          rw [find_modify, if_pos rfl, hblock, Option.getD_some]
        have hend : Carries Framed (modify m item.blockId fun block => { block with startState := some state })
            (modify (modify m item.blockId fun block => { block with startState := some state }) item.blockId
              fun block => { block with endState := some fed.2.2 }) := Carries.modify Framed.refl hfind ⟨rfl, rfl, rfl⟩
        refine (ih (fed.1.reverse ++ workQueue) fed.2.1 ((hm.modify _ _).modify _ _) s).mono (fun m' _ h => ?_) fun _ _ h => h
        exact ⟨h.1, (hstart.trans Framed.trans hend).trans Framed.trans h.2⟩

/-- Blocks within one frame are cut and linked alike. -/
theorem Joined.of_framed {n : Nat} {m m' : Blocks} (h : Joined n m) (hs : Sorted m') (hm : Carries Framed m m') :
    Cut n m' ∧ Inverse m' := by
  refine ⟨h.cut.of_carries hs (hm.mono fun B B' (hr : Framed B B') => by rw [hr.1]; exact PartOf.refl _), fun b c B' C' hB' hC' => ?_⟩
  obtain ⟨B, hB, -, hnext, -⟩ := hm b B' hB'
  obtain ⟨C, hC, -, -, hprev⟩ := hm c C' hC'
  rw [hnext, hprev]
  exact h.inverse b c B C hB hC

/-- All that is gathered keeps the frame. -/
theorem gatherKnowledge_framed {sha3 : Bytes → U256} {n turns : Nat} {items : List AssemblyItem} {m m' : Blocks} {s t : ExpressionClasses}
    (hm : Sorted m) (h : gatherKnowledge sha3 n items turns m s = .ok m' t) : Sorted m' ∧ Carries Framed m m' := by
  unfold gatherKnowledge at h
  rw [bind_eq_result_ok] at h
  obtain ⟨m₁, u, hm₁, h⟩ := h
  cases h
  obtain ⟨hs, hcarries⟩ := (gatherLoop_framed sha3 n items turns _ _ hm s).of_ok hm₁
  exact ⟨hs.filter _, hcarries.trans Framed.trans (Carries.filter Framed.refl hs _)⟩

/-! ## Rebuilding -/

/-- What adding a block leaves as it is: it may lose a tag at its start. -/
def Kept (block block' : BasicBlock) : Prop := PartOf block'.range block.range ∧ block'.next = block.next ∧ block'.prev = block.prev

theorem Kept.refl (block : BasicBlock) : Kept block block := ⟨PartOf.refl _, rfl, rfl⟩

theorem Kept.trans (a b c : BasicBlock) (h : Kept a b) (h' : Kept b c) : Kept a c :=
  ⟨h'.1.trans h.1, h'.2.1.trans h.2.1, h'.2.2.trans h.2.2⟩

/-- A tag that is skipped leaves a part of the block. -/
theorem skipTag_kept (items : List AssemblyItem) (previousHandedOver : Bool) (pushed : Nat) (block : BasicBlock) :
    Kept block (skipTag items previousHandedOver pushed block) := by
  unfold skipTag
  split
  · exact ⟨⟨Nat.le_succ _, le_rfl⟩, rfl, rfl⟩
  · exact Kept.refl block

/-- The blocks `D` have been added, of which the last one is the first, each behind its predecessor. -/
structure Added (m : Blocks) (D : List BlockId) (r : Rebuild) : Prop where
  kept : Carries Kept m r.m_blocks
  nodup : D.Nodup
  rest : r.blocksToAdd.Nodup ∧ ∀ id ∈ r.blocksToAdd, id ∉ D
  behind {c : BlockId} {C : BasicBlock} : c ∈ D → m.find c = some C → C.prev = BlockId.invalid ∨ C.prev ∈ D.tail
  parts : ∀ block ∈ r.blocks, ∃ id ∈ D, ∃ B, m.find id = some B ∧ PartOf block.range B.range
  separate : r.blocks.Pairwise fun block block' => Separate block.range block'.range

/-- Where a block is in `D`, so is the next one, or it is `cur`. -/
def Closed (m : Blocks) (D : List BlockId) (cur : BlockId) : Prop :=
  ∀ b B, b ∈ D → m.find b = some B → B.next = cur ∨ B.next = BlockId.invalid ∨ B.next ∈ D

/-- The block is not in `D`, but its predecessor is. -/
def Fresh (m : Blocks) (D : List BlockId) (cur : BlockId) : Prop :=
  ∀ C, m.find cur = some C → cur ∉ D ∧ (C.prev = BlockId.invalid ∨ C.prev ∈ D)

section Rebuild

variable {items : List AssemblyItem} {pushed : BlockId → Nat} {n : Nat} {m : Blocks} {D : List BlockId} {r r' : Rebuild} {cur : BlockId}

/-- A block that is not there yet can be added. -/
theorem addBlock_added (hm : Cut n m) (h : Added m D r) (hfresh : Fresh m D cur) {block : BasicBlock}
    (hblock : r.m_blocks.find cur = some block) : Added m (cur :: D) (addBlock items pushed cur block r) := by
  obtain ⟨B, hB, hkept⟩ := h.kept cur block hblock
  obtain ⟨hcur, hprev⟩ := hfresh B hB
  have hbehind : ∀ {c C}, c ∈ cur :: D → m.find c = some C → C.prev = BlockId.invalid ∨ C.prev ∈ (cur :: D).tail := by
    intro c C hc hC
    rcases List.mem_cons.mp hc with rfl | hc
    · cases hB.symm.trans hC
      exact hprev
    · exact (h.behind hc hC).imp_right List.mem_of_mem_tail
  have hrest : (r.blocksToAdd.erase cur).Nodup ∧ ∀ id ∈ r.blocksToAdd.erase cur, id ∉ cur :: D := by
    refine ⟨h.rest.1.erase cur, fun id hid hmem => ?_⟩
    obtain ⟨hne, hid⟩ := h.rest.1.mem_erase_iff.mp hid
    exact h.rest.2 id hid ((List.mem_cons.mp hmem).resolve_left hne)
  have hparts : ∀ block ∈ r.blocks, ∃ id ∈ cur :: D, ∃ B, m.find id = some B ∧ PartOf block.range B.range := by
    intro block hmem
    obtain ⟨id, hid, hpart⟩ := h.parts block hmem
    exact ⟨id, List.mem_cons_of_mem cur hid, hpart⟩
  unfold addBlock
  dsimp only
  split
  · exact ⟨h.kept, h.nodup.cons hcur, hrest, hbehind, hparts, h.separate⟩
  have hskip := skipTag_kept items r.previousHandedOver (pushed cur) block
  have hkept' : Carries Kept m (modify r.m_blocks cur fun _ => skipTag items r.previousHandedOver (pushed cur) block) :=
    h.kept.trans Kept.trans (Carries.modify Kept.refl hblock hskip)
  split
  · refine ⟨hkept', h.nodup.cons hcur, hrest, hbehind, fun added hmem => ?_, ?_⟩
    · rcases List.mem_append.mp hmem with hmem | hmem
      · exact hparts added hmem
      · rw [List.mem_singleton.mp hmem]
        exact ⟨cur, List.mem_cons_self, B, hB, hskip.1.trans hkept.1⟩
    · refine List.pairwise_append.mpr ⟨h.separate, List.pairwise_singleton _ _, fun old hold added hadded => ?_⟩
      rw [List.mem_singleton.mp hadded]
      obtain ⟨id, hid, A, hA, hwithin⟩ := h.parts old hold
      have hne : id ≠ cur := fun he => hcur (he ▸ hid)
      exact (hm.separate hne hA hB).mono hwithin (hskip.1.trans hkept.1)
  · exact ⟨hkept', h.nodup.cons hcur, hrest, hbehind, hparts, h.separate⟩

/-- A chain of blocks is added up to its end. -/
theorem addChain_added (hm : Cut n m) (hinverse : Inverse m) {turns : Nat} (h : Added m D r) (hfresh : Fresh m D cur) (hclosed : Closed m D cur)
    (hr : addChain items pushed turns cur r = .ok r') : ∃ D', Added m D' r' ∧ Closed m D' BlockId.invalid := by
  induction turns generalizing cur D r with
  | zero => cases hr
  | succ turns ih =>
    rw [addChain] at hr
    split at hr
    · rename_i hinvalid
      cases hr
      exact ⟨D, h, hinvalid ▸ hclosed⟩
    rw [bind_eq_ok] at hr
    obtain ⟨block, hblock, hr⟩ := hr
    rw [blockAt_eq_ok] at hblock
    obtain ⟨B, hB, -, hnext, -⟩ := h.kept cur block hblock
    obtain ⟨hcur, hprev⟩ := hfresh B hB
    have hadded : Added m (cur :: D) (addBlock items pushed cur block r) := addBlock_added hm h hfresh hblock
    rw [hnext] at hr
    refine ih hadded (fun C hC => ?_) (fun b B' hb hB' => ?_) hr
    · -- the block is the predecessor of the next one, which would stand behind it if it had been added before
      have hlink : C.prev = cur := (hinverse cur B.next B C hB hC).mp rfl
      refine ⟨fun hmem => ?_, Or.inr (hlink ▸ List.mem_cons_self)⟩
      rcases hadded.behind hmem hC with hnone | hin
      · exact hm.valid hB (hlink.symm.trans hnone)
      · exact hcur (hlink ▸ hin)
    · rcases List.mem_cons.mp hb with rfl | hb
      · cases hB.symm.trans hB'
        exact Or.inl rfl
      · rcases hclosed b B' hb hB' with he | he | he
        · exact Or.inr (Or.inr (he ▸ List.mem_cons_self))
        · exact Or.inr (Or.inl he)
        · exact Or.inr (Or.inr (List.mem_cons_of_mem cur he))

/-- The predecessors of a block that has not been added have not been added. -/
theorem firstBlock_fresh (hm : Cut n m) (hinverse : Inverse m) {turns : Nat} {id id' : BlockId} (h : Added m D r)
    (hclosed : Closed m D BlockId.invalid) (hid : ∀ C, m.find id = some C → id ∉ D) (hr : firstBlock r.m_blocks turns id = .ok id') :
    Fresh m D id' := by
  induction turns generalizing id with
  | zero => cases hr
  | succ turns ih =>
    rw [firstBlock, bind_eq_ok] at hr
    obtain ⟨block, hblock, hr⟩ := hr
    rw [blockAt_eq_ok] at hblock
    obtain ⟨B, hB, -, -, hprev⟩ := h.kept id block hblock
    split at hr
    · refine ih (fun P hP hmem => ?_) hr
      rw [hprev] at hP hmem
      have hlink : P.next = id := (hinverse B.prev id P B hP hB).mpr rfl
      rcases hclosed B.prev P hmem hP with he | he | he
      · exact hm.valid hB (hlink.symm.trans he)
      · exact hm.valid hB (hlink.symm.trans he)
      · exact hid B hB (hlink ▸ he)
    · rename_i hfirst
      cases hr
      intro C hC
      cases hB.symm.trans hC
      exact ⟨hid B hB, Or.inl (hprev.symm.trans (not_not.mp hfirst))⟩

/-- The loop adds each block once. -/
theorem rebuildLoop_added (hm : Cut n m) (hinverse : Inverse m) {turns : Nat} {blockId : BlockId} (h : Added m D r)
    (hclosed : Closed m D BlockId.invalid) (hid : blockId ∉ D) (hr : rebuildLoop items pushed turns blockId r = .ok r') :
    ∃ D', Added m D' r' := by
  induction turns generalizing blockId D r with
  | zero => cases hr
  | succ turns ih =>
    rw [rebuildLoop] at hr
    simp only [bind_eq_ok] at hr
    obtain ⟨first, hfirst, r₁, hr₁, hr⟩ := hr
    have hfresh := firstBlock_fresh hm hinverse h hclosed (fun _ _ => hid) hfirst
    have hstart : Added m D { r with previousHandedOver := blockId = BlockId.initial } := ⟨h.kept, h.nodup, h.rest, h.behind, h.parts, h.separate⟩
    have hclosed' : Closed m D first := fun b B hb hB => Or.inr ((hclosed b B hb hB).elim Or.inl fun he => he)
    obtain ⟨D', hadded, hclosed'⟩ := addChain_added hm hinverse hstart hfresh hclosed' hr₁
    split at hr
    · cases hr
      exact ⟨D', hadded⟩
    · rename_i id rest hrest
      exact ih hadded hclosed' (hadded.rest.2 id (hrest ▸ List.mem_cons_self)) hr

end Rebuild

/-- The blocks of the rebuilt code are separate. -/
theorem rebuildCode_separate {items : List AssemblyItem} {turns n : Nat} {m : Blocks} {blocks : List BasicBlock} (hm : Cut n m)
    (hinverse : Inverse m) (h : rebuildCode items turns m = .ok blocks) :
    (blocks.map BasicBlock.range).Pairwise Separate ∧ ∀ block ∈ blocks, block.endIndex ≤ n := by
  unfold rebuildCode at h
  rw [bind_eq_ok] at h
  obtain ⟨r, hr, h⟩ := h
  cases h
  have hstart : Added m [] ⟨m, m.map Prod.fst, false, []⟩ :=
    ⟨Carries.refl Kept.refl m, List.nodup_nil, ⟨hm.sorted.proper, fun _ _ => List.not_mem_nil⟩, fun hc => absurd hc List.not_mem_nil,
      fun _ hmem => absurd hmem List.not_mem_nil, .nil⟩
  obtain ⟨D, hadded⟩ := rebuildLoop_added hm hinverse hstart (fun _ _ hb => absurd hb List.not_mem_nil) List.not_mem_nil hr
  refine ⟨List.pairwise_map.mpr hadded.separate, fun block hmem => ?_⟩
  obtain ⟨id, -, B, hB, hwithin⟩ := hadded.parts block hmem
  exact hwithin.2.trans (hm.within hB)

/-- What is lifted fails or not as before. -/
theorem lift_eq_ok {α : Type} {x : Except OptimizerError α} {a : α} {s t : ExpressionClasses} (h : ExpressionClasses.lift x s = .ok a t) :
    x = .ok a := by
  cases x with
  | error e => cases h
  | ok b =>
    cases h
    rfl

/-- The blocks before the knowledge about them is gathered. -/
theorem linked_joined {items : List AssemblyItem} {turns lastUsedId : Nat} {m₁ m₂ m₃ m₄ : Blocks} (h₁ : splitBlocks items lastUsedId = .ok m₁)
    (h₂ : resolveNextLinks m₁ = .ok m₂) (h₃ : removeUnusedBlocks turns m₂ = .ok m₃) (h₄ : setPrevLinks items turns m₃ = .ok m₄) :
    Joined items.length m₄ := by
  obtain ⟨hcut, hunlinked⟩ := splitBlocks_cut h₁
  obtain ⟨hsorted, hresolved⟩ := resolveNextLinks_carries hcut.sorted h₂
  unfold removeUnusedBlocks at h₃
  rw [bind_eq_ok] at h₃
  obtain ⟨neededBlocks, -, h₃⟩ := h₃
  have hused : Carries Resolved m₁ m₃ := by
    cases h₃
    intro id block' hb'
    obtain ⟨block, hb, rfl⟩ := Carries.filter (R := fun block block' => block' = block) (fun _ => rfl) hsorted _ id block' hb'
    exact hresolved id _ hb
  have hsorted' : Sorted m₃ := by
    cases h₃
    exact hsorted.filter _
  have hcut' : Cut items.length m₃ :=
    hcut.of_carries hsorted' (hused.mono fun B B' (hr : Resolved B B') => by rw [hr.1]; exact PartOf.refl _)
  refine setPrevLinks_joined hcut' (fun id block hb hstop => ?_) (fun id block hb => ?_) h₄
  · obtain ⟨B, hB, -, -, hnext⟩ := hused id block hb
    exact (hnext hstop).trans (hunlinked id B hB).1
  · obtain ⟨B, hB, -, hprev, -⟩ := hused id block hb
    exact hprev.trans (hunlinked id B hB).2

/-- No two blocks have an item in common. -/
theorem optimisedBlocks_separate {sha3 : Bytes → U256} {n turns : Nat} {items : List AssemblyItem} {blocks : List BasicBlock}
    {s t : ExpressionClasses} (h : optimisedBlocks sha3 n turns items s = .ok blocks t) :
    (blocks.map BasicBlock.range).Pairwise Separate ∧ ∀ block ∈ blocks, block.endIndex ≤ items.length := by
  unfold optimisedBlocks at h
  split at h
  · cases h
    exact ⟨.nil, fun _ hmem => absurd hmem List.not_mem_nil⟩
  simp only [bind_eq_result_ok] at h
  obtain ⟨m, u, hm, m', v, hm', hblocks⟩ := h
  have hm := lift_eq_ok hm
  simp only [bind_eq_ok] at hm
  obtain ⟨lastUsedId, -, m₁, h₁, m₂, h₂, m₃, h₃, h₄⟩ := hm
  have hjoined := linked_joined h₁ h₂ h₃ h₄
  obtain ⟨hsorted, hframed⟩ := gatherKnowledge_framed hjoined.cut.sorted hm'
  obtain ⟨hcut, hinverse⟩ := hjoined.of_framed hsorted hframed
  exact rebuildCode_separate hcut hinverse (lift_eq_ok hblocks)

end ControlFlowGraph

end Webthree
