import Mathlib.Tactic.Linarith
import Webthree.Lemmas.BlockChain

/-!
# The index of blooms

The index as the function from chunks and offsets to blooms that a query reads, whether from the memo or from the database; and
that clearing the blooms of the blocks from some number on keeps what is there for the blocks before.
-/

namespace Webthree

namespace LogBloom

theorem contains_iff {a b : LogBloom} : a.contains b = true ↔ ∀ i, b.getLsbD i = true → a.getLsbD i = true := by
  rw [contains, decide_eq_true_iff]
  constructor
  · intro h i hi
    rw [← h, BitVec.getLsbD_and, Bool.and_eq_true] at hi
    exact hi.1
  · intro h
    refine BitVec.eq_of_getLsbD_eq fun i _ => ?_
    rw [BitVec.getLsbD_and]
    cases hb : b.getLsbD i with
    | false => exact Bool.and_false _
    | true => rw [h i hb]; rfl

theorem contains_self (a : LogBloom) : a.contains a = true := contains_iff.mpr fun _ h => h

theorem contains_trans {a b c : LogBloom} (h : a.contains b = true) (h' : b.contains c = true) : a.contains c = true :=
  contains_iff.mpr fun i hi => contains_iff.mp h i (contains_iff.mp h' i hi)

theorem contains_or_left {a b : LogBloom} (x : LogBloom) (h : a.contains b = true) : (a ||| x).contains b = true := by
  refine contains_iff.mpr fun i hi => ?_
  rw [BitVec.getLsbD_or, contains_iff.mp h i hi]
  rfl

theorem contains_or_right (a : LogBloom) {x b : LogBloom} (h : x.contains b = true) : (a ||| x).contains b = true := by
  rw [BitVec.or_comm]
  exact contains_or_left a h

theorem contains_foldl {a b : LogBloom} {l : List LogBloom} (h : a.contains b = true ∨ ∃ x ∈ l, x.contains b = true) :
    (l.foldl (· ||| ·) a).contains b = true := by
  induction l generalizing a with
  | nil =>
    rcases h with h | ⟨x, hx, -⟩
    · exact h
    · exact absurd hx List.not_mem_nil
  | cons y l ih =>
    refine ih ?_
    rcases h with h | ⟨x, hx, h⟩
    · exact Or.inl (contains_or_left y h)
    · rcases List.mem_cons.mp hx with rfl | hx
      · exact Or.inl (contains_or_right a h)
      · exact Or.inr ⟨x, hx, h⟩

end LogBloom

/-! ## Chunks -/

theorem chunkId_inj {level i j : Nat} (hi : i < 2 ^ 28) (hj : j < 2 ^ 28) (h : chunkId level i = chunkId level j) : i = j := by
  unfold chunkId at h
  omega

/-- No chunk of the one level is one of the other. -/
theorem chunkId_zero_ne_one {i j : Nat} (hi : i < 2 ^ 28) (hj : j < 2 ^ 24) : chunkId 0 i ≠ chunkId 1 j := by
  unfold chunkId
  intro h
  obtain ⟨k, hk⟩ : ∃ k : Int, 255 * (i : Int) = 255 * j + 1 + 4294967296 * k :=
    ⟨(i * 255 / 4294967296 : Nat) - ((j * 255 + 1) / 4294967296 : Nat), by omega⟩
  -- 16843009 times 255 is 2 ^ 32 - 1
  obtain ⟨m, hm⟩ : ∃ m : Int, (i : Int) - j + 16843009 = 4294967296 * m := ⟨i - j - 16843009 * k, by linarith⟩
  rcases Int.lt_or_le m 1 with h' | h'
  · omega
  · omega

theorem bloomOffset_inj {i j : Nat} (h : bloomOffset i = bloomOffset j) : i % 16 = j % 16 := congrArg Fin.val h

namespace BlockChain

variable {E : ChainError → BlockChain → Prop}

theorem bloomPlaces_eq (n : Nat) :
    bloomPlaces n = [(chunkId 0 (n / 16), bloomOffset n), (chunkId 1 (n / 16 / 16), bloomOffset (n / 16))] := by
  have h : (List.range c_bloomIndexLevels) = [0, 1] := rfl
  simp [bloomPlaces, bloomIndices, h, c_bloomIndexSize]

/-- A chunk that the memo lacks is not in the database. -/
def Warm (c : BlockChain) (id : Nat) : Prop := c.m_blocksBlooms id = none → c.m_extrasDB.blocksBlooms id = none

theorem Warm.memoBlooms {c : BlockChain} {id : Nat} (h : Warm c id) : c.memoBlooms id = c.bloomsOf id := by
  rw [BlockChain.memoBlooms, bloomsOf]
  cases hm : c.m_blocksBlooms id with
  | some bb => rfl
  | none => rw [h hm]; rfl

/-- After the query for a chunk, the memo has it if the database does. -/
theorem blocksBlooms_warm (c : BlockChain) (id : Nat) : Runs (blocksBlooms id) c (fun _ c' => Warm c' id) E := by
  rw [blocksBlooms, queryExtras, runs_bind, runs_get]
  cases hm : c.m_blocksBlooms id with
  | some bb =>
    intro h
    rw [hm] at h
    cases h
  | none =>
    cases hdb : c.m_extrasDB.blocksBlooms id with
    | none => exact fun _ => hdb
    | some bb =>
      intro h
      simp only [Function.update_self] at h
      cases h

theorem Warm.recalled {c c' : BlockChain} {id : Nat} (h : Warm c id) (hr : Recalled c c') : Warm c' id := by
  intro hm
  rw [hr.extrasDB]
  rcases hr.blooms id with heq | ⟨-, heq⟩
  · exact h (heq.symm.trans hm)
  · exact heq.symm.trans hm

theorem Warm.setBloom {c : BlockChain} {id id' : Nat} (h : Warm c id) (off : Fin c_bloomIndexSize) (x : LogBloom) :
    Warm (setBloom id' off x c) id := by
  intro hm
  by_cases hid : id = id'
  · subst hid
    simp only [BlockChain.setBloom, Function.update_self] at hm
    cases hm
  · simp only [BlockChain.setBloom, Function.update_of_ne hid] at hm
    exact h hm

theorem bloomsOf_setBloom {c : BlockChain} {id : Nat} (h : Warm c id) (off : Fin c_bloomIndexSize) (x : LogBloom) (id' : Nat)
    (off' : Fin c_bloomIndexSize) :
    (setBloom id off x c).bloomsOf id' off' = if id' = id ∧ off' = off then x else c.bloomsOf id' off' := by
  rw [bloomsOf, setBloom]
  by_cases hid : id' = id
  · subst hid
    simp only [Function.update_self, true_and]
    rw [Option.some_or, Option.getD_some, h.memoBlooms]
    by_cases hoff : off' = off
    · rw [hoff, Function.update_self, if_pos rfl]
    · rw [Function.update_of_ne hoff, if_neg hoff]
  · simp only [Function.update_of_ne hid, hid, false_and, if_false]
    rfl

/-- Only the memo of the blooms has changed. -/
structure BloomsOnly (c c' : BlockChain) : Prop where
  blocksDB : c'.m_blocksDB = c.m_blocksDB
  extrasDB : c'.m_extrasDB = c.m_extrasDB
  details : c'.m_details = c.m_details
  hashes : c'.m_blockHashes = c.m_blockHashes
  addresses : c'.m_transactionAddresses = c.m_transactionAddresses
  lastHash : c'.m_lastBlockHash = c.m_lastBlockHash
  lastNumber : c'.m_lastBlockNumber = c.m_lastBlockNumber

theorem BloomsOnly.refl (c : BlockChain) : BloomsOnly c c := ⟨rfl, rfl, rfl, rfl, rfl, rfl, rfl⟩

theorem BloomsOnly.trans {c₁ c₂ c₃ : BlockChain} (h : BloomsOnly c₁ c₂) (h' : BloomsOnly c₂ c₃) : BloomsOnly c₁ c₃ :=
  ⟨h'.blocksDB.trans h.blocksDB, h'.extrasDB.trans h.extrasDB, h'.details.trans h.details, h'.hashes.trans h.hashes,
    h'.addresses.trans h.addresses, h'.lastHash.trans h.lastHash, h'.lastNumber.trans h.lastNumber⟩

theorem setBloom_only (id : Nat) (off : Fin c_bloomIndexSize) (x : LogBloom) (c : BlockChain) : BloomsOnly c (setBloom id off x c) :=
  ⟨rfl, rfl, rfl, rfl, rfl, rfl, rfl⟩

/-- All about the query for a chunk. -/
theorem blocksBlooms_spec (c : BlockChain) (id : Nat) :
    Runs (blocksBlooms id) c (fun bb c' => bb = c.bloomsOf id ∧ BloomsOnly c c' ∧ c'.bloomsOf = c.bloomsOf ∧ Warm c' id ∧
      (∀ id', Warm c id' → Warm c' id') ∧ ∀ id', id' ≠ id → c'.m_blocksBlooms id' = c.m_blocksBlooms id') E := by
  have honly : Runs (blocksBlooms id) c (fun _ c' => BloomsOnly c c' ∧
      ∀ id', id' ≠ id → c'.m_blocksBlooms id' = c.m_blocksBlooms id') E := by
    refine (queryExtras_runs (E := E)
      (R := fun c' => BloomsOnly c c' ∧ ∀ id', id' ≠ id → c'.m_blocksBlooms id' = c.m_blocksBlooms id')
      ⟨BloomsOnly.refl c, fun _ _ => rfl⟩ fun x _ _ => ⟨⟨rfl, rfl, rfl, rfl, rfl, rfl, rfl⟩, fun id' hid => ?_⟩).mono
      (fun _ _ h => h.2) fun _ _ h => h
    exact Function.update_of_ne hid _ _
  refine (((blocksBlooms_runs (E := E) c id).and (blocksBlooms_warm (E := E) c id)).and honly).mono ?_ fun _ _ h => h.2
  intro bb c' h
  obtain ⟨⟨⟨hbb, hr⟩, hw⟩, ho, hid⟩ := h
  exact ⟨hbb, ho, funext hr.bloomsOf, hw, fun id' h => h.recalled hr, hid⟩

/-- Going over a list keeps what every turn keeps. -/
theorem each_runs {β : Type} {f : β → ChainM Unit} {l : List β} {I : BlockChain → Prop} {c : BlockChain} (hc : I c)
    (hf : ∀ x ∈ l, ∀ c, I c → Runs (f x) c (fun _ c' => I c') E) : Runs (each f l) c (fun _ c' => I c') E := by
  induction l generalizing c with
  | nil => exact hc
  | cons x l ih =>
    rw [each, runs_bind]
    refine (hf x List.mem_cons_self c hc).mono (fun _ c' hc' => ?_) fun _ _ h => h
    exact ih hc' fun y hy => hf y (List.mem_cons_of_mem _ hy)

/-! ## Clearing -/

/-- The bits are in all the places of the block with this number. -/
def Covers (c : BlockChain) (n : Nat) (bits : LogBloom) : Prop := ∀ p ∈ bloomPlaces n, (c.bloomsOf p.1 p.2).contains bits = true

theorem covers_iff {c : BlockChain} {n : Nat} {bits : LogBloom} :
    Covers c n bits ↔ (c.bloomsOf (chunkId 0 (n / 16)) (bloomOffset n)).contains bits = true ∧
      (c.bloomsOf (chunkId 1 (n / 16 / 16)) (bloomOffset (n / 16))).contains bits = true := by
  rw [Covers, bloomPlaces_eq]
  simp

theorem accumulate_contains {bb : BlocksBlooms} {off : Fin c_bloomIndexSize} {bits : LogBloom} (h : (bb off).contains bits = true) :
    (accumulate bb).contains bits = true :=
  LogBloom.contains_foldl (Or.inr ⟨bb off, List.mem_ofFn.mpr ⟨off, rfl⟩, h⟩)

theorem clearItem_runs (c : BlockChain) (level item : Nat) :
    Runs (clearItem level item) c (fun _ c' => BloomsOnly c c' ∧ ∀ id off, c'.bloomsOf id off =
      if id = chunkId level (item / 16) ∧ off = bloomOffset item then
        if level = 0 then 0 else accumulate (c.bloomsOf (chunkId (level - 1) item))
      else c.bloomsOf id off) E := by
  have hrest : ∀ (acc : LogBloom) (c₁ : BlockChain), BloomsOnly c c₁ → c₁.bloomsOf = c.bloomsOf →
      acc = (if level = 0 then 0 else accumulate (c.bloomsOf (chunkId (level - 1) item))) →
      Runs (do
        let _ ← blocksBlooms (chunkId level (item / c_bloomIndexSize))
        modify (setBloom (chunkId level (item / c_bloomIndexSize)) (bloomOffset item) acc)) c₁
        (fun _ c' => BloomsOnly c c' ∧ ∀ id off, c'.bloomsOf id off =
          if id = chunkId level (item / 16) ∧ off = bloomOffset item then
            if level = 0 then 0 else accumulate (c.bloomsOf (chunkId (level - 1) item))
          else c.bloomsOf id off) E := by
    intro acc c₁ ho heq hacc
    rw [runs_bind]
    refine (blocksBlooms_spec c₁ _).mono ?_ fun _ _ h => h
    intro _ c₂ h
    obtain ⟨-, ho₂, heq₂, hw, -, -⟩ := h
    refine ⟨(ho.trans ho₂).trans (setBloom_only _ _ _ _), fun id off => ?_⟩
    rw [bloomsOf_setBloom hw, heq₂, heq, hacc]
    rfl
  rw [clearItem]
  by_cases hl : level = 0
  · rw [if_pos hl, runs_bind, runs_pure]
    exact hrest 0 c (BloomsOnly.refl c) rfl (by rw [if_pos hl])
  · rw [if_neg hl, runs_bind]
    refine (blocksBlooms_spec c _).mono ?_ fun _ _ h => h
    intro bb c₁ h
    obtain ⟨rfl, ho, heq, -, -, -⟩ := h
    rw [runs_bind, runs_pure]
    exact hrest _ c₁ ho heq (by rw [if_neg hl])

/-- The blooms of the blocks before the range that is cleared are kept. -/
theorem clearBlockBlooms_runs (c : BlockChain) {s t : Nat} (ht : t ≤ 2 ^ 32) :
    Runs (clearBlockBlooms s t) c (fun _ c' => BloomsOnly c c' ∧
      ∀ n < s, ∀ bits, n < 2 ^ 32 → Covers c n bits → Covers c' n bits) E := by
  have hoff : ∀ i j, bloomOffset i = bloomOffset j → i / 16 = j / 16 → i = j := by
    intro i j h h'
    have := bloomOffset_inj h
    omega
  rw [clearBlockBlooms, c_bloomIndexLevels, clearLevels, runs_bind]
  refine (each_runs (I := fun c' => BloomsOnly c c' ∧ ∀ n < s, ∀ bits, n < 2 ^ 32 → Covers c n bits → Covers c' n bits)
    ⟨BloomsOnly.refl c, fun _ _ _ _ h => h⟩ ?_).mono ?_ fun _ _ h => h
  · intro item hitem c₁ h₁
    rw [List.mem_range'_1] at hitem
    refine (clearItem_runs c₁ 0 item).mono (fun _ c₂ h₂ => ⟨h₁.1.trans h₂.1, fun n hn bits hb hcov => ?_⟩) fun _ _ h => h
    obtain ⟨hlow, hhigh⟩ := covers_iff.mp (h₁.2 n hn bits hb hcov)
    refine covers_iff.mpr ⟨?_, ?_⟩
    · rw [h₂.2, if_neg]
      · exact hlow
      · intro h
        have := hoff n item h.2 (chunkId_inj (by omega) (by omega) h.1)
        omega
    · rw [h₂.2, if_neg]
      · exact hhigh
      · exact fun h => chunkId_zero_ne_one (by omega) (by omega) h.1.symm
  · intro _ c₁ h₁
    rw [clearLevels, runs_bind]
    refine (each_runs (I := fun c' => BloomsOnly c c' ∧ ∀ n < s, ∀ bits, n < 2 ^ 32 → Covers c n bits → Covers c' n bits)
      h₁ ?_).mono (fun _ _ h => h) fun _ _ h => h
    intro item hitem c₂ h₂
    rw [List.mem_range'_1] at hitem
    simp only [c_bloomIndexSize] at hitem
    refine (clearItem_runs c₂ 1 item).mono (fun _ c₃ h₃ => ⟨h₂.1.trans h₃.1, fun n hn bits hb hcov => ?_⟩) fun _ _ h => h
    obtain ⟨hlow, hhigh⟩ := covers_iff.mp (h₂.2 n hn bits hb hcov)
    refine covers_iff.mpr ⟨?_, ?_⟩
    · rw [h₃.2, if_neg]
      · exact hlow
      · exact fun h => chunkId_zero_ne_one (by omega) (by omega) h.1
    · rw [h₃.2]
      split
      · -- the chunk is rebuilt from the finer one, which has the bits
        rename_i h
        have hitem' := hoff (n / 16) item h.2 (chunkId_inj (by omega) (by omega) h.1)
        rw [if_neg one_ne_zero, Nat.sub_self, ← hitem']
        exact accumulate_contains hlow
      · exact hhigh

end BlockChain

end Webthree
