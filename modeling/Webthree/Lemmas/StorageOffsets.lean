import Webthree.Lib.Packing
import Webthree.Libsolidity.StorageOffsets

/-!
# Positions in storage, as addresses of bytes

The bytes of storage are counted through the slots. Then the loop over the types packs items into blocks of 32 bytes, and what it
keeps is the first address behind them.
-/

namespace Webthree

namespace Libsolidity

open Packing

/-- The number of bytes that a type takes: whole slots, if it takes more than one. -/
def StorageType.extent (t : StorageType) : Nat := if t.storageSize = 1 then t.storageBytes else 32 * t.storageSize.toNat

/-- What is to be placed of a type. -/
def StorageType.item (t : StorageType) : Option Nat := if t.canBeStored then some t.extent else none

theorem StorageType.toNat_eq_one {t : StorageType} : t.storageSize = 1 ↔ t.storageSize.toNat = 1 :=
  ⟨fun h => by rw [h]; rfl, fun h => BitVec.eq_of_toNat_eq h⟩

/-- A type is of one slot, or of several whole ones. -/
theorem StorageType.extent_cases (t : StorageType) :
    (t.storageSize.toNat = 1 ∧ t.extent = t.storageBytes) ∨
      (1 < t.storageSize.toNat ∧ t.storageBytes = 32 ∧ t.extent = 32 * t.storageSize.toNat) := by
  have hpos := t.size_pos
  by_cases hone : t.storageSize = 1
  · exact .inl ⟨toNat_eq_one.mp hone, if_pos hone⟩
  · have hmany : 1 < t.storageSize.toNat := by
      have hne := mt toNat_eq_one.mpr hone
      omega
    exact .inr ⟨hmany, t.bytes_of_size hmany, if_neg hone⟩

theorem StorageType.placeable (t : StorageType) : t.extent ≤ 32 ∨ 32 ∣ t.extent := by
  rcases t.extent_cases with ⟨-, hextent⟩ | ⟨-, -, hextent⟩
  · exact .inl (hextent ▸ t.bytes_le)
  · exact .inr (hextent ▸ Nat.dvd_mul_right _ _)

theorem placeable_items (types : List StorageType) : Placeable 32 (types.map StorageType.item) := by
  intro n hn
  obtain ⟨t, -, ht⟩ := List.mem_map.mp hn
  rw [StorageType.item] at ht
  split at ht
  · rw [← Option.some.inj ht]
    exact t.placeable
  · cases ht

/-- What is placed at an address lies in one slot, or begins with one. -/
theorem fits_extent {t : StorageType} {a : Nat} (h : Fits 32 a t.extent) :
    (t.storageSize.toNat = 1 ∧ a % 32 + t.storageBytes ≤ 32) ∨ (1 < t.storageSize.toNat ∧ a % 32 = 0) := by
  have hbytes := t.bytes_pos
  have hle := t.bytes_le
  rcases t.extent_cases with ⟨hone, hextent⟩ | ⟨hmany, -, hextent⟩
  · refine .inl ⟨hone, ?_⟩
    rcases h with h | ⟨h, -⟩ <;> omega
  · refine .inr ⟨hmany, ?_⟩
    rcases h with h | ⟨h, -⟩ <;> omega

/-- The slot behind a type that is placed at an address is the first one that begins behind it. -/
theorem slot_behind {t : StorageType} {a : Nat} (h : Fits 32 a t.extent) :
    a / 32 + t.storageSize.toNat = (a + t.extent + 31) / 32 := by
  have hbytes := t.bytes_pos
  rcases fits_extent h with ⟨hone, hroom⟩ | ⟨hmany, hmod⟩
  · rcases t.extent_cases with ⟨-, hextent⟩ | ⟨hmany, -, -⟩
    · omega
    · omega
  · rcases t.extent_cases with ⟨hone, -⟩ | ⟨-, -, hextent⟩
    · omega
    · omega

namespace StorageOffsets

/-- A position as it is written. -/
def written (a : Nat) : U256 × Nat := (BitVec.ofNat 256 (a / 32), a % 32)

namespace Cursor

/-- The address of the cursor. -/
def address (c : Cursor) : Nat := 32 * c.slotOffset + c.byteOffset

theorem room_eq {c : Cursor} (hc : c.byteOffset ≤ 32) (t : StorageType) :
    32 * (c.room t).1 + (c.room t).2 = firstFit 32 c.address t.extent ∧ (c.room t).2 < 32 := by
  have hbytes := t.bytes_pos
  have hle := t.bytes_le
  unfold room
  rcases Nat.lt_or_eq_of_le hc with hlt | heq
  · have hmod : c.address % 32 = c.byteOffset := by
      rw [address]
      omega
    split
    · -- what is left of the slot is too little
      rename_i hover
      have hne : c.address % 32 ≠ 0 := by omega
      have hnofit : ¬ c.address % 32 + t.extent ≤ 32 := by
        rcases t.extent_cases with ⟨-, h⟩ | ⟨h₁, h₂, h₃⟩ <;> omega
      rw [firstFit, if_neg hnofit, nextBlock_of_mod (by decide) hne, address]
      omega
    · rename_i hroom
      refine ⟨?_, hlt⟩
      rw [firstFit]
      split
      · rfl
      · -- whole slots begin where one does
        rename_i hnofit
        have hzero : c.byteOffset = 0 := by
          rcases t.extent_cases with ⟨-, h⟩ | ⟨h₁, h₂, h₃⟩ <;> omega
        rw [nextBlock_of_dvd (by decide) (Nat.dvd_of_mod_eq_zero (hmod.trans hzero)), address]
  · have hmod : c.address % 32 = 0 := by
      rw [address]
      omega
    have hover : c.byteOffset + t.storageBytes > 32 := by omega
    rw [if_pos hover, firstFit]
    split
    · rw [address]
      omega
    · rw [nextBlock_of_dvd (by decide) (Nat.dvd_of_mod_eq_zero hmod), address]
      omega

theorem behind_eq {t : StorageType} {slot byte : Nat} (h : Fits 32 (32 * slot + byte) t.extent) (hbyte : byte < 32) :
    32 * (behind t slot byte).1 + (behind t slot byte).2 = 32 * slot + byte + t.extent ∧ (behind t slot byte).2 ≤ 32 := by
  have hfits := fits_extent h
  rw [behind]
  rcases t.extent_cases with ⟨hone, hextent⟩ | ⟨hmany, -, hextent⟩
  · have hroom : byte + t.storageBytes ≤ 32 := by omega
    rw [if_pos ⟨StorageType.toNat_eq_one.mpr hone, hroom⟩]
    omega
  · have hne : ¬ (t.storageSize = 1 ∧ byte + t.storageBytes ≤ 32) := fun h => by
      have := StorageType.toNat_eq_one.mp h.1
      omega
    rw [if_neg hne]
    omega

/-- The types of a list have been placed, and the cursor is behind them. -/
structure Places (c : Cursor) (types : List StorageType) (start : Nat → Option Nat) : Prop where
  packed : Packed 32 (types.map StorageType.item) start c.address
  byte_le : c.byteOffset ≤ 32
  offsets_eq : ∀ i, c.offsets i = (start i).map written
  slot_lt : ∀ i a, start i = some a → a / 32 < 2 ^ 256

/-- The list does not fit into storage. -/
def TooLarge (types : List StorageType) : Prop :=
  ∃ start stop, Packed 32 (types.map StorageType.item) start stop ∧ 32 * 2 ^ 256 < stop

theorem Places.step {c : Cursor} {types : List StorageType} {start : Nat → Option Nat} (h : Places c types start) (t : StorageType) :
    (∃ c' start', c.step types.length t = .ok c' ∧ Places c' (types ++ [t]) start') ∨
      (c.step types.length t = .error .TypeError ∧ TooLarge (types ++ [t])) := by
  have hitems : (types ++ [t]).map StorageType.item = types.map StorageType.item ++ [t.item] := by simp
  by_cases hstored : t.canBeStored = true
  · obtain ⟨hroom, hbyte⟩ := room_eq h.byte_le t
    have hitem : t.item = some t.extent := if_pos hstored
    have hpacked := h.packed.add (by decide) t.placeable
    have hlength : (types.map StorageType.item).length = types.length := List.length_map _
    have hfits : Fits 32 (32 * (c.room t).1 + (c.room t).2) t.extent := by
      rw [hroom]
      exact (isLeast_firstFit (by decide) _ t.placeable).1.2
    obtain ⟨hbehind, hbehindle⟩ := behind_eq hfits hbyte
    rw [← hitem, ← hitems, hlength, ← hroom, ← hbehind] at hpacked
    have hsize : ¬ t.storageSize < 1 := fun hlt => by
      have hpos := t.size_pos
      have hzero : t.storageSize.toNat < 1 := hlt
      omega
    have hnot : ¬ (!t.canBeStored) = true := by simp [hstored]
    by_cases hlarge : 2 ^ 256 ≤ (c.room t).1
    · have hstep : c.step types.length t = .error .TypeError := by
        rw [Cursor.step, if_neg hnot]
        exact if_pos hlarge
      refine .inr ⟨hstep, _, _, hpacked, ?_⟩
      have hextent : 0 < t.extent := by
        have hbytes := t.bytes_pos
        rcases t.extent_cases with ⟨-, hextent⟩ | ⟨hmany, -, hextent⟩ <;> omega
      omega
    · have hstep : c.step types.length t = .ok ⟨(behind t (c.room t).1 (c.room t).2).1, (behind t (c.room t).1 (c.room t).2).2,
          Function.update c.offsets types.length (some (BitVec.ofNat 256 (c.room t).1, (c.room t).2))⟩ := by
        rw [Cursor.step, if_neg hnot]
        dsimp only
        rw [if_neg hlarge, if_neg hsize]
      refine .inl ⟨_, _, hstep, hpacked, hbehindle, fun i => ?_, fun i a ha => ?_⟩
      · dsimp only
        by_cases hi : i = types.length
        · subst hi
          have hdiv : (32 * (c.room t).1 + (c.room t).2) / 32 = (c.room t).1 := by omega
          have hmod : (32 * (c.room t).1 + (c.room t).2) % 32 = (c.room t).2 := by omega
          rw [Function.update_self, Function.update_self, Option.map_some, written, hdiv, hmod]
        · rw [Function.update_of_ne hi, Function.update_of_ne hi, h.offsets_eq]
      · by_cases hi : i = types.length
        · subst hi
          rw [Function.update_self, Option.some.injEq] at ha
          omega
        · rw [Function.update_of_ne hi] at ha
          exact h.slot_lt i a ha
  · have hitem : t.item = none := if_neg hstored
    have hskip := h.packed.skip
    rw [← hitem, ← hitems] at hskip
    exact .inl ⟨c, start, by simp [Cursor.step, hstored], hskip, h.byte_le, h.offsets_eq, h.slot_lt⟩

theorem TooLarge.append {types : List StorageType} (h : TooLarge types) (more : List StorageType) : TooLarge (types ++ more) := by
  obtain ⟨start, stop, hpacked, hlt⟩ := h
  obtain ⟨start', stop', hpacked', hle⟩ := hpacked.exists_append (by decide) (placeable_items more)
  rw [← List.map_append] at hpacked'
  exact ⟨start', stop', hpacked', by omega⟩

theorem Places.loop {c : Cursor} {types : List StorageType} {start : Nat → Option Nat} (h : Places c types start)
    (more : List StorageType) :
    (∃ c' start', c.loop types.length more = .ok c' ∧ Places c' (types ++ more) start') ∨
      (c.loop types.length more = .error .TypeError ∧ TooLarge (types ++ more)) := by
  induction more generalizing c types start with
  | nil =>
    rw [List.append_nil]
    exact .inl ⟨c, start, rfl, h⟩
  | cons t more ih =>
    have hsplit : types ++ t :: more = types ++ [t] ++ more := by simp
    rw [hsplit, Cursor.loop]
    rcases h.step t with ⟨c', start', hstep, hplaces⟩ | ⟨hstep, hlarge⟩
    · have hrest := ih hplaces
      rw [List.length_append, List.length_singleton] at hrest
      rw [hstep]
      exact hrest
    · rw [hstep]
      exact .inr ⟨rfl, hlarge.append more⟩

end Cursor

end StorageOffsets

end Libsolidity

end Webthree
