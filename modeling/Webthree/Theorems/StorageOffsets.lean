import Webthree.Lib.EState
import Webthree.Lemmas.StorageOffsets

/-!
# Layout of storage

Where `computeOffsets` puts types in storage, and when it refuses them.
-/

namespace Webthree

namespace Libsolidity

/-- A type of a list has a position, a slot and a byte. -/
def At (types : List StorageType) (position : Nat → Option (Nat × Nat)) (i : Nat) (t : StorageType) (p : Nat × Nat) : Prop :=
  types[i]? = some t ∧ position i = some p

/-- A layout of types in storage. -/
structure Layout (types : List StorageType) (position : Nat → Option (Nat × Nat)) : Prop where
  /-- Storable types have positions, and nothing else has one. -/
  stored : ∀ i, (position i).isSome ↔ ∃ t, types[i]? = some t ∧ t.canBeStored = true
  /-- The bytes of a type are before those of the types behind it. -/
  ascending : ∀ i j t u p q, i < j → At types position i t p → At types position j u q →
    32 * p.1 + p.2 + t.extent ≤ 32 * q.1 + q.2
  /-- A type of one slot does not straddle the end of it. -/
  within : ∀ i t p, At types position i t p → t.storageSize = 1 → p.2 + t.storageBytes ≤ 32
  /-- A type of several slots begins with one. -/
  whole : ∀ i t p, At types position i t p → t.storageSize ≠ 1 → p.2 = 0
  /-- Nothing else is in the slots of a type that takes several. -/
  alone : ∀ i j t u p q, i ≠ j → At types position i t p → At types position j u q → t.storageSize ≠ 1 →
    q.1 + u.storageSize.toNat ≤ p.1 ∨ p.1 + t.storageSize.toNat ≤ q.1
  /-- No earlier place behind the types before it would do for a type. -/
  first : ∀ i t p, At types position i t p →
    IsLeast {a | (∀ j u q, j < i → At types position j u q → 32 * q.1 + q.2 + u.extent ≤ a) ∧ Packing.Fits 32 a t.extent}
      (32 * p.1 + p.2)

/-- That many slots cover all types. -/
def Covers (types : List StorageType) (position : Nat → Option (Nat × Nat)) (n : Nat) : Prop :=
  ∀ i t p, At types position i t p → p.1 + t.storageSize.toNat ≤ n

namespace StorageOffsets

open Packing

/-- The slot and the byte of an address. -/
def positionOf (start : Nat → Option Nat) (i : Nat) : Option (Nat × Nat) := (start i).map fun a => (a / 32, a % 32)

theorem at_positionOf {types : List StorageType} {start : Nat → Option Nat} {stop : Nat}
    (h : Packed 32 (types.map StorageType.item) start stop) {i : Nat} {t : StorageType} {p : Nat × Nat}
    (hat : At types (positionOf start) i t p) :
    (types.map StorageType.item)[i]? = some (some t.extent) ∧ start i = some (32 * p.1 + p.2) ∧ p.2 < 32 := by
  obtain ⟨hi, hp⟩ := hat
  obtain ⟨a, ha, rfl⟩ := Option.map_eq_some_iff.mp hp
  have hitem : (types.map StorageType.item)[i]? = some t.item := by rw [List.getElem?_map, hi, Option.map_some]
  obtain ⟨n, hn⟩ := (h.isSome_iff i).mp (Option.isSome_iff_exists.mpr ⟨a, ha⟩)
  have hextent : t.item = some t.extent := by
    rw [hitem, Option.some.injEq, StorageType.item] at hn
    rw [StorageType.item]
    split at hn
    · rename_i hstored
      exact if_pos hstored
    · cases hn
  refine ⟨by rw [hitem, hextent], ?_, Nat.mod_lt a (by decide)⟩
  rw [ha, Nat.div_add_mod]

/-- Whatever is packed into slots is laid out. -/
theorem layout_of_packed {types : List StorageType} {start : Nat → Option Nat} {stop : Nat}
    (h : Packed 32 (types.map StorageType.item) start stop) : Layout types (positionOf start) := by
  have hascending : ∀ i j t u p q, i < j → At types (positionOf start) i t p → At types (positionOf start) j u q →
      32 * p.1 + p.2 + t.extent ≤ 32 * q.1 + q.2 := by
    intro i j t u p q hij hi hj
    obtain ⟨hit, hip, -⟩ := at_positionOf h hi
    obtain ⟨hjt, hjp, -⟩ := at_positionOf h hj
    exact h.ascending hij hit hjt hip hjp
  have hfits : ∀ i t p, At types (positionOf start) i t p → Fits 32 (32 * p.1 + p.2) t.extent ∧ p.2 < 32 := by
    intro i t p hi
    obtain ⟨hit, hip, hlt⟩ := at_positionOf h hi
    exact ⟨h.fits hit hip, hlt⟩
  refine ⟨fun i => ?_, hascending, fun i t p hi hone => ?_, fun i t p hi hmany => ?_, fun i j t u p q hij hi hj hmany => ?_,
    fun i t p hi => ?_⟩
  · rw [positionOf, Option.isSome_map, h.isSome_iff]
    constructor
    · rintro ⟨n, hn⟩
      rw [List.getElem?_map] at hn
      obtain ⟨t, ht, hitem⟩ := Option.map_eq_some_iff.mp hn
      refine ⟨t, ht, ?_⟩
      by_contra hstored
      rw [StorageType.item, if_neg hstored] at hitem
      cases hitem
    · rintro ⟨t, ht, hstored⟩
      exact ⟨t.extent, by rw [List.getElem?_map, ht, Option.map_some, StorageType.item, if_pos hstored]⟩
  · obtain ⟨hfit, hlt⟩ := hfits i t p hi
    have hone := StorageType.toNat_eq_one.mp hone
    rcases fits_extent hfit with ⟨-, hroom⟩ | ⟨hmany, -⟩
    · omega
    · omega
  · obtain ⟨hfit, hlt⟩ := hfits i t p hi
    have hmany := mt StorageType.toNat_eq_one.mpr hmany
    rcases fits_extent hfit with ⟨hone, -⟩ | ⟨-, hmod⟩
    · omega
    · omega
  · obtain ⟨hfit, hlt⟩ := hfits i t p hi
    obtain ⟨hfit', hlt'⟩ := hfits j u q hj
    have hmany := mt StorageType.toNat_eq_one.mpr hmany
    have hslot := slot_behind hfit
    have hslot' := slot_behind hfit'
    rcases Nat.lt_or_gt_of_ne hij with hlt | hgt
    · have hle := hascending i j t u p q hlt hi hj
      rcases fits_extent hfit with ⟨hone, -⟩ | ⟨-, hmod⟩
      · omega
      · rcases t.extent_cases with ⟨hone, -⟩ | ⟨-, -, hextent⟩
        · omega
        · exact .inr (by omega)
    · have hle := hascending j i u t q p hgt hj hi
      rcases fits_extent hfit with ⟨hone, -⟩ | ⟨-, hmod⟩
      · omega
      · exact .inl (by omega)
  · obtain ⟨hit, hip, -⟩ := at_positionOf h hi
    obtain ⟨⟨hbehind, hfit⟩, hleast⟩ := h.first i _ _ hit hip
    refine ⟨⟨fun j u q hj hu => ?_, hfit⟩, fun a ha => hleast ⟨fun j hj m b hm hb => ?_, ha.2⟩⟩
    · exact hascending j i u t q p hj hu hi
    · rw [List.getElem?_map] at hm
      obtain ⟨u, hu, hitem⟩ := Option.map_eq_some_iff.mp hm
      have hextent : m = u.extent := by
        rw [StorageType.item] at hitem
        split at hitem
        · exact (Option.some.inj hitem).symm
        · cases hitem
      have hend := ha.1 j u (b / 32, b % 32) hj ⟨hu, by rw [positionOf, hb, Option.map_some]⟩
      rw [hextent]
      dsimp only at hend
      omega

/-- The slots up to the end of what is packed are as many as it takes. -/
theorem isLeast_covers {types : List StorageType} {start : Nat → Option Nat} {stop : Nat}
    (h : Packed 32 (types.map StorageType.item) start stop) : IsLeast {n | Covers types (positionOf start) n} ((stop + 31) / 32) := by
  have hslot : ∀ i t p, At types (positionOf start) i t p → p.1 + t.storageSize.toNat = (32 * p.1 + p.2 + t.extent + 31) / 32 := by
    intro i t p hi
    obtain ⟨hit, hip, hlt⟩ := at_positionOf h hi
    have hbehind := slot_behind (h.fits hit hip)
    omega
  constructor
  · intro i t p hi
    obtain ⟨hit, hip, -⟩ := at_positionOf h hi
    have hle := h.le_stop hit hip
    rw [hslot i t p hi]
    exact Nat.div_le_div_right (by omega)
  · intro n hn
    rcases h.stop_eq with rfl | ⟨i, m, a, hi, ha, rfl⟩
    · exact Nat.zero_le n
    · rw [List.getElem?_map] at hi
      obtain ⟨t, ht, hitem⟩ := Option.map_eq_some_iff.mp hi
      have hat : At types (positionOf start) i t (a / 32, a % 32) := ⟨ht, by rw [positionOf, ha, Option.map_some]⟩
      have hextent : (types.map StorageType.item)[i]? = some (some t.extent) := (at_positionOf h hat).1
      rw [List.getElem?_map, ht, Option.map_some, hitem, Option.some.injEq, Option.some.injEq] at hextent
      have hcovered := hn i t _ hat
      rw [hslot i t _ hat] at hcovered
      dsimp only at hcovered
      omega

/-- Types are laid out, in the least number of slots that covers them; they are refused exactly if that is too large a number. -/
theorem computeOffsets_layout (types : List StorageType) :
    ∃ position n, Layout types position ∧ IsLeast {n | Covers types position n} n ∧
      (n < 2 ^ 256 → ∃ r, computeOffsets types = .ok r ∧ r.m_storageSize.toNat = n ∧
        ∀ i, (r.offset i).map (fun p => (p.1.toNat, p.2)) = position i) ∧
      (2 ^ 256 ≤ n → computeOffsets types = .error .TypeError) := by
  have hstart : Cursor.Places ⟨0, 0, fun _ => none⟩ [] (fun _ => none) :=
    ⟨packed_nil 32, Nat.zero_le 32, fun _ => rfl, fun _ _ h => nomatch h⟩
  rcases hstart.loop types with ⟨c, start, hloop, hplaces⟩ | ⟨hloop, start, stop, hpacked, hlarge⟩
  · rw [List.nil_append] at hplaces
    have hle := hplaces.byte_le
    have hslots : (c.address + 31) / 32 = if c.byteOffset > 0 then c.slotOffset + 1 else c.slotOffset := by
      rw [Cursor.address]
      split <;> omega
    refine ⟨positionOf start, (c.address + 31) / 32, layout_of_packed hplaces.packed, isLeast_covers hplaces.packed, fun hn => ?_,
      fun hn => ?_⟩
    · rw [hslots] at hn ⊢
      refine ⟨⟨BitVec.ofNat 256 (if c.byteOffset > 0 then c.slotOffset + 1 else c.slotOffset), c.offsets⟩, ?_, ?_, fun i => ?_⟩
      · rw [computeOffsets]
        rw [List.length_nil] at hloop
        rw [hloop]
        exact if_neg (Nat.not_le.mpr hn)
      · rw [BitVec.toNat_ofNat, Nat.mod_eq_of_lt hn]
      · have hoffset := hplaces.offsets_eq i
        dsimp only [offset]
        rw [hoffset, positionOf, Option.map_map]
        cases ha : start i with
        | none => rfl
        | some a =>
          have hlt := hplaces.slot_lt i a ha
          simp only [Option.map_some, Function.comp_apply, written, BitVec.toNat_ofNat, Nat.mod_eq_of_lt hlt]
    · rw [hslots] at hn
      rw [computeOffsets]
      rw [List.length_nil] at hloop
      rw [hloop]
      exact if_pos hn
  · rw [List.nil_append] at hpacked
    refine ⟨positionOf start, (stop + 31) / 32, layout_of_packed hpacked, isLeast_covers hpacked, fun hn => ?_, fun _ => ?_⟩
    · omega
    · rw [computeOffsets]
      rw [List.length_nil] at hloop
      rw [hloop]

/-- A `uint8` and an address share the first slot, three words take three, and a mapping has one of its own. -/
theorem computeOffsets_layout_sample : ∃ words, StorageType.array (.integer 256 (by decide)) 3 = .ok words ∧
    ∃ position, Layout [.integer 8 (by decide), .address, words, .slot] position ∧
      IsLeast {n | Covers [.integer 8 (by decide), .address, words, .slot] position n} 5 ∧
      (List.range 4).map position = [some (0, 0), some (0, 1), some (1, 0), some (4, 0)] := by
  refine ⟨_, rfl, ?_⟩
  obtain ⟨position, n, hlayout, hleast, hfits, hlarge⟩ := computeOffsets_layout
    [.integer 8 (by decide), .address, (StorageType.array (.integer 256 (by decide)) 3).toOption.getD .slot, .slot]
  have hrun : ∃ r, computeOffsets [.integer 8 (by decide), .address,
      (StorageType.array (.integer 256 (by decide)) 3).toOption.getD .slot, .slot] = .ok r ∧ r.m_storageSize = 5 ∧
      (List.range 4).map r.offset = [some (0, 0), some (0, 1), some (1, 0), some (4, 0)] := ⟨_, rfl, by decide, by decide⟩
  obtain ⟨r, hr, hsize, hoffsets⟩ := hrun
  have hn : n < 2 ^ 256 := by
    by_contra hn
    rw [hlarge (Nat.not_lt.mp hn)] at hr
    cases hr
  obtain ⟨r', hr', hsize', hoffsets'⟩ := hfits hn
  cases hr.symm.trans hr'
  rw [hsize] at hsize'
  subst hsize'
  refine ⟨position, hlayout, hleast, ?_⟩
  calc (List.range 4).map position = ((List.range 4).map r.offset).map (Option.map fun p => (p.1.toNat, p.2)) := by
        rw [List.map_map]
        exact List.map_congr_left fun i _ => (hoffsets' i).symm
    _ = _ := by
        rw [hoffsets]
        rfl

end StorageOffsets

/-! ## Members -/

namespace MemberList

open StorageOffsets

variable {l : MemberList}

/-- Members that have not been asked for, or have been before. -/
def Fresh (l : MemberList) : Prop := ∀ r, l.m_storageOffsets = some r → computeOffsets (l.m_memberTypes.map Member.type) = .ok r

theorem ensureOffsets_of_ok (hl : l.Fresh) {r : StorageOffsets} (hr : computeOffsets (l.m_memberTypes.map Member.type) = .ok r) :
    ensureOffsets l = .ok r { l with m_storageOffsets := some r } := by
  obtain ⟨members, offsets⟩ := l
  cases offsets with
  | some r' =>
    have hr' := hl r' rfl
    rw [hr, Except.ok.injEq] at hr'
    subst hr'
    rfl
  | none =>
    dsimp only at hr
    simp only [ensureOffsets, bind, EStateM.bind, get, getThe, MonadStateOf.get, estate_get, set, estate_set, hr]
    rfl

/-- The first member of a name is told its place, as often as it is asked for. -/
theorem memberStorageOffset_eq (hl : l.Fresh) {r : StorageOffsets} (hr : computeOffsets (l.m_memberTypes.map Member.type) = .ok r)
    (name : String) : ∃ l', memberStorageOffset name l =
      .ok ((l.m_memberTypes.findIdx? fun m => m.name = name).bind r.offset) l' ∧ l'.Fresh ∧ l'.m_memberTypes = l.m_memberTypes := by
  refine ⟨{ l with m_storageOffsets := some r }, ?_, fun r' hr' => ?_, rfl⟩
  · simp only [memberStorageOffset, bind, EStateM.bind, ensureOffsets_of_ok hl hr]
    rfl
  · rw [← Option.some.inj hr']
    exact hr

/-- Members that are too large are refused once only: from then on they have no places, and take no slot. -/
theorem storageSize_after_error (hl : l.m_storageOffsets = none) {e : StorageError}
    (he : computeOffsets (l.m_memberTypes.map Member.type) = .error e) :
    ∃ l', storageSize l = .error e l' ∧ storageSize l' = .ok 0 l' := by
  refine ⟨{ l with m_storageOffsets := some ⟨0, fun _ => none⟩ }, ?_, rfl⟩
  obtain ⟨members, offsets⟩ := l
  dsimp only at hl he
  subst hl
  simp only [storageSize, ensureOffsets, bind, EStateM.bind, get, getThe, MonadStateOf.get, estate_get, set, estate_set, he]
  rfl

end MemberList

end Libsolidity

end Webthree
