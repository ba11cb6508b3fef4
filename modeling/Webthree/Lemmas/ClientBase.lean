import Webthree.Client.ClientBase
import Webthree.Lib.Transition

/-!
# What the watches of the client hold

Every filter is counted once, whatever happens. So the filters are those of the watches exactly as long as no two watches name one
filter, and a call says by its arguments whether it keeps it so.
-/

namespace Webthree

/-- A hash that names no filter for logs. -/
def IsSpecial (h : H256) : Prop := h = PendingChangedFilter ∨ h = ChainChangedFilter

instance : DecidablePred IsSpecial := fun h => inferInstanceAs (Decidable (h = _ ∨ h = _))

namespace ClientBase

/-- How many watches use a filter. -/
def users (s : ClientBase) (h : H256) : Nat := s.m_watches.uses fun w => w.id == h

/-- The watches have their filters, and the filters their watches: those that are not special stand there exactly if a watch uses
them, with the number of these. -/
structure KeepsFilters (sha3 : Bytes → H256) (s : ClientBase) : Prop where
  watched : ∀ i w, s.m_watches.find i = some w → ¬ IsSpecial w.id → ∃ f, s.m_filters.find w.id = some f
  counted : ∀ h f, s.m_filters.find h = some f → ¬ IsSpecial h → 0 < s.users h ∧ f.refCount = s.users h
  named : ∀ h f, s.m_filters.find h = some f → f.filter.sha3 sha3 = h

/-- A watch of this filter may be added: it takes the place of no watch of another filter that counts, and adds none to a filter
that is there already. -/
def Fits (s : ClientBase) (h : H256) (new : Prop) : Prop :=
  match s.m_watches.find s.newId with
  | none => IsSpecial h ∨ new
  | some w => w.id = h ∨ (IsSpecial w.id ∧ (IsSpecial h ∨ new))

instance (s : ClientBase) (h : H256) (new : Prop) [Decidable new] : Decidable (s.Fits h new) :=
  match hw : s.m_watches.find s.newId with
  | none => decidable_of_iff (IsSpecial h ∨ new) (by rw [Fits, hw])
  | some w => decidable_of_iff (w.id = h ∨ (IsSpecial w.id ∧ (IsSpecial h ∨ new))) (by rw [Fits, hw])

/-! ## What holds after any calls -/

/-- The tables are tables, and every filter stands under its hash and is counted once. -/
structure Basic (sha3 : Bytes → H256) (s : ClientBase) : Prop where
  filters : s.m_filters.Proper
  watches : s.m_watches.Proper
  once : ∀ h f, s.m_filters.find h = some f → f.refCount = 1 ∧ f.filter.sha3 sha3 = h

variable {sha3 : Bytes → H256} {s : ClientBase}

theorem Basic.init : Basic sha3 {} := ⟨List.nodup_nil, List.nodup_nil, fun _ _ h => nomatch h⟩

theorem Basic.addFilter (hs : s.Basic sha3) (f : LogFilter) : (s.addFilter sha3 f).Basic sha3 := by
  unfold ClientBase.addFilter
  cases hfind : s.m_filters.find (f.sha3 sha3) with
  | some _ => exact hs
  | none =>
    refine ⟨hs.filters.set _ _, hs.watches, fun h g hg => ?_⟩
    rw [Assoc.find_set] at hg
    by_cases hh : h = f.sha3 sha3
    · rw [if_pos hh, Option.some.injEq] at hg
      subst hg
      exact ⟨rfl, hh.symm⟩
    · rw [if_neg hh] at hg
      exact hs.once h g hg

theorem Basic.installWatch (hs : s.Basic sha3) (h : H256) : (s.installWatch h).2.Basic sha3 :=
  ⟨hs.filters, hs.watches.set _ _, hs.once⟩

/-- A filter goes with the first watch that goes. -/
theorem Basic.release_eq (hs : s.Basic sha3) (id : H256) : release s.m_filters id = s.m_filters.remove id := by
  unfold release
  cases hfind : s.m_filters.find id with
  | none => exact (Assoc.remove_eq_self hfind).symm
  | some f =>
    simp [(hs.once id f hfind).1]

theorem Basic.uninstallWatch (hs : s.Basic sha3) (i : Nat) : (s.uninstallWatch i).2.Basic sha3 := by
  unfold ClientBase.uninstallWatch
  cases hfind : s.m_watches.find i with
  | none => exact hs
  | some w =>
    simp only [hs.release_eq]
    refine ⟨hs.filters.remove _, hs.watches.remove _, fun h f hf => ?_⟩
    rw [Assoc.find_remove] at hf
    by_cases hh : h = w.id
    · rw [if_pos hh] at hf
      cases hf
    · rw [if_neg hh] at hf
      exact hs.once h f hf

theorem Basic.next (hs : s.Basic sha3) (op : ClientOp) : (op.next sha3 s).Basic sha3 := by
  cases op with
  | installFilter f => exact (hs.addFilter f).installWatch _
  | installWatch h => exact hs.installWatch h
  | uninstallWatch i => exact hs.uninstallWatch i

/-! ## One filter at a time -/

/-- How often a filter is there. -/
def present (s : ClientBase) (h : H256) : Nat := if s.m_filters.find h = none then 0 else 1

theorem Basic.users_pos_iff (hs : s.Basic sha3) (h : H256) : 0 < s.users h ↔ ∃ i w, s.m_watches.find i = some w ∧ w.id = h := by
  rw [users, Assoc.uses_pos_iff hs.watches]
  simp

/-- A filter is there for one watch, and is not there for none. -/
theorem Basic.keepsFilters_iff (hs : s.Basic sha3) : s.KeepsFilters sha3 ↔ ∀ h, ¬ IsSpecial h → s.users h = s.present h := by
  unfold present
  constructor
  · intro hk h hh
    cases hfind : s.m_filters.find h with
    | none =>
      rw [if_pos rfl]
      refine Nat.eq_zero_of_not_pos fun hu => ?_
      obtain ⟨i, w, hw, rfl⟩ := (hs.users_pos_iff h).mp hu
      obtain ⟨f, hf⟩ := hk.watched i w hw hh
      exact nomatch hfind.symm.trans hf
    | some f => rw [if_neg (by simp), ← (hk.counted h f hfind hh).2, (hs.once h f hfind).1]
  · intro hu
    refine ⟨fun i w hw hh => ?_, fun h f hf hh => ?_, fun h f hf => (hs.once h f hf).2⟩
    · have h1 : 0 < s.users w.id := (hs.users_pos_iff w.id).mpr ⟨i, w, hw, rfl⟩
      rw [hu w.id hh] at h1
      cases hfind : s.m_filters.find w.id with
      | none => exact absurd h1 (by simp [hfind])
      | some f => exact ⟨f, rfl⟩
    · have h1 : s.users h = 1 := by rw [hu h hh, if_neg (by simp [hf])]
      rw [h1]
      exact ⟨Nat.one_pos, (hs.once h f hf).1⟩

/-- The filter of the watch that a new one takes the place of. -/
def replaced (s : ClientBase) : Option H256 := (s.m_watches.find s.newId).map ClientWatch.id

theorem Basic.users_replaced (hs : s.Basic sha3) {h : H256} (h' : s.replaced = some h) : 0 < s.users h := by
  obtain ⟨w, hw, hid⟩ := Option.map_eq_some_iff.mp h'
  exact (hs.users_pos_iff h).mpr ⟨_, w, hw, hid⟩

/-- How many watches use a filter after one has been added. -/
theorem users_installWatch (s : ClientBase) (h k : H256) :
    (s.installWatch h).2.users k + (if s.replaced = some k then 1 else 0) = s.users k + if h = k then 1 else 0 := by
  have heq := Assoc.uses_set s.m_watches s.newId (⟨h⟩ : ClientWatch) fun w => w.id == k
  have hgone : s.m_watches.usesAt s.newId (fun w => w.id == k) = if s.replaced = some k then 1 else 0 := by
    rw [Assoc.usesAt, replaced]
    cases s.m_watches.find s.newId <;> simp [Bool.toNat, Bool.cond_eq_ite]
  rw [hgone] at heq
  simpa [users, ClientBase.installWatch, Bool.toNat, Bool.cond_eq_ite] using heq

/-- What the numbers say of a new watch: one more watch of its filter is one more filter or one watch less. -/
theorem fits_iff (s : ClientBase) (h : H256) (new : Prop) [Decidable new] (hnew : s.replaced = some h → ¬ IsSpecial h → ¬ new) :
    s.Fits h new ↔ ∀ k, ¬ IsSpecial k →
      (if h = k then 1 else 0) = (if h = k ∧ new then 1 else 0) + if s.replaced = some k then 1 else 0 := by
  unfold Fits replaced at *
  cases hw : s.m_watches.find s.newId with
  | none =>
    constructor
    · intro hfit k hk
      by_cases hkh : h = k
      · subst hkh
        simp [hfit.resolve_left hk]
      · simp [hkh]
    · intro hall
      refine or_iff_not_imp_left.mpr fun hh => ?_
      simpa using hall h hh
  | some w =>
    constructor
    · rintro (rfl | ⟨hw, hfit⟩) k hk
      · by_cases hkh : w.id = k
        · subst hkh
          simp [hnew (by rw [hw]; rfl) hk]
        · simp [hkh]
      · have hne : w.id ≠ k := fun hc => hk (hc ▸ hw)
        by_cases hkh : h = k
        · subst hkh
          simp [hfit.resolve_left hk, hne]
        · simp [hkh, hne]
    · intro hall
      refine or_iff_not_imp_left.mpr fun hwh => ⟨?_, or_iff_not_imp_left.mpr fun hh => ?_⟩
      · by_contra hw
        have h1 := hall w.id hw
        simp [Ne.symm hwh] at h1
      · simpa [hwh] using hall h hh

/-- A watch is added, and its filter if that is new: whether the filters are still those of the watches. -/
theorem Basic.install_iff (hs : s.Basic sha3) (hk : s.KeepsFilters sha3) {s' : ClientBase} (hs' : s'.Basic sha3) {h : H256} {new : Prop}
    [Decidable new] (hwatches : s'.m_watches = (s.installWatch h).2.m_watches)
    (hfilters : ∀ k, s'.present k = s.present k + if h = k ∧ new then 1 else 0) (hnew : new → s.present h = 0) :
    s'.KeepsFilters sha3 ↔ s.Fits h new := by
  have hu := hs.keepsFilters_iff.mp hk
  rw [hs'.keepsFilters_iff, fits_iff]
  · refine forall_congr' fun k => imp_congr_right fun hks => ?_
    have h1 := s.users_installWatch h k
    rw [users, ← hwatches, ← users, hu k hks] at h1
    rw [hfilters k]
    omega
  · intro hgone hh hn
    have hpos := hs.users_replaced hgone
    rw [hu h hh, hnew hn] at hpos
    exact absurd hpos (Nat.lt_irrefl 0)

/-! ## The calls -/

theorem present_addFilter (s : ClientBase) (f : LogFilter) (k : H256) :
    (s.addFilter sha3 f).present k = s.present k + if f.sha3 sha3 = k ∧ s.m_filters.find (f.sha3 sha3) = none then 1 else 0 := by
  unfold ClientBase.addFilter present
  cases hfind : s.m_filters.find (f.sha3 sha3) with
  | some _ => simp
  | none =>
    rw [Assoc.find_set]
    by_cases hk : k = f.sha3 sha3
    · simp [hk, hfind]
    · simp [hk, Ne.symm hk]

/-- A watch goes, and its filter with it. -/
theorem Basic.uninstallWatch_keepsFilters (hs : s.Basic sha3) (hk : s.KeepsFilters sha3) (i : Nat) :
    (s.uninstallWatch i).2.KeepsFilters sha3 := by
  have hs' := hs.uninstallWatch i
  have hu := hs.keepsFilters_iff.mp hk
  rw [hs'.keepsFilters_iff]
  intro k hks
  have huk := hu k hks
  unfold ClientBase.uninstallWatch
  cases hfind : s.m_watches.find i with
  | none => exact huk
  | some w =>
    have h1 := Assoc.uses_remove hs.watches i fun w => w.id == k
    simp only [Assoc.usesAt, hfind, Option.elim_some] at h1
    unfold users present at huk ⊢
    simp only [hs.release_eq, Assoc.find_remove]
    by_cases hw : k = w.id
    · subst hw
      have hpos := (hs.users_pos_iff w.id).mpr ⟨i, w, hfind, rfl⟩
      rw [if_pos rfl, if_pos rfl]
      simp only [beq_self_eq_true, Bool.toNat_true] at h1
      unfold users at hpos
      split at huk <;> omega
    · rw [if_neg hw, ← huk]
      have hne : (w.id == k) = false := beq_eq_false_iff_ne.mpr (Ne.symm hw)
      rwa [hne] at h1

end ClientBase

namespace ClientOp

/-- The call keeps the filters those of the watches. -/
def Allowed (sha3 : Bytes → H256) (s : ClientBase) : ClientOp → Prop
  | .installFilter f => s.Fits (f.sha3 sha3) (s.m_filters.find (f.sha3 sha3) = none)
  | .installWatch h => s.Fits h False
  | .uninstallWatch _ => True

open ClientBase in
/-- A call keeps the filters those of the watches exactly if it is allowed. -/
theorem next_keepsFilters_iff {sha3 : Bytes → H256} {s : ClientBase} (hs : s.Basic sha3) (hk : s.KeepsFilters sha3) (op : ClientOp) :
    (op.next sha3 s).KeepsFilters sha3 ↔ op.Allowed sha3 s := by
  cases op with
  | installFilter f =>
    have hsame : (s.addFilter sha3 f).m_watches = s.m_watches := by
      unfold ClientBase.addFilter
      split <;> rfl
    refine hs.install_iff hk (hs.next (.installFilter f)) ?_ (s.present_addFilter f) fun hnone => if_pos hnone
    show (s.addFilter sha3 f).m_watches.set ((s.addFilter sha3 f).m_watches.nextKey 32) _ = _
    rw [hsame]
    rfl
  | installWatch h => exact hs.install_iff hk (hs.installWatch h) rfl (fun k => by simp only [and_false, if_false]; rfl) False.elim
  | uninstallWatch i => exact iff_of_true (hs.uninstallWatch_keepsFilters hk i) trivial

end ClientOp

end Webthree
