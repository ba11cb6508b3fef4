import Webthree.Lib.Table

/-!
# Registries

A registry is a table whose entries, under numbers, refer to something by their values: how many entries have a property, before
and after an entry is written or taken out, and the number that a new entry gets.
-/

namespace Webthree

namespace Assoc

section

variable {κ β : Type}

/-- How many entries have a value with a property. -/
def uses (l : Assoc κ β) (p : β → Bool) : Nat := l.countP fun e => p e.2

@[simp]
theorem uses_nil (p : β → Bool) : uses ([] : Assoc κ β) p = 0 := rfl

theorem uses_cons (e : κ × β) (l : Assoc κ β) (p : β → Bool) : uses (e :: l) p = uses l p + (p e.2).toNat := by
  rw [uses, List.countP_cons]
  cases p e.2 <;> rfl

/-- Uses depend on nothing but the entries. -/
theorem uses_congr {l : Assoc κ β} {p p' : β → Bool} (h : ∀ e ∈ l, p e.2 = p' e.2) : l.uses p = l.uses p' :=
  List.countP_congr fun e he => by rw [h e he]

/-- Uses do not depend on the order of the entries. -/
theorem uses_perm {l l' : Assoc κ β} (h : l.Perm l') (p : β → Bool) : l.uses p = l'.uses p := h.countP_eq _

variable [DecidableEq κ]

/-- Whether a key has a value with a property, as a number. -/
def usesAt (l : Assoc κ β) (k : κ) (p : β → Bool) : Nat := (l.find k).elim 0 fun v => (p v).toNat

/-- The written value is counted in place of the value that stood there. -/
theorem uses_set (l : Assoc κ β) (k : κ) (v : β) (p : β → Bool) : (l.set k v).uses p + l.usesAt k p = l.uses p + (p v).toNat := by
  induction l with
  | nil => simp [set, uses_cons, usesAt, find]
  | cons e l ih =>
    rw [set, usesAt, find]
    by_cases hk : e.1 = k
    · simp only [if_pos hk, uses_cons, Option.elim_some]
      omega
    · rw [usesAt] at ih
      simp only [if_neg hk, uses_cons]
      omega

/-- A key that is removed takes its own uses with it. -/
theorem uses_remove {l : Assoc κ β} (h : l.Proper) (k : κ) (p : β → Bool) : (l.remove k).uses p + l.usesAt k p = l.uses p := by
  rw [usesAt]
  cases hk : l.find k with
  | none => rw [remove_eq_self hk, Option.elim_none, Nat.add_zero]
  | some v => rw [uses_perm (perm_cons_remove h hk), uses_cons, Option.elim_some]

/-- There is a use exactly if some entry is one. -/
theorem uses_pos_iff {l : Assoc κ β} (h : l.Proper) (p : β → Bool) : 0 < l.uses p ↔ ∃ k v, l.find k = some v ∧ p v = true := by
  rw [uses, List.countP_pos_iff]
  constructor
  · rintro ⟨e, he, hp⟩
    exact ⟨e.1, e.2, find_eq_some_of_mem h he, hp⟩
  · rintro ⟨k, v, hk, hp⟩
    exact ⟨(k, v), mem_of_find_eq_some hk, hp⟩

end

/-! ## The number of a new entry -/

section

variable {β : Type}

/-- The greatest number. -/
def greatest (l : Assoc Nat β) : Nat := (l.map Prod.fst).foldl max 0

/-- The number behind the greatest one, in so many bits. -/
def nextKey (w : Nat) (l : Assoc Nat β) : Nat := if l.isEmpty then 0 else (l.greatest + 1) % 2 ^ w

end

end Assoc

end Webthree
