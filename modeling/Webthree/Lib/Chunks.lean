import Mathlib.Data.List.Basic

/-!
# Partial functions in chunks

A list of chunks, each a first place and the items from there on, as a partial function on the places.
-/

namespace Webthree

namespace Chunks

variable {κ α : Type} (pos : κ → Nat)

/-- The place behind a chunk. -/
def stop (c : κ × List α) : Nat := pos c.1 + c.2.length

/-- What stands at a place. -/
def item : List (κ × List α) → Nat → Option α
  | [], _ => none
  | c :: m, n => if pos c.1 ≤ n ∧ n < stop pos c then c.2[n - pos c.1]? else item m n

/-- The chunks are in order, none is empty, and between two of them there is a place that is in neither. -/
def Apart (m : List (κ × List α)) : Prop := (∀ c ∈ m, c.2 ≠ []) ∧ m.Pairwise fun c d => stop pos c < pos d.1

variable {pos}

/-- No chunks are apart. -/
theorem apart_nil : Apart pos ([] : List (κ × List α)) := ⟨fun _ h => absurd h List.not_mem_nil, .nil⟩

/-- The chunks on both sides of one. -/
theorem apart_append {a b : List (κ × List α)} {c : κ × List α} :
    Apart pos (a ++ c :: b) ↔
      Apart pos a ∧ Apart pos b ∧ c.2 ≠ [] ∧ (∀ d ∈ a, stop pos d < pos c.1) ∧ ∀ d ∈ b, stop pos c < pos d.1 := by
  constructor
  · rintro ⟨hne, hp⟩
    obtain ⟨ha, hcb, hab⟩ := List.pairwise_append.mp hp
    obtain ⟨hc, hb⟩ := List.pairwise_cons.mp hcb
    refine ⟨⟨fun d hd => hne d (List.mem_append_left _ hd), ha⟩, ⟨fun d hd => hne d ?_, hb⟩, hne c ?_, ?_, hc⟩
    · exact List.mem_append_right _ (List.mem_cons_of_mem _ hd)
    · exact List.mem_append_right _ List.mem_cons_self
    · exact fun d hd => hab d hd c List.mem_cons_self
  · rintro ⟨⟨hane, ha⟩, ⟨hbne, hb⟩, hc, hac, hcb⟩
    refine ⟨fun d hd => ?_, List.pairwise_append.mpr ⟨ha, List.pairwise_cons.mpr ⟨hcb, hb⟩, fun d hd e he => ?_⟩⟩
    · rcases List.mem_append.mp hd with hd | hd
      · exact hane d hd
      · rcases List.mem_cons.mp hd with rfl | hd
        · exact hc
        · exact hbne d hd
    · rcases List.mem_cons.mp he with rfl | he
      · exact hac d hd
      · have h₁ := hac d hd
        have h₂ := hcb e he
        have h₃ : pos c.1 ≤ stop pos c := Nat.le_add_right _ _
        omega

/-- Of chunks that are apart, those of the first part lie before those of the second. -/
theorem apart_of_append {a b : List (κ × List α)} (h : Apart pos (a ++ b)) :
    Apart pos a ∧ Apart pos b ∧ ∀ c ∈ a, ∀ d ∈ b, stop pos c < pos d.1 := by
  obtain ⟨hne, hp⟩ := h
  obtain ⟨ha, hb, hab⟩ := List.pairwise_append.mp hp
  exact ⟨⟨fun d hd => hne d (List.mem_append_left _ hd), ha⟩, ⟨fun d hd => hne d (List.mem_append_right _ hd), hb⟩, hab⟩

/-- Some of the chunks that are apart are apart. -/
theorem Apart.sublist {m m' : List (κ × List α)} (h : Apart pos m) (hs : m'.Sublist m) : Apart pos m' :=
  ⟨fun c hc => h.1 c (hs.subset hc), h.2.sublist hs⟩

/-- A chunk in the place of another may end earlier. -/
theorem Apart.shrink {a b : List (κ × List α)} {k : κ} {xs ys : List α} (h : Apart pos (a ++ (k, xs) :: b)) (hys : ys ≠ [])
    (hle : ys.length ≤ xs.length) : Apart pos (a ++ (k, ys) :: b) := by
  obtain ⟨ha, hb, -, hac, hcb⟩ := apart_append.mp h
  refine apart_append.mpr ⟨ha, hb, hys, hac, fun d hd => Nat.lt_of_le_of_lt ?_ (hcb d hd)⟩
  exact Nat.add_le_add_left hle _

/-- No item is found behind where all chunks stop. -/
theorem item_eq_none_of_stop_le {m : List (κ × List α)} {n : Nat} (h : ∀ c ∈ m, stop pos c ≤ n) : item pos m n = none := by
  induction m with
  | nil => rfl
  | cons c m ih =>
    have hc := h c List.mem_cons_self
    rw [item, if_neg fun hn => absurd hn.2 (Nat.not_lt.mpr hc)]
    exact ih fun d hd => h d (List.mem_cons_of_mem _ hd)

/-- No item is found before where all chunks begin. -/
theorem item_eq_none_of_lt {m : List (κ × List α)} {n : Nat} (h : ∀ c ∈ m, n < pos c.1) : item pos m n = none := by
  induction m with
  | nil => rfl
  | cons c m ih =>
    have hc := h c List.mem_cons_self
    rw [item, if_neg fun hn => absurd hn.1 (Nat.not_le.mpr hc)]
    exact ih fun d hd => h d (List.mem_cons_of_mem _ hd)

/-- Before the second part, items are those of the first. -/
theorem item_append_of_lt {a b : List (κ × List α)} {n : Nat} (h : ∀ c ∈ b, n < pos c.1) : item pos (a ++ b) n = item pos a n := by
  induction a with
  | nil => exact item_eq_none_of_lt h
  | cons c a ih => rw [List.cons_append, item, item, ih]

/-- Behind the first part, items are those of the second. -/
theorem item_append_of_stop_le {a b : List (κ × List α)} {n : Nat} (h : ∀ c ∈ a, stop pos c ≤ n) :
    item pos (a ++ b) n = item pos b n := by
  induction a with
  | nil => rfl
  | cons c a ih =>
    have hc := h c List.mem_cons_self
    rw [List.cons_append, item, if_neg fun hn => absurd hn.2 (Nat.not_lt.mpr hc)]
    exact ih fun d hd => h d (List.mem_cons_of_mem _ hd)

/-- Where one part ends and the other begins, items change over. -/
theorem item_append_of_le {a b : List (κ × List α)} {p : Nat} (ha : ∀ c ∈ a, stop pos c ≤ p) (hb : ∀ c ∈ b, p ≤ pos c.1) (n : Nat) :
    item pos (a ++ b) n = if n < p then item pos a n else item pos b n := by
  by_cases hn : n < p
  · rw [if_pos hn]
    exact item_append_of_lt fun c hc => Nat.lt_of_lt_of_le hn (hb c hc)
  · rw [if_neg hn]
    exact item_append_of_stop_le fun c hc => Nat.le_trans (ha c hc) (Nat.le_of_not_lt hn)

/-- What stands at a place, seen from one of the chunks. -/
theorem item_append {a b : List (κ × List α)} {k : κ} {xs : List α} (h : Apart pos (a ++ (k, xs) :: b)) (n : Nat) :
    item pos (a ++ (k, xs) :: b) n =
      if n < pos k then item pos a n else if n < pos k + xs.length then xs[n - pos k]? else item pos b n := by
  obtain ⟨-, -, -, hac, hcb⟩ := apart_append.mp h
  rw [item_append_of_le (p := pos k) (fun d hd => Nat.le_of_lt (hac d hd)) fun d hd => ?_]
  · by_cases hlt : n < pos k
    · rw [if_pos hlt, if_pos hlt]
    · rw [if_neg hlt, if_neg hlt, item]
      by_cases hn : n < pos k + xs.length
      · rw [if_pos hn, if_pos ⟨Nat.le_of_not_lt hlt, hn⟩]
      · rw [if_neg hn, if_neg fun h => hn h.2]
  · rcases List.mem_cons.mp hd with rfl | hd
    · exact Nat.le_refl _
    · exact Nat.le_trans (Nat.le_add_right _ _) (Nat.le_of_lt (hcb d hd))

end Chunks

end Webthree
