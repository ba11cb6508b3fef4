import Mathlib.Data.List.TakeWhile
import Mathlib.Logic.Function.Basic
import Webthree.Chain.ChunkMap

/-!
# The downloaded headers and bodies as functions

What each of the functions on a chunk map does to the partial function that the map represents.
-/

namespace Webthree

namespace ChunkMap

open Chunks

variable {T : Type}

/-- What the map has at a number. -/
abbrev item (m : ChunkMap T) : Nat → Option T := Chunks.item UInt32.toNat m

/-- The invariant of the map. -/
abbrev Apart (m : ChunkMap T) : Prop := Chunks.Apart UInt32.toNat m

/-- Where the iterator of `lower_bound` stands. -/
inductive Located (n : UInt32) : ChunkMap T → ChunkMap T × ChunkMap T → Prop where
  /-- At a chunk that starts with the number. -/
  | start (a : ChunkMap T) (xs : List T) (b : ChunkMap T) : Located n (a ++ (n, xs) :: b) (a, (n, xs) :: b)
  /-- At the first chunk, which starts behind the number, or at the end of the empty map. -/
  | first (b : ChunkMap T) (hb : ∀ c ∈ b, n.toNat < c.1.toNat) : Located n b ([], b)
  /-- Behind a chunk that starts before the number. -/
  | behind (a : ChunkMap T) (k : UInt32) (xs : List T) (b : ChunkMap T) (hk : k.toNat < n.toNat)
      (hb : ∀ c ∈ b, n.toNat < c.1.toNat) : Located n (a ++ (k, xs) :: b) (a ++ [(k, xs)], b)

theorem lower_bound_located {m : ChunkMap T} (h : Apart m) (n : UInt32) : Located n m (m.lower_bound n) := by
  have hm : m.takeWhile (fun c => decide (c.1 < n)) ++ m.dropWhile (fun c => decide (c.1 < n)) = m := List.takeWhile_append_dropWhile
  rw [lower_bound]
  have hbefore : ∀ c ∈ m.takeWhile (fun c => decide (c.1 < n)), c.1.toNat < n.toNat := fun c hc => by
    simpa [UInt32.lt_iff_toNat_lt] using List.mem_takeWhile_imp hc
  have hfrom : ∀ c ∈ (m.dropWhile fun c => decide (c.1 < n)).head?, n.toNat ≤ c.1.toNat := fun c hc => by
    have := List.head?_dropWhile_not (fun c : UInt32 × List T => decide (c.1 < n)) m
    rw [Option.mem_def.mp hc] at this
    simpa [UInt32.lt_iff_toNat_lt] using this
  generalize m.takeWhile (fun c => decide (c.1 < n)) = before at hm hbefore ⊢
  generalize m.dropWhile (fun c => decide (c.1 < n)) = lower at hm hfrom ⊢
  subst hm
  obtain ⟨-, hlower, -⟩ := apart_of_append h
  -- unless the first chunk from the iterator on starts with the number, all start behind it
  have hcases : (∃ xs b, lower = (n, xs) :: b) ∨ ∀ c ∈ lower, n.toNat < c.1.toNat := by
    cases lower with
    | nil => exact .inr fun c hc => absurd hc List.not_mem_nil
    | cons c b =>
      obtain ⟨k, xs⟩ := c
      have hle : n.toNat ≤ k.toNat := hfrom (k, xs) rfl
      by_cases hk : k = n
      · exact .inl ⟨xs, b, by rw [hk]⟩
      · have hlt : n.toNat < k.toNat := lt_of_le_of_ne hle fun he => hk (UInt32.toNat_inj.mp he.symm)
        refine .inr fun d hd => ?_
        rcases List.mem_cons.mp hd with rfl | hd
        · exact hlt
        · have h₁ : stop UInt32.toNat (k, xs) < d.1.toNat := (List.pairwise_cons.mp hlower.2).1 d hd
          have h₂ : k.toNat ≤ stop UInt32.toNat (k, xs) := Nat.le_add_right _ _
          omega
  rcases hcases with ⟨xs, b, rfl⟩ | hgt
  · exact .start before xs b
  · rcases List.eq_nil_or_concat before with rfl | ⟨a, ⟨k, xs⟩, rfl⟩
    · exact .first lower hgt
    · rw [List.concat_eq_append, List.append_assoc]
      exact .behind a k xs lower (hbefore (k, xs) (by simp)) hgt

@[simp] theorem stepBack_nil (lower : ChunkMap T) : stepBack ([], lower) = none := rfl

@[simp] theorem stepBack_concat (a : ChunkMap T) (c : UInt32 × List T) (lower : ChunkMap T) :
    stepBack (a ++ [c], lower) = some (a, c, lower) := by
  simp [stepBack]

/-- Not at a chunk that starts with the number. -/
theorem head?_ne {n : UInt32} {b : ChunkMap T} (hb : ∀ c ∈ b, n.toNat < c.1.toNat) :
    (b.head?.any fun c => decide (c.1 = n)) = false ∧ (b.head?.filter fun c => decide (c.1 = n)) = none := by
  cases b with
  | nil => exact ⟨rfl, rfl⟩
  | cons c b =>
    have hne : c.1 ≠ n := by
      rintro rfl
      exact absurd (hb c List.mem_cons_self) (Nat.lt_irrefl _)
    simp [hne]

/-! ## Reading -/

theorem haveItem_findItem {m : ChunkMap T} (h : Apart m) (n : UInt32) :
    m.haveItem n = (m.item n.toNat).isSome ∧ m.findItem n = m.item n.toNat := by
  have hl := lower_bound_located h n
  rw [haveItem, findItem]
  generalize m.lower_bound n = lower at hl ⊢
  cases hl with
  | start a xs b =>
    obtain ⟨-, -, hne, -⟩ := apart_append.mp h
    have hpos : 0 < xs.length := List.length_pos_iff.mpr hne
    rw [item, Chunks.item_append h, if_neg (Nat.lt_irrefl _), if_pos (Nat.lt_add_of_pos_right hpos), Nat.sub_self]
    cases xs with
    | nil => exact absurd rfl hne
    | cons x xs => simp [Option.filter]
  | first b hb =>
    obtain ⟨hany, hfilter⟩ := head?_ne hb
    rw [item, item_eq_none_of_lt hb]
    simp [hany, hfilter]
  | behind a k xs b hk hb =>
    obtain ⟨hany, hfilter⟩ := head?_ne hb
    have hle : k ≤ n := UInt32.le_iff_toNat_le.mpr (Nat.le_of_lt hk)
    rw [item, Chunks.item_append h, if_neg (Nat.not_lt.mpr (Nat.le_of_lt hk)), item_eq_none_of_lt hb]
    by_cases hn : n.toNat < k.toNat + xs.length
    · have hin : n.toNat - k.toNat < xs.length := by omega
      simp [hany, hfilter, hle, hn, hin]
    · simp [hany, hfilter, hn]

/-! ## Removing -/

/-- The end of the chunk is cut off. -/
theorem item_cut {a b : ChunkMap T} {k : UInt32} {xs : List T} (h : Apart (a ++ (k, xs) :: b)) {n : Nat} (hk : k.toNat < n)
    (hn : n < k.toNat + xs.length) :
    Apart (a ++ (k, xs.take (n - k.toNat)) :: b) ∧
      ∀ j, item (a ++ (k, xs.take (n - k.toNat)) :: b) j =
        if n ≤ j ∧ j < k.toNat + xs.length then none else item (a ++ (k, xs) :: b) j := by
  obtain ⟨-, -, -, -, hcb⟩ := apart_append.mp h
  have hlen : (xs.take (n - k.toNat)).length = n - k.toNat := by
    rw [List.length_take]
    omega
  have hcut : Apart (a ++ (k, xs.take (n - k.toNat)) :: b) := by
    refine Apart.shrink h (fun hnil => ?_) (by omega)
    rw [hnil, List.length_nil] at hlen
    omega
  refine ⟨hcut, fun j => ?_⟩
  rw [item, item, Chunks.item_append h, Chunks.item_append hcut, hlen]
  by_cases hj : n ≤ j ∧ j < k.toNat + xs.length
  · rw [if_pos hj, if_neg (by omega), if_neg (by omega)]
    refine item_eq_none_of_lt fun c hc => ?_
    have hstop : k.toNat + xs.length < c.1.toNat := hcb c hc
    omega
  · rw [if_neg hj]
    by_cases hlt : j < k.toNat
    · rw [if_pos hlt, if_pos hlt]
    · rw [if_neg hlt, if_neg hlt]
      by_cases hjn : j < n
      · rw [if_pos (by omega), if_pos (by omega), List.getElem?_take_of_lt (by omega)]
      · rw [if_neg (by omega), if_neg (by omega)]

/-- `removeItem` removes the items from the number on to the end of its chunk. -/
theorem removeItem_spec {m : ChunkMap T} (h : Apart m) (n : UInt32) :
    Apart (m.removeItem n) ∧ ∃ e, (∀ j, (m.removeItem n).item j = if n.toNat ≤ j ∧ j < e then none else m.item j) ∧
      (∀ j, n.toNat ≤ j → j < e → m.item j ≠ none) ∧ n.toNat ≤ e ∧ m.item e = none := by
  have hl := lower_bound_located h n
  rw [removeItem]
  generalize m.lower_bound n = lower at hl ⊢
  cases hl with
  | start a xs b =>
    obtain ⟨ha, hb, -, hac, hcb⟩ := apart_append.mp h
    have hcb : ∀ c ∈ b, n.toNat + xs.length < c.1.toNat := hcb
    rw [if_neg (by simp)]
    dsimp only
    rw [if_pos (by simp), List.tail_cons]
    refine ⟨h.sublist (List.Sublist.append_left (List.sublist_cons_self _ _) _), n.toNat + xs.length, fun j => ?_, fun j h₁ h₂ => ?_,
      Nat.le_add_right _ _, ?_⟩
    · have hle : ∀ c ∈ b, n.toNat ≤ c.1.toNat := fun c hc => Nat.le_trans (Nat.le_add_right _ _) (Nat.le_of_lt (hcb c hc))
      rw [item, item, Chunks.item_append h, item_append_of_le (fun d hd => Nat.le_of_lt (hac d hd)) hle]
      by_cases hj : j < n.toNat
      · rw [if_pos hj, if_neg (by omega), if_pos hj]
      · rw [if_neg hj, if_neg hj]
        by_cases hj' : j < n.toNat + xs.length
        · rw [if_pos ⟨Nat.le_of_not_lt hj, hj'⟩]
          exact item_eq_none_of_lt fun c hc => Nat.lt_trans hj' (hcb c hc)
        · rw [if_neg fun h => hj' h.2, if_neg hj']
    · rw [item, Chunks.item_append h, if_neg (Nat.not_lt.mpr h₁), if_pos h₂, List.getElem?_eq_getElem (by omega)]
      exact Option.some_ne_none _
    · rw [item, Chunks.item_append h, if_neg (by omega), if_neg (Nat.lt_irrefl _)]
      exact item_eq_none_of_lt hcb
  | first b hb =>
    obtain ⟨hany, -⟩ := head?_ne hb
    simp only [hany, stepBack_nil, Bool.false_eq_true, if_false, ite_self]
    exact ⟨h, n.toNat, fun j => (if_neg (by omega)).symm, fun j h₁ h₂ => absurd h₂ (Nat.not_lt.mpr h₁), Nat.le_refl _,
      item_eq_none_of_lt hb⟩
  | behind a k xs b hk hb =>
    obtain ⟨hany, -⟩ := head?_ne hb
    have hle : k ≤ n := UInt32.le_iff_toNat_le.mpr (Nat.le_of_lt hk)
    rw [if_neg (by simp)]
    simp only [hany, stepBack_concat, Bool.false_eq_true, if_false, hle, true_and]
    by_cases hn : n.toNat < k.toNat + xs.length
    · obtain ⟨hcut, hitem⟩ := item_cut h hk hn
      rw [if_pos hn]
      refine ⟨hcut, k.toNat + xs.length, hitem, fun j h₁ h₂ => ?_, Nat.le_of_lt hn, ?_⟩
      · rw [item, Chunks.item_append h, if_neg (by omega), if_pos h₂, List.getElem?_eq_getElem (by omega)]
        exact Option.some_ne_none _
      · rw [item, Chunks.item_append h, if_neg (by omega), if_neg (Nat.lt_irrefl _)]
        exact item_eq_none_of_lt (apart_append.mp h).2.2.2.2
    · rw [if_neg hn]
      refine ⟨h, n.toNat, fun j => (if_neg (by omega)).symm, fun j h₁ h₂ => absurd h₂ (Nat.not_lt.mpr h₁), Nat.le_refl _, ?_⟩
      rw [item, Chunks.item_append h, if_neg (by omega), if_neg hn]
      exact item_eq_none_of_lt hb

/-- `removeAllStartingWith` removes the items from the number on. -/
theorem removeAllStartingWith_spec {m : ChunkMap T} (h : Apart m) (n : UInt32) :
    Apart (m.removeAllStartingWith n) ∧ ∀ j, (m.removeAllStartingWith n).item j = if n.toNat ≤ j then none else m.item j := by
  have hl := lower_bound_located h n
  rw [removeAllStartingWith]
  generalize m.lower_bound n = lower at hl ⊢
  cases hl with
  | start a xs b =>
    obtain ⟨ha, -, -, hac, -⟩ := apart_append.mp h
    rw [if_neg (by simp)]
    dsimp only
    rw [if_pos (by simp)]
    refine ⟨ha, fun j => ?_⟩
    rw [item, item, Chunks.item_append h]
    by_cases hj : n.toNat ≤ j
    · rw [if_pos hj]
      exact item_eq_none_of_stop_le fun c hc => Nat.le_trans (Nat.le_of_lt (hac c hc)) hj
    · rw [if_neg hj, if_pos (Nat.lt_of_not_le hj)]
  | first b hb =>
    obtain ⟨hany, -⟩ := head?_ne hb
    have hnil : (if m.isEmpty = true then m else []) = [] := by
      cases m <;> rfl
    simp only [hany, stepBack_nil, Bool.false_eq_true, if_false, hnil]
    refine ⟨apart_nil, fun j => ?_⟩
    by_cases hj : n.toNat ≤ j
    · rw [if_pos hj]
      rfl
    · rw [if_neg hj]
      exact (item_eq_none_of_lt fun c hc => Nat.lt_trans (Nat.lt_of_not_le hj) (hb c hc)).symm
  | behind a k xs b hk hb =>
    obtain ⟨hany, -⟩ := head?_ne hb
    have hle : k ≤ n := UInt32.le_iff_toNat_le.mpr (Nat.le_of_lt hk)
    have hlast : Apart (a ++ [(k, xs)]) := h.sublist (List.Sublist.append_left (List.singleton_sublist.mpr List.mem_cons_self) _)
    rw [if_neg (by simp)]
    simp only [hany, stepBack_concat, Bool.false_eq_true, if_false, hle, true_and]
    have hb' : ∀ j, j < n.toNat → Chunks.item UInt32.toNat b j = none := fun j hj =>
      item_eq_none_of_lt fun c hc => Nat.lt_trans hj (hb c hc)
    by_cases hn : n.toNat < k.toNat + xs.length
    · obtain ⟨hcut, hitem⟩ := item_cut hlast hk hn
      rw [if_pos hn]
      refine ⟨hcut, fun j => ?_⟩
      rw [hitem, item, item, Chunks.item_append hlast, Chunks.item_append h]
      by_cases hj : n.toNat ≤ j
      · rw [if_pos hj]
        by_cases hj' : j < k.toNat + xs.length
        · rw [if_pos ⟨hj, hj'⟩]
        · rw [if_neg fun h => hj' h.2, if_neg (by omega), if_neg hj']
          rfl
      · rw [if_neg fun h => hj h.1, if_neg hj, hb' j (Nat.lt_of_not_le hj)]
        rfl
    · rw [if_neg hn]
      refine ⟨hlast, fun j => ?_⟩
      rw [item, item, Chunks.item_append hlast, Chunks.item_append h]
      by_cases hj : n.toNat ≤ j
      · rw [if_pos hj, if_neg (by omega), if_neg (by omega)]
        rfl
      · rw [if_neg hj, hb' j (Nat.lt_of_not_le hj)]
        rfl

/-! ## Adding -/

/-- A chunk is joined with the next one exactly if there is no place between them. -/
theorem join_spec {a b : ChunkMap T} {k : UInt32} {xs : List T} (starts : UInt32 → Bool) (ha : Apart a) (hb : Apart b) (hne : xs ≠ [])
    (hac : ∀ c ∈ a, stop UInt32.toNat c < k.toNat) (hcb : ∀ c ∈ b, k.toNat + xs.length ≤ c.1.toNat)
    (hstarts : ∀ c ∈ b, (starts c.1 = true ↔ k.toNat + xs.length = c.1.toNat)) :
    Apart (a ++ join (k, xs) starts b) ∧ ∀ j, item (a ++ join (k, xs) starts b) j =
      if j < k.toNat then item a j else if j < k.toNat + xs.length then xs[j - k.toNat]? else item b j := by
  cases b with
  | nil =>
    have h : Apart (a ++ [(k, xs)]) := apart_append.mpr ⟨ha, hb, hne, hac, fun c hc => absurd hc List.not_mem_nil⟩
    exact ⟨h, fun j => Chunks.item_append h j⟩
  | cons next rest =>
    obtain ⟨k', ys⟩ := next
    obtain ⟨-, hrest, hys, -, hgt⟩ := (apart_append (a := [])).mp hb
    have hgt : ∀ c ∈ rest, k'.toNat + ys.length < c.1.toNat := hgt
    have hle : k.toNat + xs.length ≤ k'.toNat := hcb _ List.mem_cons_self
    have hiff : starts k' = true ↔ k.toNat + xs.length = k'.toNat := hstarts _ List.mem_cons_self
    have hnext : ∀ j, item ((k', ys) :: rest) j =
        if j < k'.toNat then none else if j < k'.toNat + ys.length then ys[j - k'.toNat]? else item rest j :=
      Chunks.item_append (a := []) hb
    rw [join]
    by_cases heq : k.toNat + xs.length = k'.toNat
    · have h : Apart (a ++ (k, xs ++ ys) :: rest) := by
        refine apart_append.mpr ⟨ha, hrest, by simp [hne], hac, fun c hc => ?_⟩
        have hc := hgt c hc
        change k.toNat + (xs ++ ys).length < c.1.toNat
        rw [List.length_append]
        omega
      rw [if_pos (hiff.mpr heq)]
      refine ⟨h, fun j => ?_⟩
      rw [item, Chunks.item_append h, hnext, List.length_append]
      by_cases hj : j < k.toNat
      · rw [if_pos hj, if_pos hj]
      · rw [if_neg hj, if_neg hj]
        by_cases hj' : j < k.toNat + xs.length
        · rw [if_pos (by omega), if_pos hj', List.getElem?_append_left (by omega)]
        · rw [if_neg hj', if_neg (show ¬j < k'.toNat by omega), List.getElem?_append_right (by omega)]
          have hidx : j - k.toNat - xs.length = j - k'.toNat := by omega
          by_cases hj'' : j < k'.toNat + ys.length
          · rw [if_pos (by omega), if_pos hj'', hidx]
          · rw [if_neg (by omega), if_neg hj'']
    · have h : Apart (a ++ (k, xs) :: (k', ys) :: rest) := by
        refine apart_append.mpr ⟨ha, hb, hne, hac, fun c hc => ?_⟩
        rcases List.mem_cons.mp hc with rfl | hc
        · exact Nat.lt_of_le_of_ne hle heq
        · have hc := hgt c hc
          change k.toNat + xs.length < c.1.toNat
          omega
      rw [if_neg fun hs => heq (hiff.mp hs)]
      exact ⟨h, fun j => Chunks.item_append h j⟩

theorem eq_add_one_iff {n next : UInt32} (h : n.toNat < next.toNat) : next = n + 1 ↔ n.toNat + 1 = next.toNat := by
  have hadd : (n + 1).toNat = (n.toNat + 1) % 2 ^ 32 := UInt32.toNat_add n 1
  have hlt : next.toNat < 2 ^ 32 := next.toNat_lt
  rw [← UInt32.toNat_inj, hadd]
  omega

/-- A chunk with the new item alone, joined with the next one. -/
theorem insert_spec {a b : ChunkMap T} {n : UInt32} (x : T) (h : Apart (a ++ b)) (hac : ∀ c ∈ a, stop UInt32.toNat c < n.toNat)
    (hb : ∀ c ∈ b, n.toNat < c.1.toNat) :
    Apart (a ++ join (n, [x]) (fun next => next = n + 1) b) ∧ ∀ j, item (a ++ join (n, [x]) (fun next => next = n + 1) b) j =
      if j = n.toNat then some x else item (a ++ b) j := by
  obtain ⟨ha, hb', -⟩ := apart_of_append h
  have hstarts : ∀ c ∈ b, (decide (c.1 = n + 1) = true ↔ n.toNat + [x].length = c.1.toNat) := fun c hc => by
    rw [decide_eq_true_iff]
    exact eq_add_one_iff (hb c hc)
  obtain ⟨hapart, hitem⟩ := join_spec (k := n) (fun next => next = n + 1) ha hb' (List.cons_ne_nil x []) hac hb hstarts
  refine ⟨hapart, fun j => ?_⟩
  have hab : item (a ++ b) j = if j < n.toNat then item a j else item b j :=
    item_append_of_le (fun c hc => Nat.le_of_lt (hac c hc)) (fun c hc => Nat.le_of_lt (hb c hc)) j
  rw [hitem, hab, List.length_singleton]
  by_cases hj : j < n.toNat
  · rw [if_pos hj, if_neg (by omega), if_pos hj]
  · rw [if_neg hj, if_neg hj]
    by_cases heq : j = n.toNat
    · rw [if_pos (by omega), if_pos heq, heq, Nat.sub_self]
      rfl
    · rw [if_neg (by omega), if_neg heq]

/-- A chunk with the new item at its end, joined with the next one. -/
theorem extend_spec {a b : ChunkMap T} {k : UInt32} {xs : List T} {n : Nat} (x : T) (h : Apart (a ++ (k, xs) :: b))
    (heq : k.toNat + xs.length = n) :
    Apart (a ++ join (k, xs ++ [x]) (fun next => k.toNat + (xs ++ [x]).length = next.toNat) b) ∧
      ∀ j, item (a ++ join (k, xs ++ [x]) (fun next => k.toNat + (xs ++ [x]).length = next.toNat) b) j =
        if j = n then some x else item (a ++ (k, xs) :: b) j := by
  obtain ⟨ha, hb, -, hac, hcb⟩ := apart_append.mp h
  have hcb : ∀ c ∈ b, k.toNat + xs.length < c.1.toNat := hcb
  have hlen : (xs ++ [x]).length = xs.length + 1 := List.length_append
  have hle : ∀ c ∈ b, k.toNat + (xs ++ [x]).length ≤ c.1.toNat := fun c hc => by
    rw [hlen]
    exact hcb c hc
  obtain ⟨hapart, hitem⟩ := join_spec (k := k) (fun next => k.toNat + (xs ++ [x]).length = next.toNat) ha hb
    (List.append_ne_nil_of_right_ne_nil xs (List.cons_ne_nil x [])) hac hle fun c _ => decide_eq_true_iff
  refine ⟨hapart, fun j => ?_⟩
  have hold : item (a ++ (k, xs) :: b) j =
      if j < k.toNat then item a j else if j < k.toNat + xs.length then xs[j - k.toNat]? else item b j := Chunks.item_append h j
  rw [hitem, hold, hlen]
  by_cases hj : j < k.toNat
  · rw [if_pos hj, if_neg (by omega), if_pos hj]
  · rw [if_neg hj, if_neg hj]
    by_cases hj' : j < k.toNat + xs.length
    · rw [if_pos (by omega), if_neg (by omega), if_pos hj', List.getElem?_append_left (by omega)]
    · by_cases hjn : j = n
      · rw [if_pos (by omega), if_pos hjn, List.getElem?_append_right (by omega), hjn, ← heq, Nat.add_sub_cancel_left, Nat.sub_self]
        rfl
      · rw [if_neg (by omega), if_neg hjn, if_neg hj']

/-- `mergeInto` adds the item where there is none. -/
theorem mergeInto_spec {m : ChunkMap T} (h : Apart m) {n : UInt32} (x : T) (hn : m.item n.toNat = none) :
    ∃ m', m.mergeInto n x = some m' ∧ Apart m' ∧ ∀ j, m'.item j = if j = n.toNat then some x else m.item j := by
  have hhave : m.haveItem n = false := by rw [(haveItem_findItem h n).1, hn, Option.isSome_none]
  have hl := lower_bound_located h n
  rw [mergeInto, hhave, if_neg Bool.false_ne_true]
  generalize m.lower_bound n = lower at hl ⊢
  cases hl with
  | start a xs b =>
    have hne : xs ≠ [] := (apart_append.mp h).2.2.1
    have hpos : 0 < xs.length := List.length_pos_iff.mpr hne
    rw [item, Chunks.item_append h, if_neg (Nat.lt_irrefl _), if_pos (Nat.lt_add_of_pos_right hpos), Nat.sub_self,
      List.getElem?_eq_getElem hpos] at hn
    cases hn
  | first b hb =>
    have hfilter : (m.head?.filter fun c => decide (c.1.toNat + c.2.length = n.toNat)) = none := by
      cases m with
      | nil => rfl
      | cons c m =>
        have := hb c List.mem_cons_self
        simp [Option.filter]
        omega
    simp only [stepBack_nil, hfilter]
    exact ⟨_, rfl, insert_spec (a := []) x h (fun c hc => absurd hc List.not_mem_nil) hb⟩
  | behind a k xs b hk hb =>
    obtain ⟨ha, hb', -, hac, hcb⟩ := apart_append.mp h
    have hcb : ∀ c ∈ b, k.toNat + xs.length < c.1.toNat := hcb
    have hle : k.toNat + xs.length ≤ n.toNat := by
      by_contra hlt
      rw [item, Chunks.item_append h, if_neg (by omega), if_pos (by omega), List.getElem?_eq_getElem (by omega)] at hn
      cases hn
    simp only [stepBack_concat, List.head?_cons, List.tail_cons]
    by_cases heq : k.toNat + xs.length = n.toNat
    · rw [Option.filter, if_pos (decide_eq_true heq)]
      exact ⟨_, rfl, extend_spec x h heq⟩
    · rw [Option.filter, if_neg (by simpa using heq)]
      have hsplit : a ++ (k, xs) :: b = (a ++ [(k, xs)]) ++ b := by simp
      rw [hsplit] at h ⊢
      refine ⟨_, rfl, insert_spec x h (fun c hc => ?_) hb⟩
      rcases List.mem_append.mp hc with hc | hc
      · exact Nat.lt_trans (hac c hc) hk
      · rw [List.mem_singleton.mp hc]
        exact Nat.lt_of_le_of_ne hle heq

end ChunkMap

end Webthree
