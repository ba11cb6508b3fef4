import Mathlib.Order.Bounds.Basic
import Mathlib.Logic.Function.Basic

/-!
# Packing items into blocks

Addresses are counted through blocks of one width. An item lies within a block, or it is made of whole blocks. Items are placed one
after the other, each at the first address behind all before it where it may lie; some items are not placed at all.
-/

namespace Webthree

namespace Packing

variable {w : Nat}

/-- An item of a length may lie at an address. -/
def Fits (w a n : Nat) : Prop := a % w + n ≤ w ∨ w ∣ a ∧ w ∣ n

/-- The first address of a block, from an address on. -/
def nextBlock (w a : Nat) : Nat := (a + (w - 1)) / w * w

/-- The first address from one on where an item may lie. -/
def firstFit (w a n : Nat) : Nat := if a % w + n ≤ w then a else nextBlock w a

/-- From inside a block, the next one begins at its end. -/
theorem nextBlock_of_mod (hw : 0 < w) {a : Nat} (ha : a % w ≠ 0) : nextBlock w a = a / w * w + w := by
  have hsplit := Nat.div_add_mod a w
  have hlt := Nat.mod_lt a hw
  have hsum : a + (w - 1) = (a % w - 1) + w * (a / w + 1) := by
    rw [Nat.mul_add, Nat.mul_one]
    omega
  rw [nextBlock, hsum, Nat.add_mul_div_left _ _ hw, Nat.div_eq_of_lt (by omega), Nat.zero_add, Nat.add_mul, Nat.one_mul]

/-- At the start of a block, that is the next one. -/
theorem nextBlock_of_dvd (hw : 0 < w) {a : Nat} (ha : w ∣ a) : nextBlock w a = a := by
  obtain ⟨k, rfl⟩ := ha
  rw [nextBlock, Nat.add_comm, Nat.add_mul_div_left _ _ hw, Nat.div_eq_of_lt (by omega), Nat.zero_add, Nat.mul_comm]

/-- Among the multiples of the width, it is the least from an address on. -/
theorem isLeast_nextBlock (hw : 0 < w) (a : Nat) : IsLeast {b | a ≤ b ∧ w ∣ b} (nextBlock w a) := by
  refine ⟨⟨?_, Nat.dvd_mul_left w _⟩, ?_⟩
  · by_cases ha : a % w = 0
    · exact (nextBlock_of_dvd hw (Nat.dvd_of_mod_eq_zero ha)).ge
    · rw [nextBlock_of_mod hw ha]
      have hsplit := Nat.div_add_mod' a w
      have hlt := Nat.mod_lt a hw
      omega
  · rintro b ⟨hab, k, rfl⟩
    rw [nextBlock, Nat.mul_comm w k]
    refine Nat.mul_le_mul_right w (Nat.lt_succ_iff.mp ((Nat.div_lt_iff_lt_mul hw).mpr ?_))
    rw [Nat.succ_mul, Nat.mul_comm k w]
    omega

/-- The first fit is the least place from there on where so much fits. -/
theorem isLeast_firstFit (hw : 0 < w) (a : Nat) {n : Nat} (hn : n ≤ w ∨ w ∣ n) :
    IsLeast {b | a ≤ b ∧ Fits w b n} (firstFit w a n) := by
  unfold firstFit
  by_cases hfits : a % w + n ≤ w
  · rw [if_pos hfits]
    exact ⟨⟨le_refl a, .inl hfits⟩, fun b hb => hb.1⟩
  · rw [if_neg hfits]
    obtain ⟨⟨hle, hdvd⟩, hleast⟩ := isLeast_nextBlock hw a
    have hmod := Nat.mod_eq_zero_of_dvd hdvd
    refine ⟨⟨hle, ?_⟩, ?_⟩
    · rcases hn with hn | hn
      · exact .inl (by omega)
      · exact .inr ⟨hdvd, hn⟩
    · rintro b ⟨hab, hb | hb⟩
      · -- in the block of the address itself there is no room
        by_contra hlt
        have hblock : a / w = b / w := by
          refine Nat.le_antisymm (Nat.div_le_div_right hab) ?_
          by_contra hbeyond
          have hnext : nextBlock w a ≤ (a / w + 1) * w := hleast ⟨by
            have hsplit := Nat.div_add_mod' a w
            have hmodlt := Nat.mod_lt a hw
            rw [Nat.add_mul, Nat.one_mul]
            omega, Nat.dvd_mul_left w _⟩
          have hmul : (a / w + 1) * w ≤ b / w * w := Nat.mul_le_mul_right w (by omega)
          have hdiv := Nat.div_mul_le_self b w
          omega
        have ha := Nat.div_add_mod a w
        have hb' := Nat.div_add_mod b w
        rw [hblock] at ha
        omega
      · exact hleast ⟨hab, hb.1⟩

/-! ## Items in order -/

variable {items : List (Option Nat)} {start : Nat → Option Nat} {stop : Nat}

/-- An address that no placed item reaches beyond. -/
def Behind (items : List (Option Nat)) (start : Nat → Option Nat) (k a : Nat) : Prop :=
  ∀ j < k, ∀ m b, items[j]? = some (some m) → start j = some b → b + m ≤ a

/-- Where the items that are to be placed begin, and the first address behind them all. -/
structure Packed (w : Nat) (items : List (Option Nat)) (start : Nat → Option Nat) (stop : Nat) : Prop where
  isSome_iff : ∀ i, (start i).isSome ↔ ∃ n, items[i]? = some (some n)
  first : ∀ i n a, items[i]? = some (some n) → start i = some a → IsLeast {b | Behind items start i b ∧ Fits w b n} a
  isLeast_stop : IsLeast {b | Behind items start items.length b} stop

/-- An item begins behind every one before it. -/
theorem Packed.ascending (h : Packed w items start stop) {i j n m a b : Nat} (hij : i < j) (hi : items[i]? = some (some n))
    (hj : items[j]? = some (some m)) (ha : start i = some a) (hb : start j = some b) : a + n ≤ b :=
  (h.first j m b hj hb).1.1 i hij n a hi ha

/-- What is packed fits where it starts. -/
theorem Packed.fits (h : Packed w items start stop) {i n a : Nat} (hi : items[i]? = some (some n)) (ha : start i = some a) :
    Fits w a n := (h.first i n a hi ha).1.2

/-- What is packed ends before the stop. -/
theorem Packed.le_stop (h : Packed w items start stop) {i n a : Nat} (hi : items[i]? = some (some n)) (ha : start i = some a) :
    a + n ≤ stop := h.isLeast_stop.1 i (List.getElem?_eq_some_iff.mp hi).1 n a hi ha

/-- The end is that of some item. -/
theorem Packed.stop_eq (h : Packed w items start stop) :
    stop = 0 ∨ ∃ i n a, items[i]? = some (some n) ∧ start i = some a ∧ stop = a + n := by
  rcases Nat.eq_zero_or_pos stop with hzero | hpos
  · exact .inl hzero
  · refine .inr ?_
    by_contra hnone
    have hbelow : Behind items start items.length (stop - 1) := by
      intro j _ m b hm hb
      have hle := h.le_stop hm hb
      have hne : stop ≠ b + m := fun heq => hnone ⟨j, m, b, hm, hb, heq⟩
      omega
    have hleast := h.isLeast_stop.2 hbelow
    omega

/-- Nothing takes no place. -/
theorem packed_nil (w : Nat) : Packed w [] (fun _ => none) 0 where
  isSome_iff i := by simp
  first i n a hi := by simp at hi
  isLeast_stop := ⟨fun j hj => absurd hj (Nat.not_lt_zero j), fun b _ => Nat.zero_le b⟩

/-- What is added at the end does not matter for the items before. -/
theorem behind_append {item : Option Nat} {x : Option Nat} {k a : Nat} (hk : k ≤ items.length) :
    Behind (items ++ [item]) (Function.update start items.length x) k a ↔ Behind items start k a := by
  have hitem : ∀ j < k, (items ++ [item])[j]? = items[j]? := fun j hj => List.getElem?_append_left (by omega)
  have hstart : ∀ j < k, Function.update start items.length x j = start j := fun j hj => Function.update_of_ne (by omega) _ _
  constructor
  · intro h j hj m b hm hb
    exact h j hj m b ((hitem j hj).trans hm) ((hstart j hj).trans hb)
  · intro h j hj m b hm hb
    exact h j hj m b ((hitem j hj).symm.trans hm) ((hstart j hj).symm.trans hb)

/-- One more item, which is not placed. -/
theorem Packed.skip (h : Packed w items start stop) : Packed w (items ++ [none]) start stop := by
  have hnone : start items.length = none := by
    have hiff := h.isSome_iff items.length
    rw [List.getElem?_eq_none (le_refl _)] at hiff
    simpa using hiff
  have hsame : Function.update start items.length none = start := by
    rw [← hnone, Function.update_eq_self]
  have hitem : ∀ i n : Nat, (items ++ [none])[i]? = some (some n) ↔ items[i]? = some (some n) := by
    intro i n
    rcases Nat.lt_trichotomy i items.length with hlt | rfl | hgt
    · rw [List.getElem?_append_left hlt]
    · simp
    · rw [List.getElem?_eq_none (by simp; omega), List.getElem?_eq_none (by omega)]
  have hbehind : ∀ k ≤ items.length, ∀ a, Behind (items ++ [none]) start k a ↔ Behind items start k a := by
    intro k hk a
    have hiff : Behind (items ++ [none]) (Function.update start items.length none) k a ↔ Behind items start k a := behind_append hk
    rwa [hsame] at hiff
  refine ⟨fun i => ?_, fun i n a hi ha => ?_, ?_⟩
  · rw [h.isSome_iff]
    exact exists_congr fun n => (hitem i n).symm
  · rw [hitem] at hi
    have hlt := (List.getElem?_eq_some_iff.mp hi).1
    have hset : {b | Behind (items ++ [none]) start i b ∧ Fits w b n} = {b | Behind items start i b ∧ Fits w b n} :=
      Set.ext fun b => and_congr_left' (hbehind i (Nat.le_of_lt hlt) b)
    rw [hset]
    exact h.first i n a hi ha
  · have hset : {b | Behind (items ++ [none]) start (items ++ [none]).length b} = {b | Behind items start items.length b} := by
      refine Set.ext fun b => ⟨fun hb => ?_, fun hb j hj m c hm hc => ?_⟩
      · exact (hbehind _ (le_refl _) b).mp fun j hj => hb j (by simp; omega)
      · rw [hitem] at hm
        exact hb j (List.getElem?_eq_some_iff.mp hm).1 m c hm hc
    rw [hset]
    exact h.isLeast_stop

/-- One more item, at the first address where it may lie. -/
theorem Packed.add (h : Packed w items start stop) (hw : 0 < w) {n : Nat} (hn : n ≤ w ∨ w ∣ n) :
    Packed w (items ++ [some n]) (Function.update start items.length (some (firstFit w stop n))) (firstFit w stop n + n) := by
  have hfit := isLeast_firstFit hw stop hn
  -- the places behind all items before are those from the end on
  have hends : ∀ b, Behind items start items.length b ↔ stop ≤ b := by
    intro b
    exact ⟨fun hb => h.isLeast_stop.2 hb, fun hb j hj m c hm hc => (h.isLeast_stop.1 j hj m c hm hc).trans hb⟩
  have hbefore : ∀ i < items.length, (items ++ [some n])[i]? = items[i]? := fun i hi => List.getElem?_append_left hi
  have hlast : (items ++ [some n])[items.length]? = some (some n) := by simp
  have hbeyond : ∀ i, items.length < i → (items ++ [some n])[i]? = none := fun i hi => List.getElem?_eq_none (by simp; omega)
  refine ⟨fun i => ?_, fun i m a hi ha => ?_, ?_⟩
  · rcases Nat.lt_trichotomy i items.length with hlt | rfl | hgt
    · rw [Function.update_of_ne (by omega), hbefore i hlt]
      exact h.isSome_iff i
    · rw [Function.update_self, hlast]
      simp
    · rw [Function.update_of_ne (by omega), hbeyond i hgt, h.isSome_iff, List.getElem?_eq_none (by omega)]
  · rcases Nat.lt_trichotomy i items.length with hlt | rfl | hgt
    · rw [hbefore i hlt] at hi
      rw [Function.update_of_ne (by omega)] at ha
      have hset : {b | Behind (items ++ [some n]) (Function.update start items.length (some (firstFit w stop n))) i b ∧ Fits w b m} =
          {b | Behind items start i b ∧ Fits w b m} := Set.ext fun b => and_congr_left' (behind_append (Nat.le_of_lt hlt))
      rw [hset]
      exact h.first i m a hi ha
    · rw [hlast, Option.some.injEq, Option.some.injEq] at hi
      rw [Function.update_self, Option.some.injEq] at ha
      subst hi ha
      have hset : {b | Behind (items ++ [some n]) (Function.update start items.length (some (firstFit w stop n))) items.length b ∧
          Fits w b n} = {b | stop ≤ b ∧ Fits w b n} :=
        Set.ext fun b => and_congr_left' ((behind_append (le_refl _)).trans (hends b))
      rw [hset]
      exact hfit
    · rw [hbeyond i hgt] at hi
      cases hi
  · have hle := hfit.1.1
    refine ⟨fun j hj m b hm hb => ?_, fun b hb => ?_⟩
    · rcases Nat.lt_trichotomy j items.length with hlt | rfl | hgt
      · rw [hbefore j hlt] at hm
        rw [Function.update_of_ne (by omega)] at hb
        have hstop := h.le_stop hm hb
        omega
      · rw [hlast, Option.some.injEq, Option.some.injEq] at hm
        rw [Function.update_self, Option.some.injEq] at hb
        omega
      · rw [hbeyond j hgt] at hm
        cases hm
    · exact hb items.length (by simp) n _ hlast (Function.update_self _ _ _)

/-- Items that may be placed at all. -/
def Placeable (w : Nat) (items : List (Option Nat)) : Prop := ∀ n, some n ∈ items → n ≤ w ∨ w ∣ n

/-- Further items can always be placed behind. -/
theorem Packed.exists_append (h : Packed w items start stop) (hw : 0 < w) {more : List (Option Nat)} (hmore : Placeable w more) :
    ∃ start' stop', Packed w (items ++ more) start' stop' ∧ stop ≤ stop' := by
  induction more generalizing items start stop with
  | nil =>
    rw [List.append_nil]
    exact ⟨start, stop, h, le_refl _⟩
  | cons item more ih =>
    have hrest : Placeable w more := fun n hn => hmore n (List.mem_cons_of_mem _ hn)
    have hsplit : items ++ item :: more = (items ++ [item]) ++ more := by simp
    rw [hsplit]
    cases item with
    | none => exact ih h.skip hrest
    | some n =>
      have hn := hmore n List.mem_cons_self
      obtain ⟨start', stop', hpacked, hle⟩ := ih (h.add hw hn) hrest
      have hfirst := (isLeast_firstFit hw stop hn).1.1
      exact ⟨start', stop', hpacked, by omega⟩

end Packing

end Webthree
