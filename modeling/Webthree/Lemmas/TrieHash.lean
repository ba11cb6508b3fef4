import Webthree.Trie.TrieHash
import Webthree.Lemmas.TrieNode
import Webthree.Lib.PatriciaOrder

/-!
# The root of a map is the root of its tree

`hash256rlp` over a range of a sorted map gives the first node of the canonical tree with the entries of the range.
-/

namespace Webthree

open TrieDB

variable {sha3 : Bytes → H256}

/-! ## Sorted ranges -/

/-- An entry with `p` in front of its key. -/
def behindPrefix (p : List Nibble) (e : HexEntry) : HexEntry := (p ++ e.1, e.2)

/-- The keys stand in lexicographic order. -/
def SortedKeys (l : List HexEntry) : Prop := l.Pairwise fun a b => a.1 < b.1

/-- The tree has the entries of the range. -/
def Lists (l : List HexEntry) (t : Tree) : Prop := ∀ x b, (x, b) ∈ l ↔ ∃ v : Value, v.val = b ∧ t.get x = some v

/-- Behind an empty prefix nothing changes. -/
theorem map_behindPrefix_nil (l : List HexEntry) : l.map (behindPrefix []) = l :=
  (List.map_congr_left fun _ _ => rfl).trans (List.map_id l)

/-- A common prefix does not change the order of the keys. -/
theorem SortedKeys.behindPrefix_iff (p : List Nibble) (l : List HexEntry) :
    SortedKeys (l.map (behindPrefix p)) ↔ SortedKeys l := by
  unfold SortedKeys
  rw [List.pairwise_map]
  refine List.Pairwise.iff ?_
  intro a b
  exact append_lt_append_iff p

/-! ## Shared beginnings -/

/-- Cut at one length, two keys share what they share up to there. -/
theorem sharedLength_take {ν : Type} [DecidableEq ν] (n : Nat) (a b : List ν) :
    sharedLength (a.take n) (b.take n) = min n (sharedLength a b) := by
  induction a generalizing b n with
  | nil => simp [sharedLength]
  | cons i a ih =>
    cases b with
    | nil => simp [sharedLength]
    | cons j b =>
      cases n with
      | zero => simp [sharedLength]
      | succ n =>
        by_cases h : i = j
        · subst h
          simp only [List.take_succ_cons, sharedLength, if_pos, ih]
          omega
        · simp [sharedLength, h]

/-- How far the first key agrees with all others, if that is at most `a`. -/
def minShared (k : List Nibble) (a : Nat) (es : List HexEntry) : Nat := es.foldl (fun a e => min (sharedLength k e.1) a) a

/-- Nothing is shared at no length. -/
theorem minShared_zero (k : List Nibble) (es : List HexEntry) : minShared k 0 es = 0 := by
  induction es with
  | nil => rfl
  | cons e es ih => simpa [minShared] using ih

/-- The loop of the source finds the shared length behind a prefix. -/
theorem sharedPreLoop_eq (p k : List Nibble) (es : List HexEntry) {a : Nat} (ha : a ≤ k.length) :
    sharedPreLoop (p ++ k) p.length (p.length + a) (es.map (behindPrefix p)) = p.length + minShared k a es := by
  induction es generalizing a with
  | nil => rfl
  | cons e es ih =>
    have hle : sharedLength k e.1 ≤ e.1.length := by
      rw [sharedLength_comm]
      exact sharedLength_le e.1 k
    have hle' := sharedLength_le k e.1
    rw [List.map_cons, sharedPreLoop]
    by_cases h0 : p.length + a = 0
    · rw [if_pos h0]
      have ha0 : a = 0 := by omega
      rw [ha0, minShared_zero]
    · rw [if_neg h0]
      have hx : min (p.length + a) (min (p ++ k).length (behindPrefix p e).1.length) =
          p.length + min a (min k.length e.1.length) := by
        simp only [behindPrefix, List.length_append]
        omega
      have hs : sharedFrom (p ++ k) (behindPrefix p e).1 p.length (p.length + min a (min k.length e.1.length)) =
          p.length + min (min a (min k.length e.1.length)) (sharedLength k e.1) := by
        simp only [sharedFrom, behindPrefix, List.take_length_add_append, List.drop_left, sharedLength_take]
      simp only [hx, hs]
      have hm : min (p.length + min (min a (min k.length e.1.length)) (sharedLength k e.1)) (p.length + a) =
          p.length + min (sharedLength k e.1) a := by omega
      rw [hm, ih (by omega)]
      rfl

/-- The shared length is shared with every entry. -/
theorem minShared_le (k : List Nibble) (a : Nat) (es : List HexEntry) :
    minShared k a es ≤ a ∧ ∀ e ∈ es, minShared k a es ≤ sharedLength k e.1 := by
  induction es generalizing a with
  | nil => exact ⟨Nat.le_refl a, by simp⟩
  | cons e es ih =>
    obtain ⟨h1, h2⟩ := ih (min (sharedLength k e.1) a)
    have he : minShared k a (e :: es) = minShared k (min (sharedLength k e.1) a) es := rfl
    rw [he]
    refine ⟨by omega, ?_⟩
    intro e' he'
    rcases List.mem_cons.mp he' with rfl | he'
    · omega
    · exact h2 e' he'

/-- It is the bound, or what one of the entries shares. -/
theorem minShared_attained (k : List Nibble) (a : Nat) (es : List HexEntry) :
    minShared k a es = a ∨ ∃ e ∈ es, minShared k a es = sharedLength k e.1 := by
  induction es generalizing a with
  | nil => exact Or.inl rfl
  | cons e es ih =>
    have he : minShared k a (e :: es) = minShared k (min (sharedLength k e.1) a) es := rfl
    rw [he]
    rcases ih (min (sharedLength k e.1) a) with h | ⟨e', he', h⟩
    · by_cases hle : sharedLength k e.1 ≤ a
      · exact Or.inr ⟨e, List.mem_cons_self, by rw [h]; omega⟩
      · exact Or.inl (by rw [h]; omega)
    · exact Or.inr ⟨e', List.mem_cons_of_mem e he', h⟩

/-- Of two or more keys one goes on differently behind what all share. -/
theorem exists_head?_ne {k : List Nibble} {v : Bytes} {es : List HexEntry} (hs : SortedKeys ((k, v) :: es)) (hne : es ≠ []) :
    ∃ e ∈ es, (k.drop (minShared k k.length es)).head? ≠ (e.1.drop (minShared k k.length es)).head? := by
  have hlt := (List.pairwise_cons.mp hs).1
  have hkey : ∀ e ∈ es, k ≠ e.1 := by
    rintro e he rfl
    exact List.lt_irrefl _ (hlt e he)
  rcases minShared_attained k k.length es with h | ⟨e, he, h⟩
  · obtain ⟨e, he⟩ := List.exists_mem_of_ne_nil es hne
    refine ⟨e, he, ?_⟩
    have hle := (minShared_le k k.length es).2 e he
    have hsh : sharedLength k e.1 = k.length := Nat.le_antisymm (sharedLength_le k e.1) (h ▸ hle)
    rw [h, ← hsh, sharedLength_comm]
    exact Patricia.head?_drop_sharedLength_ne (hkey e he)
  · refine ⟨e, he, ?_⟩
    rw [h, sharedLength_comm]
    exact Patricia.head?_drop_sharedLength_ne (hkey e he)

/-- A canonical tree with entries that begin differently starts with a branch. -/
theorem isBranch_of_head?_ne {t : Tree} (ht : t.Canonical) {x y : List Nibble} (hx : t.get x ≠ none) (hy : t.get y ≠ none)
    (h : x.head? ≠ y.head?) : t.IsBranch := by
  cases t with
  | empty => exact absurd rfl hx
  | leaf k w =>
    have hone : ∀ z, (Patricia.leaf k w : Tree).get z ≠ none → z = k := by
      intro z hz
      by_contra hne
      exact hz (by rw [Patricia.get_leaf_apply, if_neg hne])
    rw [hone x hx, hone y hy] at h
    exact absurd rfl h
  | ext k c =>
    cases k with
    | nil => exact absurd rfl ht.1
    | cons i k =>
      have hone : ∀ z, (Patricia.ext (i :: k) c : Tree).get z ≠ none → z.head? = some i := by
        intro z hz
        rcases under_cases (i :: k) c.get z with ⟨r, rfl, -⟩ | ⟨-, hn⟩
        · rfl
        · exact absurd hn hz
      rw [hone x hx, hone y hy] at h
      exact absurd rfl h
  | branch cs w => trivial

/-! ## The slots of a branch -/

/-- The entries whose keys begin with `i`. -/
def inSlot (i : Nat) (e : HexEntry) : Bool := e.1.head?.map Fin.val == some i

/-- The keys of a range begin with nibbles from `i` on, in order. -/
structure Heads (i : Nat) (b : List HexEntry) : Prop where
  le : ∀ e ∈ b, ∃ d : Nibble, e.1.head? = some d ∧ i ≤ d.val
  mono : b.Pairwise fun e e' => ∀ d d' : Nibble, e.1.head? = some d → e'.1.head? = some d' → d.val ≤ d'.val

/-- The entries of a slot are taken off the front of a sorted list. -/
theorem takeSlot_eq (p : List Nibble) {i : Nat} {b : List HexEntry} (h : Heads i b) :
    takeSlot p.length i (b.map (behindPrefix p)) =
      some ((b.filter (inSlot i)).map (behindPrefix p), (b.filter fun e => !inSlot i e).map (behindPrefix p)) := by
  obtain ⟨hle, hmono⟩ := h
  induction b with
  | nil => rfl
  | cons e b ih =>
    obtain ⟨h1, h2⟩ := List.pairwise_cons.mp hmono
    obtain ⟨d, hd, hid⟩ := hle e List.mem_cons_self
    have hget : (behindPrefix p e).1[p.length]? = some d := by
      rw [behindPrefix, List.getElem?_append_right (Nat.le_refl _), Nat.sub_self, ← List.head?_eq_getElem?, hd]
    rw [List.map_cons, takeSlot, hget]
    by_cases hdi : d.val = i
    · have hin : inSlot i e = true := by simp [inSlot, hd, hdi]
      simp only [if_pos hdi, ih (fun e' he' => hle e' (List.mem_cons_of_mem e he')) h2, Option.map_some, List.filter_cons, hin]
      simp
    · have hout : ∀ e' ∈ e :: b, inSlot i e' = false := by
        intro e' he'
        rcases List.mem_cons.mp he' with rfl | he'
        · simp [inSlot, hd, hdi]
        · obtain ⟨d', hd', -⟩ := hle e' (List.mem_cons_of_mem e he')
          have := h1 e' he' d d' hd hd'
          simp only [inSlot, hd', Option.map_some, beq_eq_false_iff_ne, ne_eq, Option.some.injEq]
          omega
      dsimp only
      rw [if_neg hdi, List.filter_eq_nil_iff.mpr (fun e' he' => by simp [hout e' he']),
        List.filter_eq_self.mpr (fun e' he' => by simp [hout e' he'])]
      rfl

/-- What is left behind a slot is headed by higher nibbles. -/
theorem Heads.rest {i : Nat} {b : List HexEntry} (h : Heads i b) : Heads (i + 1) (b.filter fun e => !inSlot i e) := by
  obtain ⟨hle, hmono⟩ := h
  refine ⟨?_, hmono.filter _⟩
  intro e he
  obtain ⟨hb, hs⟩ := List.mem_filter.mp he
  obtain ⟨d, hd, hid⟩ := hle e hb
  refine ⟨d, hd, ?_⟩
  have hne : d.val ≠ i := by
    rintro rfl
    simp [inSlot, hd] at hs
  omega

/-- Taking off a slot leaves the others. -/
theorem filter_inSlot_rest {i j : Nat} (hij : j ≠ i) (b : List HexEntry) :
    (b.filter fun e => !inSlot i e).filter (inSlot j) = b.filter (inSlot j) := by
  rw [List.filter_filter]
  refine List.filter_congr ?_
  intro e _
  cases hj : inSlot j e with
  | false => rfl
  | true =>
    have hi : inSlot i e = false := by
      simp only [inSlot, beq_iff_eq] at hj
      simp only [inSlot, hj, beq_eq_false_iff_ne, ne_eq, Option.some.injEq]
      exact hij
    simp [hi]

/-- The loop over the slots from `i` on. -/
theorem hashSlots_eq {aux : List HexEntry → Option Item} (p : List Nibble) (G : Nat → Item) (n : Nat) {i : Nat}
    {b : List HexEntry} (h : Heads i b)
    (hnone : ∀ j, i ≤ j → b.filter (inSlot j) = [] → G j = .data [])
    (hsome : ∀ j, i ≤ j → b.filter (inSlot j) ≠ [] → aux ((b.filter (inSlot j)).map (behindPrefix p)) = some (G j)) :
    hashSlots aux p.length (List.range' i n) (b.map (behindPrefix p)) = some ((List.range' i n).map G) := by
  induction n generalizing i b with
  | zero => rfl
  | succ n ih =>
    have hslot : hashSlot aux ((b.filter (inSlot i)).map (behindPrefix p)) = some (G i) := by
      unfold hashSlot
      by_cases he : b.filter (inSlot i) = []
      · rw [if_pos (by simp [he]), hnone i (Nat.le_refl i) he]
      · rw [if_neg (by simpa using he), hsome i (Nat.le_refl i) he]
    have hrest : hashSlots aux p.length (List.range' (i + 1) n) ((b.filter fun e => !inSlot i e).map (behindPrefix p)) =
        some ((List.range' (i + 1) n).map G) := by
      refine ih h.rest ?_ ?_
      · intro j hj he
        rw [filter_inSlot_rest (by omega)] at he
        exact hnone j (by omega) he
      · intro j hj he
        rw [filter_inSlot_rest (by omega)] at he ⊢
        exact hsome j (by omega) he
    rw [List.range'_succ, hashSlots, takeSlot_eq p h]
    simp only [Option.bind_eq_bind, Option.bind_some, hslot, hrest, List.map_cons]
    rfl

/-- The entries of slot `i`, behind the nibble. -/
def slotRest (i : Nat) (b : List HexEntry) : List HexEntry := (b.filter (inSlot i)).map fun e => (e.1.tail, e.2)

/-- An entry of a slot is an entry with the nibble in front. -/
theorem mem_slotRest {i : Nibble} {b : List HexEntry} {x : List Nibble} {v : Bytes} :
    (x, v) ∈ slotRest i b ↔ (i :: x, v) ∈ b := by
  simp only [slotRest, List.mem_map, List.mem_filter, inSlot, beq_iff_eq, Prod.mk.injEq]
  constructor
  · rintro ⟨⟨k, w⟩, ⟨hm, hh⟩, ht, rfl⟩
    cases k with
    | nil => simp at hh
    | cons j k =>
      have hj : j = i := Fin.ext (by simpa using hh)
      simp only [List.tail_cons] at ht
      rw [← hj, ← ht]
      exact hm
  · intro hm
    exact ⟨(i :: x, v), ⟨hm, by simp⟩, by simp, rfl⟩

/-- The entries of a slot stand behind a prefix that is longer by its nibble. -/
theorem map_slotRest (p : List Nibble) (i : Nibble) (b : List HexEntry) :
    (b.filter (inSlot i)).map (behindPrefix p) = (slotRest i b).map (behindPrefix (p ++ [i])) := by
  rw [slotRest, List.map_map]
  refine List.map_congr_left ?_
  intro e he
  have hh := (List.mem_filter.mp he).2
  simp only [inSlot, beq_iff_eq] at hh
  obtain ⟨k, w⟩ := e
  cases k with
  | nil => simp at hh
  | cons j k =>
    have hj : j = i := Fin.ext (by simpa using hh)
    simp [behindPrefix, hj]

/-- The entries of a slot are sorted. -/
theorem SortedKeys.slotRest {b : List HexEntry} (h : SortedKeys b) (i : Nibble) : SortedKeys (slotRest i b) := by
  have hf : SortedKeys (b.filter (inSlot i)) := List.Pairwise.filter _ h
  have hm := map_slotRest [] i b
  rw [map_behindPrefix_nil] at hm
  rw [hm] at hf
  exact (SortedKeys.behindPrefix_iff _ _).mp hf

/-- Sorted keys that are not empty begin with nibbles in order. -/
theorem SortedKeys.heads {b : List HexEntry} (h : SortedKeys b) (hne : ∀ e ∈ b, e.1 ≠ []) : Heads 0 b := by
  refine ⟨?_, h.imp ?_⟩
  · intro e he
    cases hk : e.1 with
    | nil => exact absurd hk (hne e he)
    | cons d k => exact ⟨d, rfl, Nat.zero_le _⟩
  · intro e e' hlt d d' hd hd'
    cases hk : e.1 with
    | nil => simp [hk] at hd
    | cons i k =>
      cases hk' : e'.1 with
      | nil => simp [hk'] at hd'
      | cons j k' =>
        rw [hk, hk', List.cons_lt_cons_iff] at hlt
        simp only [hk, hk', List.head?_cons, Option.some.injEq] at hd hd'
        subst hd hd'
        rcases hlt with hlt | ⟨rfl, -⟩
        · exact Nat.le_of_lt hlt
        · exact Nat.le_refl _

/-! ## The tree of a range -/

/-- The tree has every key of the list. -/
theorem Lists.get_ne {l : List HexEntry} {t : Tree} (h : Lists l t) {e : HexEntry} (he : e ∈ l) : t.get e.1 ≠ none := by
  obtain ⟨v, -, hv⟩ := (h e.1 e.2).mp he
  rw [hv]
  exact Option.some_ne_none v

/-- No entries are listed by the empty tree. -/
theorem lists_nil : Lists [] .empty := by
  intro x b
  simp

/-- A single entry is listed by a leaf. -/
theorem lists_single {k : List Nibble} {v : Bytes} (hv : v ≠ []) : Lists [(k, v)] (.leaf k ⟨v, hv⟩) := by
  intro x b
  rw [List.mem_singleton, Patricia.get_leaf_apply, Prod.mk.injEq]
  constructor
  · rintro ⟨rfl, rfl⟩
    exact ⟨_, rfl, if_pos rfl⟩
  · rintro ⟨w, rfl, hw⟩
    by_cases hx : x = k
    · rw [if_pos hx, Option.some.injEq] at hw
      exact ⟨hx, by rw [← hw]⟩
    · rw [if_neg hx] at hw
      cases hw

/-- Entries behind a prefix are listed by an extension. -/
theorem lists_ext {l : List HexEntry} {t : Tree} (q : List Nibble) (h : Lists l t) :
    Lists (l.map (behindPrefix q)) (.ext q t) := by
  intro x b
  rw [Patricia.get_ext, List.mem_map]
  constructor
  · rintro ⟨⟨y, c⟩, hm, he⟩
    obtain ⟨rfl, rfl⟩ := Prod.mk.inj he
    rw [under_append]
    exact (h y c).mp hm
  · rintro ⟨v, rfl, hv⟩
    rcases under_cases q t.get x with ⟨y, rfl, hu⟩ | ⟨-, hu⟩
    · rw [hu] at hv
      exact ⟨(y, v.val), (h y v.val).mpr ⟨v, rfl, hv⟩, rfl⟩
    · rw [hu] at hv
      cases hv

/-- A branch with the entries of its slots and of the empty key. -/
theorem lists_branch {b l : List HexEntry} {cs : Fin 16 → Tree} {w : Option Value} (hcs : ∀ i : Fin 16, Lists (slotRest i b) (cs i))
    (hb : ∀ i x v, ((i :: x, v) : HexEntry) ∈ l ↔ (i :: x, v) ∈ b) (hw : ∀ v, (([], v) : HexEntry) ∈ l ↔ ∃ u, u.val = v ∧ w = some u) :
    Lists l (.branch cs w) := by
  intro x v
  cases x with
  | nil => exact hw v
  | cons i x => rw [hb, ← mem_slotRest, hcs i x v, Patricia.get_branch_cons]

/-- An entry lies in an occupied slot. -/
theorem occupied_of_get {cs : Fin 16 → Tree} {w : Option Value} {x : List Nibble} (h : (Patricia.branch cs w : Tree).get x ≠ none) :
    Patricia.Occupied cs w x.head? := by
  cases x with
  | nil => exact h
  | cons i x =>
    intro he
    exact h (by rw [Patricia.get_branch_cons, he]; rfl)

/-- A node that is written is hashed when it is long. -/
theorem hash256aux_eq {f : List HexEntry → Nat → Option Item} {s : List HexEntry} {n : Nat} {x : Item} (h : f s n = some x) :
    hash256aux sha3 f s n = some (refOf sha3 x) := by
  simp only [hash256aux, h, refOf]
  rfl

/-- `hash256rlp` of two or more entries. -/
theorem hash256rlp_cons (fuel : Nat) (k : List Nibble) (v : Bytes) (e : HexEntry) (es : List HexEntry) {n sp : Nat}
    (h : sharedPreLoop k n k.length (e :: es) = sp) :
    hash256rlp sha3 (fuel + 1) ((k, v) :: e :: es) n =
      if sp > n then
        (hash256aux sha3 (hash256rlp sha3 fuel) ((k, v) :: e :: es) sp).bind fun c =>
          some (.list [.data (hexPrefixEncodeVector k false n sp), c])
      else
        (hashSlots (fun s => hash256aux sha3 (hash256rlp sha3 fuel) s (n + 1)) n (List.range 16)
          (if n = k.length then e :: es else (k, v) :: e :: es)).bind fun cs =>
            some (.list (cs ++ [.data (if n = k.length then v else [])])) := by
  subst h
  rw [hash256rlp]
  rfl

/-- Two or more keys with the same next nibbles: an extension. -/
theorem hash256rlp_ext {fuel : Nat} (p : List Nibble) {k : List Nibble} {v : Bytes} {e : HexEntry} {es : List HexEntry}
    (hs : SortedKeys ((k, v) :: e :: es)) (hpos : 0 < minShared k k.length (e :: es))
    (ih : ∀ l, SortedKeys l → (∀ d ∈ l, ∃ d' ∈ (k, v) :: e :: es, d.1 = d'.1.drop (minShared k k.length (e :: es)) ∧ d.2 = d'.2) →
      ∃ t : Tree, t.Canonical ∧ Lists l t ∧
        hash256rlp sha3 fuel (l.map (behindPrefix (p ++ k.take (minShared k k.length (e :: es)))))
          (p ++ k.take (minShared k k.length (e :: es))).length = some (itemOf sha3 t)) :
    ∃ t : Tree, t.Canonical ∧ Lists ((k, v) :: e :: es) t ∧
      hash256rlp sha3 (fuel + 1) (((k, v) :: e :: es).map (behindPrefix p)) p.length = some (itemOf sha3 t) := by
  set s := minShared k k.length (e :: es) with hsdef
  obtain ⟨hle, hles⟩ := minShared_le k k.length (e :: es)
  have hlen : (k.take s).length = s := by
    rw [List.length_take]
    omega
  -- all keys begin with what they share
  have htake : ∀ d ∈ (k, v) :: e :: es, d.1 = k.take s ++ d.1.drop s := by
    intro d hd
    rcases List.mem_cons.mp hd with rfl | hd
    · exact (List.take_append_drop s k).symm
    · have h1 := hles d hd
      have h2 := (sharedLength_spec k d.1).1
      have h3 : d.1.take s = k.take s := by
        have h4 := congrArg (List.take s) h2
        rw [List.take_take, List.take_take, Nat.min_eq_left h1] at h4
        exact h4.symm
      rw [← h3, List.take_append_drop]
  have hl : (k, v) :: e :: es = (((k, v) :: e :: es).map fun d => (d.1.drop s, d.2)).map (behindPrefix (k.take s)) := by
    rw [List.map_map]
    conv_lhs => rw [← List.map_id ((k, v) :: e :: es)]
    refine List.map_congr_left ?_
    intro d hd
    exact Prod.ext (htake d hd) rfl
  have hsorted : SortedKeys (((k, v) :: e :: es).map fun d => (d.1.drop s, d.2)) := by
    rw [hl] at hs
    exact (SortedKeys.behindPrefix_iff _ _).mp hs
  obtain ⟨t, ht, hlist, hhash⟩ := ih _ hsorted (by
    intro d hd
    obtain ⟨d', hd', rfl⟩ := List.mem_map.mp hd
    exact ⟨d', hd', rfl, rfl⟩)
  obtain ⟨e', he', hhead⟩ := exists_head?_ne hs (by simp)
  have hb : t.IsBranch := by
    refine isBranch_of_head?_ne ht (x := k.drop s) (y := e'.1.drop s) ?_ ?_ hhead
    · exact hlist.get_ne (e := (k.drop s, v)) (List.mem_map.mpr ⟨(k, v), List.mem_cons_self, rfl⟩)
    · exact hlist.get_ne (e := (e'.1.drop s, e'.2)) (List.mem_map.mpr ⟨e', List.mem_cons_of_mem _ he', rfl⟩)
  have hkey : k.take s ≠ [] := by
    intro h0
    rw [h0, List.length_nil] at hlen
    omega
  refine ⟨.ext (k.take s) t, ⟨hkey, hb, ht⟩, ?_, ?_⟩
  · rw [hl]
    exact lists_ext (k.take s) hlist
  · have hmap : (((k, v) :: e :: es).map fun d => (d.1.drop s, d.2)).map (behindPrefix (p ++ k.take s)) =
        ((k, v) :: e :: es).map (behindPrefix p) := by
      conv_rhs => rw [hl, List.map_map]
      refine List.map_congr_left ?_
      intro d _
      simp [behindPrefix]
    rw [hmap, List.length_append, hlen] at hhash
    have hshare : sharedPreLoop (p ++ k) p.length (p ++ k).length ((e :: es).map (behindPrefix p)) = p.length + s := by
      rw [List.length_append]
      exact sharedPreLoop_eq p k (e :: es) (Nat.le_refl _)
    have hhex : hexPrefixEncodeVector (p ++ k) false p.length (p.length + s) = hexPrefix (k.take s) false := by
      rw [hexPrefixEncodeVector_eq, List.take_length_add_append, List.drop_left]
    have hgt : p.length + s > p.length := by omega
    have hcons : ((k, v) :: e :: es).map (behindPrefix p) =
        (p ++ k, v) :: behindPrefix p e :: es.map (behindPrefix p) := rfl
    rw [hcons] at hhash ⊢
    rw [hash256rlp_cons fuel _ _ _ _ hshare, if_pos hgt, hash256aux_eq hhash, hhex]
    rfl

/-- Two or more keys without a common next nibble: a branch. -/
theorem hash256rlp_branch {fuel : Nat} (p : List Nibble) {k : List Nibble} {v : Bytes} {e : HexEntry} {es : List HexEntry}
    (hs : SortedKeys ((k, v) :: e :: es)) (hv : v ≠ []) (hzero : minShared k k.length (e :: es) = 0)
    (ih : ∀ (i : Nibble) l, SortedKeys l → (∀ d ∈ l, (i :: d.1, d.2) ∈ (k, v) :: e :: es) →
      ∃ t : Tree, t.Canonical ∧ Lists l t ∧
        hash256rlp sha3 fuel (l.map (behindPrefix (p ++ [i]))) (p ++ [i]).length = some (itemOf sha3 t)) :
    ∃ t : Tree, t.Canonical ∧ Lists ((k, v) :: e :: es) t ∧
      hash256rlp sha3 (fuel + 1) (((k, v) :: e :: es).map (behindPrefix p)) p.length = some (itemOf sha3 t) := by
  have hlt := (List.pairwise_cons.mp hs).1
  -- the entries of the children, and the value
  obtain ⟨b, hbdef⟩ : ∃ b, b = if k = [] then e :: es else (k, v) :: e :: es := ⟨_, rfl⟩
  obtain ⟨w, hwdef⟩ : ∃ w : Option Value, w = if k = [] then some ⟨v, hv⟩ else none := ⟨_, rfl⟩
  have hrest : ∀ d ∈ e :: es, d.1 ≠ [] := by
    intro d hd h0
    have := hlt d hd
    rw [h0] at this
    exact absurd this (List.not_lt_nil _)
  have hbs : SortedKeys b ∧ (∀ d ∈ b, d ∈ (k, v) :: e :: es) ∧ ∀ d ∈ b, d.1 ≠ [] := by
    by_cases hk : k = []
    · rw [if_pos hk] at hbdef
      subst hbdef
      exact ⟨(List.pairwise_cons.mp hs).2, fun d hd => List.mem_cons_of_mem _ hd, hrest⟩
    · rw [if_neg hk] at hbdef
      subst hbdef
      refine ⟨hs, fun d hd => hd, ?_⟩
      intro d hd
      rcases List.mem_cons.mp hd with rfl | hd
      · exact hk
      · exact hrest d hd
  obtain ⟨hsb, hsub, hne⟩ := hbs
  have hchild : ∀ i : Fin 16, ∃ t : Tree, t.Canonical ∧ Lists (slotRest i b) t ∧
      hash256rlp sha3 fuel ((slotRest i b).map (behindPrefix (p ++ [i]))) (p ++ [i]).length = some (itemOf sha3 t) := by
    intro i
    refine ih i (slotRest i b) (hsb.slotRest i) ?_
    intro d hd
    exact hsub _ (mem_slotRest.mp hd)
  choose cs hcanon hlists hhash using hchild
  have hL : Lists ((k, v) :: e :: es) (.branch cs w) := by
    refine lists_branch (b := b) hlists ?_ ?_
    · intro i x c
      by_cases hk : k = []
      · rw [hbdef, if_pos hk, hk]
        simp
      · rw [hbdef, if_neg hk]
    · intro c
      have hnil : ([], c) ∉ e :: es := fun h => hrest _ h rfl
      by_cases hk : k = []
      · rw [hwdef, if_pos hk, hk, List.mem_cons]
        simp only [hnil, or_false, Prod.mk.injEq, true_and, Option.some.injEq]
        constructor
        · rintro rfl
          exact ⟨_, rfl, rfl⟩
        · rintro ⟨u, rfl, hu⟩
          rw [← hu]
      · rw [hwdef, if_neg hk, List.mem_cons]
        simp [hnil, Ne.symm hk]
  obtain ⟨e', he', hhead⟩ := exists_head?_ne hs (by simp)
  rw [hzero, List.drop_zero, List.drop_zero] at hhead
  refine ⟨.branch cs w, ⟨hcanon, k.head?, e'.1.head?, hhead, ?_, ?_⟩, hL, ?_⟩
  · exact occupied_of_get (hL.get_ne (e := (k, v)) List.mem_cons_self)
  · exact occupied_of_get (hL.get_ne (List.mem_cons_of_mem _ he'))
  · have hshare : sharedPreLoop (p ++ k) p.length (p ++ k).length ((e :: es).map (behindPrefix p)) = p.length := by
      rw [List.length_append, sharedPreLoop_eq p k (e :: es) (Nat.le_refl _), hzero, Nat.add_zero]
    have hcons : ((k, v) :: e :: es).map (behindPrefix p) =
        (p ++ k, v) :: behindPrefix p e :: es.map (behindPrefix p) := rfl
    have hlen : (p.length = (p ++ k).length) ↔ k = [] := by
      rw [List.length_append, ← List.length_eq_zero_iff]
      omega
    have hbmap : (if p.length = (p ++ k).length then behindPrefix p e :: es.map (behindPrefix p)
        else (p ++ k, v) :: behindPrefix p e :: es.map (behindPrefix p)) = b.map (behindPrefix p) := by
      by_cases hk : k = []
      · rw [if_pos (hlen.mpr hk), hbdef, if_pos hk]
        rfl
      · rw [if_neg (fun h => hk (hlen.mp h)), hbdef, if_neg hk]
        rfl
    have hval : (if p.length = (p ++ k).length then v else []) = valueBytes w := by
      by_cases hk : k = []
      · rw [if_pos (hlen.mpr hk), hwdef, if_pos hk]
        rfl
      · rw [if_neg (fun h => hk (hlen.mp h)), hwdef, if_neg hk]
        rfl
    have hslots : hashSlots (fun s => hash256aux sha3 (hash256rlp sha3 fuel) s (p.length + 1)) p.length (List.range 16)
        (b.map (behindPrefix p)) =
          some ((List.range 16).map fun j => if h : j < 16 then refOf sha3 (itemOf sha3 (cs ⟨j, h⟩)) else .data []) := by
      rw [List.range_eq_range']
      refine hashSlots_eq p _ 16 (hsb.heads hne) ?_ ?_
      · intro j _ hj
        by_cases h16 : j < 16
        · have hempty : cs ⟨j, h16⟩ = .empty := by
            by_contra hc
            obtain ⟨x, hx⟩ := (hcanon ⟨j, h16⟩).exists_get hc
            obtain ⟨u, hu⟩ := Option.ne_none_iff_exists'.mp hx
            have hm := (hlists ⟨j, h16⟩ x u.val).mpr ⟨u, rfl, hu⟩
            simp [slotRest, hj] at hm
          rw [dif_pos h16, hempty]
          rfl
        · rw [dif_neg h16]
      · intro j _ hj
        by_cases h16 : j < 16
        · have hm := map_slotRest p ⟨j, h16⟩ b
          have hh := hhash ⟨j, h16⟩
          rw [← hm, List.length_append] at hh
          rw [dif_pos h16]
          exact hash256aux_eq hh
        · -- no key begins with more than fifteen
          exfalso
          obtain ⟨d, hd⟩ := List.exists_mem_of_ne_nil _ hj
          have hh := (List.mem_filter.mp hd).2
          simp only [inSlot, beq_iff_eq] at hh
          cases hx : d.1.head? with
          | none => simp [hx] at hh
          | some c =>
            have hc := c.isLt
            simp only [hx, Option.map_some, Option.some.injEq] at hh
            omega
    have hofFn : (List.range 16).map (fun j => if h : j < 16 then refOf sha3 (itemOf sha3 (cs ⟨j, h⟩)) else .data []) =
        List.ofFn fun i => refOf sha3 (itemOf sha3 (cs i)) := by
      refine List.ext_getElem (by rw [List.length_map, List.length_range, List.length_ofFn]) ?_
      intro j h1 h2
      have hj : j < 16 := by simpa using h1
      rw [List.getElem_map, List.getElem_range, List.getElem_ofFn, dif_pos hj]
    rw [hcons, hash256rlp_cons fuel _ _ _ _ hshare, if_neg (Nat.lt_irrefl _), hbmap, hslots, hofFn, hval]
    rfl

/-- `hash256rlp` of a sorted range with the prefix `p`. -/
theorem hash256rlp_eq (sha3 : Bytes → H256) {fuel : Nat} (p : List Nibble) {l : List HexEntry} (hs : SortedKeys l) (hv : ∀ e ∈ l, e.2 ≠ [])
    (hfuel : ∀ e ∈ l, e.1.length < fuel) (hpos : 0 < fuel) :
    ∃ t : Tree, t.Canonical ∧ Lists l t ∧
      hash256rlp sha3 fuel (l.map (behindPrefix p)) p.length = some (itemOf sha3 t) := by
  induction fuel generalizing p l with
  | zero => exact absurd hpos (Nat.lt_irrefl 0)
  | succ fuel ih =>
    match l with
    | [] => exact ⟨.empty, trivial, lists_nil, rfl⟩
    | [(k, v)] =>
      have hv' : v ≠ [] := hv (k, v) List.mem_cons_self
      refine ⟨.leaf k ⟨v, hv'⟩, trivial, lists_single hv', ?_⟩
      have hhex : hexPrefixEncodeVector (p ++ k) true p.length (p ++ k).length = hexPrefix k true := by
        rw [hexPrefixEncodeVector_eq, List.take_length, List.drop_left]
      have hcons : [(k, v)].map (behindPrefix p) = [(p ++ k, v)] := rfl
      rw [hcons, hash256rlp, hhex]
      rfl
    | (k, v) :: e :: es =>
      -- of two different keys one is not empty
      have hfuel0 : 0 < fuel := by
        obtain ⟨e', he', hhead⟩ := exists_head?_ne hs (by simp)
        have h1 := hfuel (k, v) List.mem_cons_self
        have h2 := hfuel e' (List.mem_cons_of_mem _ he')
        by_contra h0
        have hk : k = [] := List.length_eq_zero_iff.mp (by simp only at h1; omega)
        have he : e'.1 = [] := List.length_eq_zero_iff.mp (by omega)
        rw [hk, he, List.drop_nil] at hhead
        exact hhead rfl
      by_cases hz : minShared k k.length (e :: es) = 0
      · refine hash256rlp_branch p hs (hv _ List.mem_cons_self) hz ?_
        intro i l' hs' hsub
        refine ih (p ++ [i]) hs' ?_ ?_ hfuel0
        · intro d hd
          have := hv (i :: d.1, d.2) (hsub d hd)
          exact this
        · intro d hd
          have := hfuel _ (hsub d hd)
          simp only [List.length_cons] at this
          omega
      · refine hash256rlp_ext p hs (Nat.pos_of_ne_zero hz) ?_
        intro l' hs' hsub
        refine ih _ hs' ?_ ?_ hfuel0
        · intro d hd
          obtain ⟨d', hd', -, h2⟩ := hsub d hd
          rw [h2]
          exact hv d' hd'
        · intro d hd
          obtain ⟨d', hd', h1, -⟩ := hsub d hd
          have := hfuel d' hd'
          rw [h1, List.length_drop]
          omega

/-! ## The root of a map -/

/-- A range has one tree. -/
theorem Lists.unique {l : List HexEntry} {t t' : Tree} (h : Lists l t) (h' : Lists l t') (ht : t.Canonical) (ht' : t'.Canonical) :
    t = t' := by
  refine ht.ext_get ht' ?_
  have hle : ∀ {t t' : Tree}, Lists l t → Lists l t' → ∀ x v, t.get x = some v → t'.get x = some v := by
    intro t t' h h' x v hv
    obtain ⟨u, hu, hx⟩ := (h' x v.val).mp ((h x v.val).mpr ⟨v, rfl, hv⟩)
    rw [hx, Subtype.ext hu]
  funext x
  cases hx : t.get x with
  | some v => rw [hle h h' x v hx]
  | none =>
    cases hx' : t'.get x with
    | none => rfl
    | some v =>
      rw [hle h' h x v hx'] at hx
      cases hx

/-- The order of the source is that of lists. -/
theorem lt_of_compare {a b : List Nibble} (h : compare a b = .lt) : a < b := by
  induction a generalizing b with
  | nil =>
    cases b with
    | nil => cases h
    | cons j b => exact List.nil_lt_cons j b
  | cons i a ih =>
    cases b with
    | nil => cases h
    | cons j b =>
      rw [List.cons_lt_cons_iff]
      rw [List.compare_cons_cons] at h
      cases hc : compare i j with
      | lt => exact Or.inl (compare_lt_iff_lt.mp hc)
      | eq =>
        rw [hc] at h
        exact Or.inr ⟨Std.LawfulEqOrd.eq_of_compare hc, ih h⟩
      | gt =>
        rw [hc] at h
        cases h

/-- The map of nibble keys that `rlp256` builds. -/
theorem getElem?_hexMap (es : List (Bytes × Bytes)) (hd : es.Pairwise fun a b => a.1 ≠ b.1) (m : HexMap)
    (hm : ∀ e ∈ es, m[asNibbles e.1]? = none) (x : List Nibble) (b : Bytes) :
    (es.foldl (fun m e => m.insert (asNibbles e.1) e.2) m)[x]? = some b ↔
      m[x]? = some b ∨ ∃ e ∈ es, asNibbles e.1 = x ∧ e.2 = b := by
  induction es generalizing m with
  | nil => simp
  | cons e es ih =>
    obtain ⟨h1, h2⟩ := List.pairwise_cons.mp hd
    have hne : ∀ e' ∈ es, compare (asNibbles e.1) (asNibbles e'.1) ≠ .eq := by
      intro e' he' hc
      exact h1 e' he' (asNibbles_injective (Std.LawfulEqOrd.eq_of_compare hc))
    rw [List.foldl_cons, ih h2]
    · rw [Std.TreeMap.getElem?_insert]
      by_cases hx : compare (asNibbles e.1) x = .eq
      · have hx' := Std.LawfulEqOrd.eq_of_compare hx
        rw [if_pos hx]
        constructor
        · rintro (h | ⟨e', he', h⟩)
          · exact Or.inr ⟨e, List.mem_cons_self, hx', Option.some.inj h⟩
          · exact Or.inr ⟨e', List.mem_cons_of_mem e he', h⟩
        · rintro (h | ⟨e', he', h, hb⟩)
          · rw [← hx', hm e List.mem_cons_self] at h
            cases h
          · rcases List.mem_cons.mp he' with rfl | he'
            · exact Or.inl (by rw [hb])
            · exact Or.inr ⟨e', he', h, hb⟩
      · rw [if_neg hx]
        constructor
        · rintro (h | ⟨e', he', h⟩)
          · exact Or.inl h
          · exact Or.inr ⟨e', List.mem_cons_of_mem e he', h⟩
        · rintro (h | ⟨e', he', h, hb⟩)
          · exact Or.inl h
          · rcases List.mem_cons.mp he' with rfl | he'
            · exact absurd (by rw [h]; exact Std.ReflOrd.compare_self) hx
            · exact Or.inr ⟨e', he', h, hb⟩
    · intro e' he'
      rw [Std.TreeMap.getElem?_insert, if_neg (hne e' he')]
      exact hm e' (List.mem_cons_of_mem e he')

/-- The hex map has the entries of the contents, by nibbles. -/
theorem mem_hexMap (s : BytesMap) (x : List Nibble) (b : Bytes) :
    (x, b) ∈ (s.toList.reverse.foldl (fun m e => m.insert (asNibbles e.1) e.2) (∅ : HexMap)).toList ↔
      ∃ k, asNibbles k = x ∧ s[k]? = some b := by
  rw [Std.TreeMap.mem_toList_iff_getElem?_eq_some, getElem?_hexMap]
  · constructor
    · rintro (h | ⟨⟨k, c⟩, he, hk, hb⟩)
      · simp at h
      · rw [List.mem_reverse] at he
        exact ⟨k, hk, by rw [← hb]; exact Std.TreeMap.mem_toList_iff_getElem?_eq_some.mp he⟩
    · rintro ⟨k, hk, hs⟩
      refine Or.inr ⟨(k, b), ?_, hk, rfl⟩
      rw [List.mem_reverse]
      exact Std.TreeMap.mem_toList_iff_getElem?_eq_some.mpr hs
  · rw [List.pairwise_reverse]
    refine Std.TreeMap.distinct_keys_toList.imp ?_
    rintro a b' hne heq
    exact hne (by rw [heq]; exact Std.ReflOrd.compare_self)
  · intro e _
    simp

/-- A maximum bounds what it is taken of. -/
theorem le_foldr_max {l : List Nat} {n : Nat} (h : n ∈ l) : n ≤ l.foldr max 0 := by
  induction l with
  | nil => exact absurd h List.not_mem_nil
  | cons m l ih =>
    rw [List.foldr_cons]
    rcases List.mem_cons.mp h with rfl | h
    · exact Nat.le_max_left _ _
    · exact Nat.le_trans (ih h) (Nat.le_max_right _ _)

/-- A tree has the entries of a map. -/
def Denotes (s : BytesMap) (t : Tree) : Prop :=
  (∀ k b, s[k]? = some b ↔ ∃ v : Value, v.val = b ∧ t.get (asNibbles k) = some v) ∧
    ∀ x, t.get x ≠ none → ∃ k, asNibbles k = x

/-- `hash256` of a map is the hash of the first node of its tree. -/
theorem hash256_eq {s : BytesMap} {t : Tree} (ht : t.Canonical) (h : Denotes s t) :
    hash256 sha3 s = some (hashOf sha3 (itemOf sha3 t)) := by
  obtain ⟨hget, hkeys⟩ := h
  unfold hash256 rlp256
  by_cases he : s.isEmpty = true
  · have hempty : t = .empty := by
      by_contra hne
      obtain ⟨x, hx⟩ := ht.exists_get hne
      obtain ⟨k, rfl⟩ := hkeys x hx
      obtain ⟨v, hv⟩ := Option.ne_none_iff_exists'.mp hx
      have := (hget k v.val).mpr ⟨v, rfl, hv⟩
      rw [Std.TreeMap.getElem?_of_isEmpty he] at this
      cases this
    rw [if_pos he, hempty]
    rfl
  · rw [if_neg he]
    have hmem := mem_hexMap s
    generalize (s.toList.reverse.foldl (fun m e => m.insert (asNibbles e.1) e.2) (∅ : HexMap)) = m at hmem ⊢
    have hsorted : SortedKeys m.toList := Std.TreeMap.ordered_keys_toList.imp lt_of_compare
    have hlists : Lists m.toList t := by
      intro x b
      rw [hmem]
      constructor
      · rintro ⟨k, rfl, hk⟩
        exact (hget k b).mp hk
      · rintro ⟨v, rfl, hv⟩
        obtain ⟨k, rfl⟩ := hkeys x (by rw [hv]; exact Option.some_ne_none v)
        exact ⟨k, rfl, (hget k v.val).mpr ⟨v, rfl, hv⟩⟩
    have hvals : ∀ e ∈ m.toList, e.2 ≠ [] := by
      intro e he'
      obtain ⟨v, hv, -⟩ := (hlists e.1 e.2).mp he'
      rw [← hv]
      exact v.property
    have hfuel : ∀ e ∈ m.toList, e.1.length < hashFuel m.toList := by
      intro e he'
      exact Nat.lt_succ_of_le (le_foldr_max (List.mem_map.mpr ⟨e, he', rfl⟩))
    obtain ⟨t', ht', hl', hh⟩ := hash256rlp_eq sha3 [] hsorted hvals hfuel (Nat.succ_pos _)
    rw [map_behindPrefix_nil, List.length_nil] at hh
    simp only [hh, Option.map_some, hl'.unique hlists ht' ht]

end Webthree
