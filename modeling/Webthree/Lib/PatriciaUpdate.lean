import Webthree.Lib.Patricia

/-!
# Setting and erasing entries of a Patricia tree

Both keep a tree canonical. A word that leaves the tree inside the word of a node splits that node; a branch that is left with
one thing is joined to it.
-/

namespace Webthree

namespace Patricia

variable {n : Nat} {α : Type}

/-! ## Setting an entry -/

/-- The branch with the single child `c`. -/
def only (i : Fin n) (c : Patricia n α) : Patricia n α := branch (Function.update (fun _ => empty) i c) none

/-- A leaf or an extension as a branch. -/
def spread : Patricia n α → Patricia n α
  | leaf [] v => branch (fun _ => empty) (some v)
  | leaf (i :: k) v => only i (leaf k v)
  | ext [i] c => only i c
  | ext (i :: j :: k) c => only i (ext (j :: k) c)
  | t => t

/-- A tree behind the word `k`. -/
def behind (k : List (Fin n)) (c : Patricia n α) : Patricia n α := if k = [] then c else ext k c

/-- Putting an entry where a branch has none. -/
def put (x : List (Fin n)) (w : α) : Patricia n α → Patricia n α
  | branch cs v =>
    match x with
    | [] => branch cs (some w)
    | i :: x => branch (Function.update cs i (leaf x w)) v
  | t => t

/-- Setting the entry of a word. -/
def insert : Patricia n α → List (Fin n) → α → Patricia n α
  | empty, x, w => leaf x w
  | leaf k v, x, w =>
    if k = x then leaf x w
    else
      let s := sharedLength x k
      behind (k.take s) (put (x.drop s) w (spread (leaf (k.drop s) v)))
  | ext k c, x, w =>
    if k <+: x then ext k (c.insert (x.drop k.length) w)
    else
      let s := sharedLength x k
      behind (k.take s) (put (x.drop s) w (spread (ext (k.drop s) c)))
  | branch cs _, [], w => branch cs (some w)
  | branch cs v, i :: x, w => branch (Function.update cs i ((cs i).insert x w)) v

/-- A branch with one child has what that has, one step below. -/
theorem get_only (i : Fin n) (c : Patricia n α) : (only i c).get = under [i] c.get := by
  funext x
  cases x with
  | nil => simp [only, under]
  | cons j x =>
    by_cases h : j = i
    · subst h
      simp [only, under]
    · simp [only, under, h, Ne.symm h]

/-- A leaf that is spread has what it had. -/
theorem get_spread_leaf (k : List (Fin n)) (v : α) : (spread (leaf k v)).get = under k (single v) := by
  cases k with
  | nil =>
    funext x
    cases x <;> simp [spread, single]
  | cons i k => rw [spread, get_only, get_leaf, under_under, List.singleton_append]

/-- An extension that is spread has what it had. -/
theorem get_spread_ext (k : List (Fin n)) (c : Patricia n α) : (spread (ext k c)).get = under k c.get := by
  match k with
  | [] => rfl
  | [i] => rw [spread, get_only]
  | i :: j :: k => rw [spread, get_only, get_ext, under_under, List.singleton_append]

/-- A tree that is put behind a path has what it had, below the path. -/
theorem get_behind (k : List (Fin n)) (c : Patricia n α) : (behind k c).get = under k c.get := by
  unfold behind
  by_cases h : k = []
  · simp [h]
  · rw [if_neg h, get_ext]

/-- Changing one child changes the entries behind its symbol. -/
theorem get_branch_update (cs : Fin n → Patricia n α) (v : Option α) (i : Fin n) (x : List (Fin n)) (c : Patricia n α)
    (r : Option α) (h : c.get = Function.update (cs i).get x r) :
    (branch (Function.update cs i c) v).get = Function.update (branch cs v).get (i :: x) r := by
  funext y
  cases y with
  | nil => rw [Function.update_of_ne (by simp)]; rfl
  | cons j y =>
    rw [get_branch_cons]
    by_cases hj : j = i
    · subst hj
      rw [Function.update_self, h]
      by_cases hy : y = x
      · subst hy
        simp
      · rw [Function.update_of_ne hy, Function.update_of_ne (by simpa using hy), get_branch_cons]
    · rw [Function.update_of_ne hj, Function.update_of_ne (by simp [hj]), get_branch_cons]

/-- Changing the value of a branch changes the entry of the empty word. -/
theorem get_branch_value (cs : Fin n → Patricia n α) (v r : Option α) :
    (branch cs r).get = Function.update (branch cs v).get [] r := by
  funext y
  cases y with
  | nil => simp
  | cons j y => rw [Function.update_of_ne (by simp)]; rfl

/-- What is put into a branch where there is no child is there, and all else as before. -/
theorem get_put {cs : Fin n → Patricia n α} {v : Option α} {x : List (Fin n)} (w : α)
    (h : ∀ i, x.head? = some i → cs i = empty) :
    (put x w (branch cs v)).get = Function.update (branch cs v).get x (some w) := by
  cases x with
  | nil => exact get_branch_value cs v (some w)
  | cons i x =>
    refine get_branch_update cs v i x (leaf x w) (some w) ?_
    rw [h i rfl]
    funext y
    rw [get_leaf_apply]
    by_cases hy : y = x
    · subst hy
      simp
    · rw [if_neg hy, Function.update_of_ne hy]
      rfl

/-- A leaf or an extension spread out: a branch with one thing in it, in the slot where its word begins. -/
structure Spread (t : Patricia n α) (k : List (Fin n)) : Prop where
  exists_branch : ∃ cs v, spread t = branch cs v ∧ (∀ i, (cs i).Canonical) ∧ Occupied cs v k.head? ∧
    ∀ i, k.head? ≠ some i → cs i = empty

/-- A branch with one child is a canonical one that needs only another occupant. -/
theorem spread_only (i : Fin n) {c : Patricia n α} (hc : c.Canonical) (hne : c ≠ empty) :
    ∃ cs v, only i c = branch cs v ∧ (∀ j, (cs j).Canonical) ∧ Occupied cs v (some i) ∧ ∀ j, some i ≠ some j → cs j = empty := by
  refine ⟨_, _, rfl, ?_, ?_, ?_⟩
  · intro j
    by_cases h : j = i
    · subst h
      simpa using hc
    · rw [Function.update_of_ne h]
      trivial
  · simpa [Occupied] using hne
  · intro j hj
    rw [Function.update_of_ne (fun h => hj (by rw [h]))]

/-- A leaf can be spread along its own path. -/
theorem spread_leaf (k : List (Fin n)) (v : α) : Spread (leaf k v) k := by
  cases k with
  | nil => exact ⟨_, _, rfl, fun _ => trivial, by simp [Occupied], fun _ _ => rfl⟩
  | cons i k => exact ⟨spread_only i (c := leaf k v) trivial (by simp)⟩

/-- An extension can be spread along its path. -/
theorem spread_ext {k : List (Fin n)} {c : Patricia n α} (hk : k ≠ []) (hb : c.IsBranch) (hc : c.Canonical) :
    Spread (ext k c) k := by
  match k with
  | [] => exact absurd rfl hk
  | [i] => exact ⟨spread_only i hc hb.ne_empty⟩
  | i :: j :: k => exact ⟨spread_only i (c := ext (j :: k) c) ⟨by simp, hb, hc⟩ (by simp)⟩

/-- Putting a second thing into a spread node. -/
theorem Spread.put_spec {t : Patricia n α} {k x : List (Fin n)} (h : Spread t k) (w : α) (hne : k.head? ≠ x.head?) :
    (put x w (spread t)).get = Function.update (spread t).get x (some w) ∧
      (put x w (spread t)).Canonical ∧ (put x w (spread t)).IsBranch := by
  obtain ⟨cs, v, he, hcs, ho, hempty⟩ := h.exists_branch
  rw [he]
  refine ⟨get_put w fun i hi => hempty i (by rw [← hi]; exact hne), ?_⟩
  cases x with
  | nil =>
    refine ⟨⟨hcs, k.head?, none, hne, ?_, by simp [Occupied]⟩, trivial⟩
    cases hk : k.head? with
    | none => exact absurd hk hne
    | some i => rw [hk] at ho; exact ho
  | cons i x =>
    refine ⟨⟨?_, k.head?, some i, hne, ?_, by simp [Occupied]⟩, trivial⟩
    · intro j
      by_cases hj : j = i
      · subst hj
        simp [Canonical]
      · rw [Function.update_of_ne hj]
        exact hcs j
    · cases hk : k.head? with
      | none => rw [hk] at ho; exact ho
      | some j =>
        rw [hk] at ho
        have hji : j ≠ i := fun h => hne (by rw [hk, h]; rfl)
        simpa [Occupied, Function.update_of_ne hji] using ho

/-- A branch behind a path is canonical. -/
theorem canonical_behind (k : List (Fin n)) {c : Patricia n α} (hc : c.Canonical) (hb : c.IsBranch) :
    (behind k c).Canonical := by
  unfold behind
  split
  · exact hc
  · next h => exact ⟨h, hb, hc⟩

/-- The two rests behind the common beginning of two words begin differently, unless the words are the same. -/
theorem head?_drop_sharedLength_ne {x k : List (Fin n)} (h : k ≠ x) :
    (k.drop (sharedLength x k)).head? ≠ (x.drop (sharedLength x k)).head? := by
  obtain ⟨ht, hd⟩ := sharedLength_spec x k
  intro he
  cases hx : (x.drop (sharedLength x k)).head? with
  | some a => exact hd a hx (he.trans hx)
  | none =>
    rw [hx] at he
    have hk : k = k.take (sharedLength x k) := by
      simpa [List.head?_eq_none_iff.mp he] using (List.take_append_drop (sharedLength x k) k).symm
    have hx' : x = x.take (sharedLength x k) := by
      simpa [List.head?_eq_none_iff.mp hx] using (List.take_append_drop (sharedLength x k) x).symm
    exact h (hk.trans (ht.symm.trans hx'.symm))

/-- Splitting a node whose word is `k` for the word `x`. -/
theorem split_spec {k x : List (Fin n)} (w : α) (h : k ≠ x) {t : Patricia n α} {m : List (Fin n) → Option α}
    (ht : Spread t (k.drop (sharedLength x k))) (hm : (spread t).get = under (k.drop (sharedLength x k)) m) :
    let t' := behind (k.take (sharedLength x k)) (put (x.drop (sharedLength x k)) w (spread t))
    t'.get = Function.update (under k m) x (some w) ∧ t'.Canonical := by
  obtain ⟨hg, hc, hb⟩ := ht.put_spec w (head?_drop_sharedLength_ne h)
  refine ⟨?_, canonical_behind _ hc hb⟩
  rw [get_behind, hg, hm, under_update, under_under, List.take_append_drop, ← (sharedLength_spec x k).1,
    List.take_append_drop]

/-- A branch stays one when something is inserted. -/
theorem IsBranch.insert {t : Patricia n α} (h : t.IsBranch) (x : List (Fin n)) (w : α) : (t.insert x w).IsBranch := by
  obtain ⟨cs, v, rfl⟩ := h.exists_eq
  cases x with
  | nil => trivial
  | cons i x => trivial

/-- A set entry is there, and a canonical tree stays one. -/
theorem insert_spec {t : Patricia n α} (ht : t.Canonical) (x : List (Fin n)) (w : α) :
    (t.insert x w).get = Function.update t.get x (some w) ∧ (t.insert x w).Canonical := by
  induction t generalizing x with
  | empty =>
    refine ⟨?_, trivial⟩
    funext y
    rw [insert, get_leaf_apply]
    by_cases hy : y = x
    · subst hy
      simp
    · rw [if_neg hy, Function.update_of_ne hy]
      rfl
  | leaf k v =>
    unfold insert
    by_cases hk : k = x
    · subst hk
      rw [if_pos rfl]
      refine ⟨?_, trivial⟩
      funext y
      by_cases hy : y = k
      · subst hy
        simp [get_leaf_apply]
      · rw [Function.update_of_ne hy, get_leaf_apply, get_leaf_apply, if_neg hy, if_neg hy]
    · rw [if_neg hk]
      exact split_spec w hk (spread_leaf _ v) (get_spread_leaf _ v)
  | ext k c ih =>
    obtain ⟨hk, hb, hc⟩ := ht
    unfold insert
    by_cases hp : k <+: x
    · obtain ⟨y, rfl⟩ := hp
      obtain ⟨hg, hc'⟩ := ih hc y
      rw [if_pos (List.prefix_append k y), List.drop_left]
      exact ⟨by rw [get_ext, hg, under_update, get_ext], hk, hb.insert y w, hc'⟩
    · rw [if_neg hp]
      have hkx : k ≠ x := by
        rintro rfl
        exact hp (List.prefix_refl k)
      have hd : k.drop (sharedLength x k) ≠ [] := by
        intro hd
        refine hp ((sharedLength_eq_length_iff x k).mp (Nat.le_antisymm ?_ (List.drop_eq_nil_iff.mp hd)))
        rw [sharedLength_comm]
        exact sharedLength_le k x
      exact split_spec w hkx (spread_ext hd hb hc) (get_spread_ext _ c)
  | branch cs v ih =>
    obtain ⟨hcs, s, s', hne, hs, hs'⟩ := ht
    cases x with
    | nil =>
      refine ⟨get_branch_value cs v (some w), hcs, s, s', hne, ?_, ?_⟩
      · cases s with
        | none => simp [Occupied]
        | some i => exact hs
      · cases s' with
        | none => simp [Occupied]
        | some i => exact hs'
    | cons i x =>
      obtain ⟨hg, hc'⟩ := ih i (hcs i) x
      have hkeep : ∀ s, Occupied cs v s → Occupied (Function.update cs i ((cs i).insert x w)) v s := by
        intro s hs
        cases s with
        | none => exact hs
        | some j =>
          by_cases hj : j = i
          · subst hj
            rw [Occupied, Function.update_self]
            intro he
            have := congrFun hg x
            simp [he] at this
          · rw [Occupied, Function.update_of_ne hj]
            exact hs
      refine ⟨get_branch_update cs v i x _ _ hg, ?_, s, s', hne, hkeep s hs, hkeep s' hs'⟩
      intro j
      by_cases hj : j = i
      · subst hj
        rw [Function.update_self]
        exact hc'
      · rw [Function.update_of_ne hj]
        exact hcs j

/-! ## Erasing an entry -/

/-- A tree behind the word `k`, joined to the word of its first node if that has one. -/
def graft (k : List (Fin n)) : Patricia n α → Patricia n α
  | leaf k' v => leaf (k ++ k') v
  | ext k' c => ext (k ++ k') c
  | c => ext k c

/-- No tree is there. -/
def isEmpty : Patricia n α → Bool
  | empty => true
  | _ => false

/-- Only the empty tree is empty. -/
@[simp] theorem isEmpty_iff (t : Patricia n α) : t.isEmpty = true ↔ t = empty := by
  cases t <;> simp [isEmpty]

/-- The symbols that have a child. -/
def occupants (cs : Fin n → Patricia n α) : List (Fin n) := (List.finRange n).filter fun i => !(cs i).isEmpty

/-- A branch, joined to what is in it if that is one thing only. -/
def collapse (cs : Fin n → Patricia n α) (v : Option α) : Patricia n α :=
  match occupants cs, v with
  | [], some w => leaf [] w
  | [i], none => graft [i] (cs i)
  | _, v => branch cs v

/-- Erasing the entry of a word. -/
def erase : Patricia n α → List (Fin n) → Patricia n α
  | empty, _ => empty
  | leaf k v, x => if k = x then empty else leaf k v
  | ext k c, x => if k <+: x then graft k (c.erase (x.drop k.length)) else ext k c
  | branch cs _, [] => collapse cs none
  | branch cs v, i :: x => collapse (Function.update cs i ((cs i).erase x)) v

/-- The occupants are the children that are not empty. -/
theorem mem_occupants (cs : Fin n → Patricia n α) (i : Fin n) : i ∈ occupants cs ↔ cs i ≠ empty := by
  simp [occupants, ← isEmpty_iff]

/-- No occupant is there twice. -/
theorem nodup_occupants (cs : Fin n → Patricia n α) : (occupants cs).Nodup := (List.nodup_finRange n).filter _

/-- What becomes of a branch: it holds one child, or its value only, or two things, or nothing. -/
theorem collapse_cases (cs : Fin n → Patricia n α) (v : Option α) :
    (∃ i, v = none ∧ cs i ≠ empty ∧ (∀ j, j ≠ i → cs j = empty) ∧ collapse cs v = graft [i] (cs i)) ∨
    (∃ w, v = some w ∧ (∀ j, cs j = empty) ∧ collapse cs v = leaf [] w) ∨
    (collapse cs v = branch cs v ∧ ∃ s s', s ≠ s' ∧ Occupied cs v s ∧ Occupied cs v s') ∨
    (collapse cs v = branch cs v ∧ v = none ∧ ∀ j, cs j = empty) := by
  have hmem := mem_occupants cs
  have hnodup := nodup_occupants cs
  unfold collapse
  match hl : occupants cs, v with
  | [], some w =>
    refine Or.inr (Or.inl ⟨w, rfl, ?_, rfl⟩)
    intro j
    by_contra hj
    have := (hmem j).mpr hj
    simp [hl] at this
  | [], none =>
    refine Or.inr (Or.inr (Or.inr ⟨rfl, rfl, ?_⟩))
    intro j
    by_contra hj
    have := (hmem j).mpr hj
    simp [hl] at this
  | [i], none =>
    refine Or.inl ⟨i, rfl, (hmem i).mp (by simp [hl]), ?_, rfl⟩
    intro j hj
    by_contra he
    have := (hmem j).mpr he
    simp [hl, hj] at this
  | [i], some w =>
    exact Or.inr (Or.inr (Or.inl ⟨rfl, some i, none, by simp, (hmem i).mp (by simp [hl]), by simp [Occupied]⟩))
  | i :: j :: l, v =>
    rw [hl] at hnodup
    have hij : i ≠ j := by
      rintro rfl
      simp at hnodup
    refine Or.inr (Or.inr (Or.inl ⟨rfl, some i, some j, by simpa using hij, ?_, ?_⟩))
    · exact (hmem i).mp (by simp [hl])
    · exact (hmem j).mp (by simp [hl])

/-- What is grafted onto a path is below it. -/
theorem get_graft (k : List (Fin n)) (c : Patricia n α) : (graft k c).get = under k c.get := by
  cases c with
  | empty => rfl
  | leaf k' v => rw [graft, get_leaf, get_leaf, under_under]
  | ext k' c => rw [graft, get_ext, get_ext, under_under]
  | branch cs v => rfl

/-- What is canonical stays so when it is grafted onto a path. -/
theorem canonical_graft {k : List (Fin n)} (hk : k ≠ []) {c : Patricia n α} (hc : c.Canonical) (hne : c ≠ empty) :
    (graft k c).Canonical := by
  cases c with
  | empty => exact absurd rfl hne
  | leaf k' v => trivial
  | ext k' c => exact ⟨by simp [hk], hc.2.1, hc.2.2⟩
  | branch cs v => exact ⟨hk, trivial, hc⟩

/-- A branch that is collapsed has what it had. -/
theorem get_collapse (cs : Fin n → Patricia n α) (v : Option α) : (collapse cs v).get = (branch cs v).get := by
  rcases collapse_cases cs v with ⟨i, rfl, -, hj, he⟩ | ⟨w, rfl, hj, he⟩ | ⟨he, -⟩ | ⟨he, -⟩
  · rw [he, get_graft]
    funext x
    cases x with
    | nil => simp [under]
    | cons j x =>
      by_cases h : j = i
      · subst h
        simp [under]
      · simp [under, Ne.symm h, hj j h]
  · rw [he]
    funext x
    cases x with
    | nil => simp [get_leaf_apply]
    | cons j x => simp [get_leaf_apply, hj j]
  · rw [he]
  · rw [he]

/-- A branch with an occupant is canonical once it is collapsed. -/
theorem canonical_collapse {cs : Fin n → Patricia n α} {v : Option α} (hcs : ∀ i, (cs i).Canonical) {s : Option (Fin n)}
    (hs : Occupied cs v s) : (collapse cs v).Canonical := by
  rcases collapse_cases cs v with ⟨i, -, hi, -, he⟩ | ⟨w, -, -, he⟩ | ⟨he, h2⟩ | ⟨-, hv, hj⟩
  · rw [he]
    exact canonical_graft (by simp) (hcs i) hi
  · rw [he]
    trivial
  · rw [he]
    exact ⟨hcs, h2⟩
  · cases s with
    | none => exact absurd hv hs
    | some i => exact absurd (hj i) hs

/-- An erased entry is gone, and a canonical tree stays one. -/
theorem erase_spec {t : Patricia n α} (ht : t.Canonical) (x : List (Fin n)) :
    (t.erase x).get = Function.update t.get x none ∧ (t.erase x).Canonical := by
  induction t generalizing x with
  | empty =>
    refine ⟨?_, trivial⟩
    funext y
    by_cases hy : y = x
    · subst hy
      simp [erase]
    · rw [Function.update_of_ne hy]
      rfl
  | leaf k v =>
    unfold erase
    by_cases hk : k = x
    · subst hk
      rw [if_pos rfl]
      refine ⟨?_, trivial⟩
      funext y
      by_cases hy : y = k
      · subst hy
        simp
      · rw [Function.update_of_ne hy, get_leaf_apply, if_neg hy]
        rfl
    · rw [if_neg hk]
      refine ⟨?_, trivial⟩
      rw [Function.update_eq_self_iff.mpr]
      rw [get_leaf_apply, if_neg (Ne.symm hk)]
  | ext k c ih =>
    obtain ⟨hk, hb, hc⟩ := ht
    unfold erase
    by_cases hp : k <+: x
    · obtain ⟨y, rfl⟩ := hp
      obtain ⟨hg, hc'⟩ := ih hc y
      rw [if_pos (List.prefix_append k y), List.drop_left]
      refine ⟨by rw [get_graft, hg, under_update, get_ext], canonical_graft hk hc' ?_⟩
      -- the branch below held something besides the erased entry
      intro he
      obtain ⟨cs, v, rfl⟩ := hb.exists_eq
      obtain ⟨z, hz, hz'⟩ := hc.exists_get_ne y
      rw [he] at hg
      have := congrFun hg z
      rw [Function.update_of_ne hz, get_empty] at this
      exact hz' this.symm
    · rw [if_neg hp]
      refine ⟨?_, hk, hb, hc⟩
      rw [Function.update_eq_self_iff.mpr]
      rw [get_ext, under_of_not_initial _ hp]
  | branch cs v ih =>
    cases x with
    | nil =>
      obtain ⟨s, hs, ho⟩ := ht.other none
      refine ⟨by rw [erase, get_collapse, get_branch_value cs v none], ?_⟩
      cases s with
      | none => exact absurd rfl hs
      | some i => exact canonical_collapse (s := some i) ht.1 ho
    | cons i x =>
      obtain ⟨hg, hc'⟩ := ih i (ht.1 i) x
      refine ⟨by rw [erase, get_collapse, get_branch_update cs v i x _ _ hg], ?_⟩
      obtain ⟨s, hs, ho⟩ := ht.other (some i)
      refine canonical_collapse (s := s) ?_ ?_
      · intro j
        by_cases hj : j = i
        · subst hj
          rw [Function.update_self]
          exact hc'
        · rw [Function.update_of_ne hj]
          exact ht.1 j
      · cases s with
        | none => exact ho
        | some j =>
          rw [Occupied, Function.update_of_ne (fun h => hs (by rw [h]))]
          exact ho

/-- Erasing a word that is not there changes nothing. -/
theorem erase_of_get_eq_none {t : Patricia n α} (ht : t.Canonical) {x : List (Fin n)} (h : t.get x = none) :
    t.erase x = t := by
  obtain ⟨hg, hc⟩ := erase_spec ht x
  refine hc.ext_get ht ?_
  rw [hg]
  exact Function.update_eq_self_iff.mpr h.symm

end Patricia

end Webthree
