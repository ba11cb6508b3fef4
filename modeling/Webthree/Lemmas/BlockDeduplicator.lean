import Webthree.Asm.BlockDeduplicator
import Webthree.Lemmas.Machine
import Mathlib.Algebra.Order.BigOperators.Group.List
import Mathlib.Data.Prod.Lex
import Mathlib.Order.Lex
import Mathlib.Data.List.Lex

/-!
# Blocks with the same contents

An iteration of the deduplicator keeps what the items do: while the original items run in one block, those of the iteration may run
in another one with the same contents.
-/

namespace Webthree

open AssemblyItem SemanticInformation

/-! ## The order of items -/

theorem AssemblyItemType.index_injective : Function.Injective AssemblyItemType.index := by
  intro a b h
  cases a <;> cases b <;> first | rfl | cases h

namespace AssemblyItem

/-- The place of an item in the order. -/
def key (a : AssemblyItem) : Nat ×ₗ Nat := toLex (a.type.index, a.data.toNat)

theorem key_injective : Function.Injective key := by
  intro a b h
  have h' := Prod.ext_iff.mp (toLex.injective h)
  exact eq_of (AssemblyItemType.index_injective h'.1) (BitVec.eq_of_toNat_eq h'.2)

/-- Items are compared by their keys. -/
theorem lt_iff {a b : AssemblyItem} : a.lt b = true ↔ a.key < b.key := by
  simp only [lt, key, decide_eq_true_eq, Prod.Lex.toLex_lt_toLex, BitVec.lt_def]

end AssemblyItem

namespace BlockDeduplicator

/-- Rows of items are compared as the rows of their keys. -/
theorem lexicographical_compare_iff {l l' : List AssemblyItem} :
    lexicographical_compare l l' = true ↔ l.map key < l'.map key := by
  induction l generalizing l' with
  | nil =>
    cases l' with
    | nil => simp [lexicographical_compare]
    | cons b bs => simp [lexicographical_compare]
  | cons a as ih =>
    cases l' with
    | nil => simp [lexicographical_compare]
    | cons b bs =>
      rw [lexicographical_compare, List.map_cons, List.map_cons, List.cons_lt_cons_iff]
      rcases lt_trichotomy a.key b.key with h | h | h
      · rw [if_pos (lt_iff.mpr h)]
        exact iff_of_true rfl (Or.inl h)
      · rw [if_neg (fun hlt => h.not_lt (lt_iff.mp hlt)), if_neg (fun hlt => h.not_gt (lt_iff.mp hlt)), ih]
        exact ⟨fun hl => Or.inr ⟨h, hl⟩, fun hl => (hl.resolve_left h.not_lt).2⟩
      · rw [if_neg (fun hlt => h.asymm (lt_iff.mp hlt)), if_pos (lt_iff.mpr h)]
        exact iff_of_false Bool.false_ne_true fun hl => hl.elim h.asymm fun hl => h.ne' hl.1

/-- The comparator compares the contents of the blocks in a total order. -/
theorem comparator_iff {items : List AssemblyItem} {i j : Nat} :
    comparator items i j = true ↔ (contents items i).map key < (contents items j).map key := by
  by_cases h : i = j
  · rw [comparator, if_pos h, h]
    exact iff_of_false Bool.false_ne_true (lt_irrefl _)
  · rw [comparator, if_neg h, lexicographical_compare_iff]

/-- Positions that neither comes before the other read alike. -/
theorem contents_eq_of_not_comparator {items : List AssemblyItem} {i j : Nat} (h : comparator items i j = false)
    (h' : comparator items j i = false) : contents items i = contents items j := by
  rw [Bool.eq_false_iff, Ne, comparator_iff, not_lt] at h h'
  exact List.map_injective_iff.mpr key_injective (le_antisymm h' h)

/-! ## Reading and running -/

/-- The control flow does not continue after the item. -/
def Ends (item : AssemblyItem) : Prop := altersControlFlow item = true ∧ item ≠ ofInstruction .JUMPI

instance (item : AssemblyItem) : Decidable (Ends item) := inferInstanceAs (Decidable (_ ∧ _))

/-- What is read next is what is run next. -/
theorem read_eq_fetch (own self : AssemblyItem) (l : List AssemblyItem) (k : Nat) :
    (Machine.fetch l k = none ∧ read own self l = []) ∨
      ∃ j item, Machine.fetch l k = some (k + j, item) ∧ item.type ≠ .Tag ∧ l[j]? = some item ∧
        read own self l = deref own self item :: if Ends item then [] else read own self (l.drop (j + 1)) := by
  induction l generalizing k with
  | nil => exact Or.inl ⟨rfl, rfl⟩
  | cons x rest ih =>
    by_cases hx : x.type = .Tag
    · rw [Machine.fetch, if_pos hx, read, if_pos hx]
      rcases ih (k + 1) with h | ⟨j, item, hf, ht, hj, hr⟩
      · exact Or.inl h
      · refine Or.inr ⟨j + 1, item, ?_, ht, hj, hr⟩
        rw [hf, Nat.add_assoc, Nat.add_comm 1 j]
    · rw [Machine.fetch, if_neg hx, read, if_neg hx]
      exact Or.inr ⟨0, x, rfl, hx, rfl, rfl⟩

/-- To change items but not their types fetches the changed item. -/
theorem fetch_map (f : AssemblyItem → AssemblyItem) (hf : ∀ x, (f x).type = x.type) (l : List AssemblyItem) (k : Nat) :
    Machine.fetch (l.map f) k = (Machine.fetch l k).map fun r => (r.1, f r.2) := by
  induction l generalizing k with
  | nil => rfl
  | cons x rest ih =>
    rw [List.map_cons, Machine.fetch, Machine.fetch, hf]
    by_cases hx : x.type = .Tag
    · rw [if_pos hx, if_pos hx, ih]
    · rw [if_neg hx, if_neg hx, Option.map_some]

/-- Whether the item pushes where it is. -/
def readsPosition (item : AssemblyItem) : Bool := item.type = .Operation ∧ item.instruction = .PC

/-- Two tags whose blocks have the same contents, which do not depend on where they are. -/
def SameBlock (items : List AssemblyItem) (t t' : U256) : Prop :=
  ∃ i j, items[i]? = some (tag t) ∧ items[j]? = some (tag t') ∧ contents items i = contents items j ∧
    ∀ x ∈ contents items i, readsPosition x = false

/-- Tags that lead to the same contents. -/
def Alike (items : List AssemblyItem) (t t' : U256) : Prop := t = t' ∨ SameBlock items t t'

/-- Each tag is defined at most once. -/
def UniqueTags (items : List AssemblyItem) : Prop :=
  ∀ (i j : Nat) (t : U256), items[i]? = some (tag t) → items[j]? = some (tag t) → i = j

/-- At a tag, the tag itself counts as a neutral one. -/
theorem contents_of_tag {items : List AssemblyItem} {i : Nat} {t : U256} (h : items[i]? = some (tag t)) :
    contents items i = read (pushTag t) (pushTag selfTag) (items.drop i) := by
  rw [contents, h]
  rfl

/-- Tags that are alike to one are alike to each other. -/
theorem Alike.trans {items : List AssemblyItem} (hu : UniqueTags items) {t t' t'' : U256} (h : Alike items t t')
    (h' : Alike items t' t'') : Alike items t t'' := by
  rcases h with rfl | ⟨i, j, hi, hj, hc, hp⟩
  · exact h'
  rcases h' with rfl | ⟨j', k, hj', hk, hc', -⟩
  · exact Or.inr ⟨i, j, hi, hj, hc, hp⟩
  · cases hu j j' t' hj hj'
    exact Or.inr ⟨i, k, hi, hk, hc.trans hc', hp⟩

/-! ## What is replaced -/

/-- The only byte of `JUMPI`. -/
theorem eq_jumpi {x : AssemblyItem} (ht : x.type = .Operation) (hi : x.instruction = .JUMPI) : x = ofInstruction .JUMPI := by
  have hbytes : ∀ n : Fin 256, Instruction.ofByte (UInt8.ofNat n) = .JUMPI → n.val = 0x57 := by decide +kernel
  have hdata := hbytes ⟨x.data.toNat, x.byte ht⟩ hi
  exact eq_of ht (BitVec.eq_of_toNat_eq hdata)

/-- The control flow ends at the items that leave. -/
theorem leaves_of_ends {x : AssemblyItem} (h : Ends x) : x.type = .Operation ∧ Machine.Leaves x.instruction := by
  obtain ⟨ha, hne⟩ := h
  unfold altersControlFlow at ha
  split at ha
  case h_1 ht hi => exact ⟨ht, Or.inl hi⟩
  case h_2 ht hi => exact absurd (eq_jumpi ht hi) hne
  case h_3 ht hi => exact ⟨ht, Or.inr (Or.inr (Or.inl hi))⟩
  case h_4 ht hi => exact ⟨ht, Or.inr (Or.inr (Or.inr hi))⟩
  case h_5 ht hi => exact ⟨ht, Or.inr (Or.inl hi)⟩
  case h_6 => cases ha

/-- Items that are read the same are the same, or push the tags of their blocks. -/
theorem deref_eq {t t' : U256} {x y : AssemblyItem} (hx : x ≠ pushTag selfTag) (hy : y ≠ pushTag selfTag)
    (h : deref (pushTag t) (pushTag selfTag) x = deref (pushTag t') (pushTag selfTag) y) :
    x = y ∨ x = pushTag t ∧ y = pushTag t' := by
  unfold deref at h
  by_cases hxt : x = pushTag t
  · rw [if_pos hxt] at h
    by_cases hyt : y = pushTag t'
    · exact Or.inr ⟨hxt, hyt⟩
    · rw [if_neg hyt] at h
      exact absurd h.symm hy
  · rw [if_neg hxt] at h
    by_cases hyt : y = pushTag t'
    · rw [if_pos hyt] at h
      exact absurd h hx
    · rw [if_neg hyt] at h
      exact Or.inl h

/-- To replace a tag leaves the type. -/
@[simp]
theorem replaceTag_type (items : List AssemblyItem) (x : AssemblyItem) : (replaceTag items x).type = x.type := by
  unfold replaceTag
  by_cases hx : x.type = .PushTag
  · rw [if_pos hx]
    cases replacement items x.data with
    | none => rfl
    | some t => exact hx.symm
  · rw [if_neg hx]

/-- Nothing but a pushed tag is replaced. -/
theorem replaceTag_of_ne {items : List AssemblyItem} {x : AssemblyItem} (h : x.type ≠ .PushTag) : replaceTag items x = x := if_neg h

/-- A pushed tag is replaced by what stands for it. -/
theorem replaceTag_pushTag (items : List AssemblyItem) (t : U256) :
    replaceTag items (pushTag t) = pushTag ((replacement items t).getD t) := by
  unfold replaceTag
  rw [if_pos (show (pushTag t).type = .PushTag from rfl), show (pushTag t).data = t from rfl]
  cases replacement items t with
  | none => rfl
  | some s => rfl

/-- The pushed tags are replaced by tags of blocks that do the same. -/
def ReplacesAlike (items : List AssemblyItem) : Prop :=
  ∀ t s, pushTag t ∈ items → replacement items t = some s → SameBlock items t s

/-- The positions are the same, or in blocks with the same tags what follows is the same. -/
def SamePlace (items : List AssemblyItem) (p p' : Nat) : Prop :=
  p = p' ∨ ∃ t t' l, Alike items t t' ∧ read (pushTag t) (pushTag selfTag) (items.drop p) = l ∧
    read (pushTag t') (pushTag selfTag) (items.drop p') = l ∧ ∀ x ∈ l, readsPosition x = false

variable {ω : Type} {M : Machine ω} {items : List AssemblyItem}

open Machine

/-- Where a value leads in the items of an iteration is where it leads in the original ones. -/
theorem target_map (v : StackValue) : M.target (items.map (replaceTag items)) v = M.target items v := by
  cases v with
  | tag t =>
    simp only [target, List.findIdx?_map]
    congr 1
    funext x
    by_cases hx : x.type = .PushTag
    · simp [hx]
    · simp [replaceTag_of_ne hx]
  | word w =>
    simp only [target, List.length_map, List.getElem?_map]
    congr 1
    funext k
    cases hk : items[k]? with
    | none => rfl
    | some x =>
      by_cases hx : x.type = .PushTag
      · have hne : x ≠ ofInstruction .JUMPDEST := fun he => by rw [he] at hx; cases hx
        have hne' : replaceTag items x ≠ ofInstruction .JUMPDEST := fun he => by
          have := replaceTag_type items x
          rw [he, hx] at this
          cases this
        simp [hx, hne, hne']
      · simp [replaceTag_of_ne hx]

/-- A tag is reached where it stands. -/
theorem target_tag (hu : UniqueTags items) {i : Nat} {t : U256} (h : items[i]? = some (tag t)) :
    M.target items (.tag t) = some i := by
  obtain ⟨hlt, hi⟩ := List.getElem?_eq_some_iff.mp h
  refine List.findIdx?_eq_some_iff_getElem.mpr ⟨hlt, ?_, ?_⟩
  · rw [hi]
    simp [tag]
  · intro j hj hjt
    have hjt' : items[j]? = some (tag t) := by
      have hjt := of_decide_eq_true hjt
      exact List.getElem?_eq_some_iff.mpr ⟨hj.trans hlt, eq_of hjt.1 hjt.2⟩
    exact absurd (hu j i t hjt' h) hj.ne

/-- Values that are the same, but for tags that are alike, lead to places that are the same. -/
theorem target_rel (hu : UniqueTags items) (v v' : StackValue) (h : StackValue.Rel (Alike items) v v') :
    TargetsRel M (SamePlace items) items (items.map (replaceTag items)) v v' := by
  unfold TargetsRel
  rw [target_map]
  have hsame : ∀ v, M.target items v = none ∧ M.target items v = none ∨
      ∃ p p', M.target items v = some p ∧ M.target items v = some p' ∧ SamePlace items p p' := by
    intro v
    cases M.target items v with
    | none => exact Or.inl ⟨rfl, rfl⟩
    | some p => exact Or.inr ⟨p, p, rfl, rfl, Or.inl rfl⟩
  cases h with
  | word w => exact hsame _
  | @tag t t' ht =>
    rcases ht with rfl | hb
    · exact hsame _
    · obtain ⟨i, j, hi, hj, hc, hp⟩ := hb
      refine Or.inr ⟨i, j, target_tag hu hi, target_tag hu hj, Or.inr ⟨t, t', _, Or.inr ⟨i, j, hi, hj, hc, hp⟩, rfl, ?_, ?_⟩⟩
      · rw [← contents_of_tag hj, ← contents_of_tag hi, hc]
      · rw [← contents_of_tag hi]
        exact hp

/-- What follows an item: a place that is the same, or the next item, unless the control flow ends. -/
def Follows (items : List AssemblyItem) (k k' : Nat) (x : AssemblyItem) (p p' : Nat) : Prop :=
  SamePlace items p p' ∨ p = k + 1 ∧ p' = k' + 1 ∧ ¬Ends x

/-- The same item does the same, and so does a pushed tag that is replaced. -/
theorem perform_rel (hu : UniqueTags items) (hreplace : ReplacesAlike items) {t t' : U256} (hold : Alike items t t') {x y : AssemblyItem}
    (hy : y ∈ items) (hxy : x = y ∨ x = pushTag t ∧ y = pushTag t') {k k' : Nat} (hpc : readsPosition x = true → k = k')
    {stack stack' : List StackValue} (h : List.Forall₂ (StackValue.Rel (Alike items)) stack stack') (world : ω) :
    Outcome.Rel (StateRel (Alike items) (Follows items k k' x)) (M.perform items k x stack world)
      (M.perform (items.map (replaceTag items)) k' (replaceTag items y) stack' world) := by
  have hnext : ∀ {l l'}, x.type ≠ .Operation → List.Forall₂ (StackValue.Rel (Alike items)) l l' →
      Outcome.Rel (StateRel (Alike items) (Follows items k k' x)) (.running ⟨k + 1, l, world⟩) (.running ⟨k' + 1, l', world⟩) :=
    fun hx hl => .running ⟨Or.inr ⟨rfl, rfl, fun he => hx (leaves_of_ends he).1⟩, hl, rfl⟩
  have hpush : ∀ s, pushTag s ∈ items → Alike items s ((replacement items s).getD s) := by
    intro s hs
    cases hr : replacement items s with
    | none => exact Or.inl rfl
    | some s' => exact Or.inr (hreplace s s' hs hr)
  by_cases hxt : x.type = .PushTag
  · obtain ⟨s, s', hxs, hys, hss⟩ : ∃ s s', x = pushTag s ∧ y = pushTag s' ∧ Alike items s s' := by
      rcases hxy with rfl | ⟨rfl, rfl⟩
      · exact ⟨x.data, x.data, eq_of hxt rfl, eq_of hxt rfl, Or.inl rfl⟩
      · exact ⟨t, t', rfl, rfl, hold⟩
    rw [hys] at hy
    rw [hys, replaceTag_pushTag, hxs]
    rw [hxs] at hnext
    exact hnext (fun he => by cases he) (.cons (.tag (hss.trans hu (hpush s' hy))) h)
  · obtain rfl : x = y := by
      rcases hxy with rfl | ⟨rfl, rfl⟩
      · rfl
      · exact absurd rfl hxt
    rw [replaceTag_of_ne hxt]
    unfold perform
    cases hx : x.type with
    | UndefinedItem => exact .failed
    | Tag => exact .failed
    | PushTag => exact absurd hx hxt
    | Push => exact hnext (by rw [hx]; decide) (.cons (.word _) h)
    | Operation =>
      have hoffset : x.instruction = .PC → M.offset k = M.offset k' := fun hi => congrArg M.offset (hpc (decide_eq_true ⟨hx, hi⟩))
      refine (operate_rel (target_rel hu) x.instruction hoffset h world).mono fun s s' hs => ⟨?_, hs.stack, hs.world⟩
      exact hs.position.imp id fun hp => ⟨hp.1, hp.2.1, fun he => hp.2.2 (leaves_of_ends he).2⟩
    | PushString => exact hnext (by rw [hx]; decide) (.cons (.word _) h)
    | PushSub => exact hnext (by rw [hx]; decide) (.cons (.word _) h)
    | PushSubSize => exact hnext (by rw [hx]; decide) (.cons (.word _) h)
    | PushProgramSize => exact hnext (by rw [hx]; decide) (.cons (.word _) h)
    | PushData => exact hnext (by rw [hx]; decide) (.cons (.word _) h)
    | PushLibraryAddress => exact hnext (by rw [hx]; decide) (.cons (.word _) h)

/-- What is read as an item that does not push where it is, is one that does not. -/
theorem readsPosition_of_deref {own self x : AssemblyItem} (hown : own.type ≠ .Operation)
    (h : readsPosition (deref own self x) = false) : readsPosition x = false := by
  unfold deref at h
  by_cases hx : x = own
  · rw [hx]
    exact decide_eq_false fun hp => hown hp.1
  · rw [if_neg hx] at h
    exact h

/-- In the replaced code, the replaced item is fetched. -/
theorem fetch_iteration (p : Nat) : fetch ((items.map (replaceTag items)).drop p) p =
    (fetch (items.drop p) p).map fun r => (r.1, replaceTag items r.2) := by
  rw [← List.map_drop]
  exact fetch_map _ (replaceTag_type items) _ _

/-- A step of the items of an iteration does what the step of the original ones does. -/
theorem step_rel (hu : UniqueTags items) (hreplace : ReplacesAlike items) (hself : pushTag selfTag ∉ items)
    {s s' : MachineState ω} (h : StateRel (Alike items) (SamePlace items) s s') :
    Outcome.Rel (StateRel (Alike items) (SamePlace items)) (M.step items s) (M.step (items.map (replaceTag items)) s') := by
  obtain ⟨p, stack, world⟩ := s
  obtain ⟨p', stack', world'⟩ := s'
  obtain ⟨hpos, hstack, rfl⟩ := h
  dsimp only at hpos hstack
  simp only [step, fetch_iteration]
  have hmem : ∀ {p j : Nat} {x : AssemblyItem}, (items.drop p)[j]? = some x → x ∈ items :=
    fun hx => List.mem_of_mem_drop (List.mem_of_getElem? hx)
  rcases hpos with rfl | ⟨t, t', l, hold, hl, hl', hpc⟩
  · rcases read_eq_fetch (pushTag selfTag) (pushTag selfTag) (items.drop p) p with ⟨hf, -⟩ | ⟨j, x, hf, -, hx, -⟩
    · rw [hf]
      exact .stopped world
    · rw [hf]
      refine (perform_rel hu hreplace (t := selfTag) (Or.inl rfl) (hmem hx) (Or.inl rfl) (fun _ => rfl) hstack world).mono ?_
      exact fun s s' hs => ⟨hs.position.elim id fun hp => Or.inl (hp.1.trans hp.2.1.symm), hs.stack, hs.world⟩
  · rcases read_eq_fetch (pushTag t) (pushTag selfTag) (items.drop p) p with ⟨hf, hr⟩ | ⟨j, x, hf, -, hx, hr⟩ <;>
      rcases read_eq_fetch (pushTag t') (pushTag selfTag) (items.drop p') p' with ⟨hf', hr'⟩ | ⟨j', y, hf', -, hy, hr'⟩ <;>
      rw [hr] at hl <;> rw [hr'] at hl'
    · rw [hf, hf']
      exact .stopped world
    · rw [← hl] at hl'
      cases hl'
    · rw [← hl'] at hl
      cases hl
    · have hhead := List.cons.inj (hl.trans hl'.symm)
      have hxy := deref_eq (fun he => hself (he ▸ hmem hx)) (fun he => hself (he ▸ hmem hy)) hhead.1
      have hxpc : readsPosition x = false :=
        readsPosition_of_deref (show (pushTag t).type ≠ .Operation from nofun) (hpc _ (hl ▸ List.mem_cons_self))
      rw [hf, hf']
      refine (perform_rel hu hreplace hold (hmem hy) hxy (fun hp => by rw [hxpc] at hp; cases hp) hstack world).mono ?_
      refine fun s s' hs => ⟨hs.position.elim id fun ⟨hq, hq', hends⟩ => ?_, hs.stack, hs.world⟩
      -- the next items are read next
      have hends' : ¬Ends y := by
        rcases hxy with rfl | ⟨-, rfl⟩
        · exact hends
        · exact fun he => nomatch (leaves_of_ends he).1
      have htail := hhead.2
      rw [if_neg hends, if_neg hends', List.drop_drop, List.drop_drop, ← Nat.add_assoc, ← Nat.add_assoc, ← hq, ← hq'] at htail
      refine Or.inr ⟨t, t', _, hold, htail, rfl, fun z hz => hpc z ?_⟩
      rw [← hl', if_neg hends', List.drop_drop, ← Nat.add_assoc, ← hq']
      exact List.mem_cons_of_mem _ hz

/-! ## The tags found -/

/-- The tag at an index, with that of an earlier block that has the same contents. -/
def Replaces (items : List AssemblyItem) (t s : U256) : Prop :=
  ∃ i j, j < i ∧ items[i]? = some (tag t) ∧ items[j]? = some (tag s) ∧ contents items i = contents items j

/-- Of the first `n` items. -/
structure Scanned (items : List AssemblyItem) (n : Nat) (s : Scan) : Prop where
  seen : ∀ j ∈ s.blocksSeen, j < n ∧ ∃ t, items[j]? = some (tag t)
  replaced : ∀ r ∈ s.tagReplacement, Replaces items r.1 r.2

theorem eq_tag {x : AssemblyItem} (h : x.type = .Tag) : x = tag x.data := eq_of h rfl

/-- One step scans one position more. -/
theorem scanOne_scanned {items : List AssemblyItem} {n : Nat} {s : Scan} (h : Scanned items n s) :
    Scanned items (n + 1) (scanOne items s n) := by
  have hlater : Scanned items (n + 1) s := ⟨fun j hj => ⟨Nat.lt_succ_of_lt (h.seen j hj).1, (h.seen j hj).2⟩, h.replaced⟩
  unfold scanOne
  cases hn : items[n]? with
  | none => exact hlater
  | some x =>
    dsimp only
    by_cases hx : x.type = .Tag
    · rw [if_neg (not_not.mpr hx)]
      rw [eq_tag hx] at hn
      cases hfind : s.blocksSeen.find? fun j => !comparator items n j && !comparator items j n with
      | none =>
        refine ⟨fun j hj => ?_, h.replaced⟩
        rcases List.mem_cons.mp hj with rfl | hj
        · exact ⟨Nat.lt_succ_self _, _, hn⟩
        · exact hlater.seen j hj
      | some j =>
        obtain ⟨hj, t, ht⟩ := h.seen j (List.mem_of_find?_eq_some hfind)
        have hsame := List.find?_some hfind
        rw [Bool.and_eq_true, Bool.not_eq_true', Bool.not_eq_true'] at hsame
        refine ⟨hlater.seen, fun r hr => ?_⟩
        rcases List.mem_cons.mp hr with rfl | hr
        · refine ⟨n, j, hj, hn, ?_, contents_eq_of_not_comparator hsame.1 hsame.2⟩
          rw [ht]
          rfl
        · exact h.replaced r hr
    · rw [if_pos hx]
      exact hlater

/-- All positions are scanned. -/
theorem scan_scanned (items : List AssemblyItem) : Scanned items items.length (scan items) := by
  have hfold : ∀ n, Scanned items n ((List.range n).foldl (scanOne items) ⟨[], []⟩) := by
    intro n
    induction n with
    | zero => exact ⟨nofun, nofun⟩
    | succ n ih =>
      rw [List.range_succ, List.foldl_append]
      exact scanOne_scanned ih
  exact hfold items.length

/-- What replaces a tag is alike to it. -/
theorem replaces_of_replacement {items : List AssemblyItem} {t s : U256} (h : replacement items t = some s) :
    Replaces items t s := by
  obtain ⟨l, l', hl, -⟩ := List.lookup_eq_some_iff.mp h
  exact (scan_scanned items).replaced (t, s) (by rw [hl]; simp)

/-! ## Iterating -/

/-- The items after an iteration. -/
def next (items : List AssemblyItem) : List AssemblyItem := (iterate items).1

theorem next_eq (items : List AssemblyItem) : next items = items.map (replaceTag items) := rfl

/-- The tags stay where they are. -/
theorem next_tag {items : List AssemblyItem} {i : Nat} {t : U256} : (next items)[i]? = some (tag t) ↔ items[i]? = some (tag t) := by
  rw [next_eq, List.getElem?_map]
  cases items[i]? with
  | none => exact Iff.rfl
  | some x =>
    rw [Option.map_some, Option.some_inj, Option.some_inj]
    by_cases hx : x.type = .PushTag
    · refine ⟨fun he => ?_, fun he => ?_⟩
      · have := replaceTag_type items x
        rw [he, hx] at this
        cases this
      · rw [he] at hx
        cases hx
    · rw [replaceTag_of_ne hx]

/-- Tags that are unique stay so. -/
theorem next_unique {items : List AssemblyItem} (h : UniqueTags items) : UniqueTags (next items) :=
  fun i j t hi hj => h i j t (next_tag.mp hi) (next_tag.mp hj)

/-- The virtual tag is neither defined nor pushed. -/
def NoSelf (items : List AssemblyItem) : Prop := tag selfTag ∉ items ∧ pushTag selfTag ∉ items

/-- No block begins to push its own tag. -/
theorem next_noSelf {items : List AssemblyItem} (h : NoSelf items) : NoSelf (next items) := by
  refine ⟨fun hm => ?_, fun hm => ?_⟩
  · obtain ⟨i, hi⟩ := List.getElem?_of_mem hm
    exact h.1 (List.mem_of_getElem? (next_tag.mp hi))
  · obtain ⟨x, hx, he⟩ := List.mem_map.mp hm
    have hxt : x.type = .PushTag := (replaceTag_type items x).symm.trans (congrArg AssemblyItem.type he)
    rw [show x = pushTag x.data from eq_of hxt rfl] at he hx
    rw [replaceTag_pushTag] at he
    have he := congrArg AssemblyItem.data he
    dsimp only [pushTag] at he
    cases hr : replacement items x.data with
    | none =>
      rw [hr, Option.getD_none] at he
      exact h.2 (he ▸ hx)
    | some s =>
      rw [hr, Option.getD_some] at he
      obtain ⟨-, j, -, -, hj, -⟩ := replaces_of_replacement hr
      exact h.1 (he ▸ List.mem_of_getElem? hj)

/-- Where a tag is. -/
def place (items : List AssemblyItem) (t : U256) : Nat := items.findIdx fun x => x = tag t

/-- The place of a tag is where it stands. -/
theorem place_eq {items : List AssemblyItem} (hu : UniqueTags items) {i : Nat} {t : U256} (h : items[i]? = some (tag t)) :
    place items t = i := by
  obtain ⟨hlt, hi⟩ := List.getElem?_eq_some_iff.mp h
  have hex : ∃ x ∈ items, decide (x = tag t) = true := ⟨tag t, hi ▸ List.getElem_mem hlt, decide_eq_true rfl⟩
  have hplace := List.findIdx_lt_length_of_exists hex
  have hfound : items[items.findIdx fun x => x = tag t] = tag t := of_decide_eq_true (List.findIdx_getElem (w := hplace))
  exact hu _ _ t (List.getElem?_eq_some_iff.mpr ⟨hplace, hfound⟩) h

/-- To replace tags moves none. -/
theorem place_next (items : List AssemblyItem) (t : U256) : place (next items) t = place items t := by
  unfold place
  rw [next_eq, List.findIdx_map]
  congr 1
  funext x
  refine decide_eq_decide.mpr ?_
  by_cases hx : x.type = .PushTag
  · refine iff_of_false (fun he => ?_) (fun he => ?_)
    · have := replaceTag_type items x
      rw [he, hx] at this
      cases this
    · rw [he] at hx
      cases hx
  · rw [replaceTag_of_ne hx]

/-- The place of the tag that an item pushes. -/
def pushedPlace (items : List AssemblyItem) (x : AssemblyItem) : Nat := if x.type = .PushTag then place items x.data else 0

theorem pushedPlace_pushTag (items : List AssemblyItem) (t : U256) : pushedPlace items (pushTag t) = place items t := if_pos rfl

/-- A tag that is replaced is replaced by one before it. -/
theorem pushedPlace_replaceTag {items : List AssemblyItem} (hu : UniqueTags items) {t s : U256}
    (h : replacement items t = some s) : pushedPlace items (replaceTag items (pushTag t)) < pushedPlace items (pushTag t) := by
  obtain ⟨i, j, hji, hi, hj, -⟩ := replaces_of_replacement h
  rw [replaceTag_pushTag, h, pushedPlace_pushTag, pushedPlace_pushTag]
  exact (place_eq hu hj).trans_lt (hji.trans_eq (place_eq hu hi).symm)

/-- What has no replacement is not replaced. -/
theorem replaceTag_of_none {items : List AssemblyItem} {x : AssemblyItem} (h : replacement items x.data = none) :
    replaceTag items x = x := by
  unfold replaceTag
  rw [h]
  exact ite_self _

/-- A pushed tag never moves back. -/
theorem pushedPlace_le {items : List AssemblyItem} (hu : UniqueTags items) (x : AssemblyItem) :
    pushedPlace items (replaceTag items x) ≤ pushedPlace items x := by
  by_cases hx : x.type = .PushTag
  · rw [show x = pushTag x.data from eq_of hx rfl]
    cases hr : replacement items x.data with
    | none => exact le_of_eq (congrArg _ (replaceTag_of_none (x := pushTag x.data) hr))
    | some s => exact (pushedPlace_replaceTag hu hr).le
  · rw [replaceTag_of_ne hx]

/-- The places of all the tags that are pushed. -/
def weight (items : List AssemblyItem) : Nat := (items.map (pushedPlace items)).sum

/-- An iteration that changes an item pushes tags further in front. -/
theorem weight_next {items : List AssemblyItem} (hu : UniqueTags items) (h : (iterate items).2 = true) :
    weight (next items) < weight items := by
  have hplaces : pushedPlace (next items) = pushedPlace items := by
    funext x
    unfold pushedPlace
    rw [place_next]
  unfold weight
  rw [hplaces, next_eq, List.map_map]
  refine List.sum_lt_sum (f := pushedPlace items ∘ replaceTag items) _ (fun x _ => pushedPlace_le hu x) ?_
  obtain ⟨x, hx, hchanged⟩ := List.any_eq_true.mp h
  rw [Bool.and_eq_true, decide_eq_true_eq] at hchanged
  obtain ⟨s, hs⟩ := Option.isSome_iff_exists.mp hchanged.2
  refine ⟨x, hx, ?_⟩
  have hpush : x = pushTag x.data := eq_of hchanged.1 rfl
  rw [Function.comp_apply, hpush]
  exact pushedPlace_replaceTag hu hs

/-- When nothing is replaced, the iterations end. -/
theorem iterations_of_settled {items : List AssemblyItem} (h : (iterate items).2 = false) (n : Nat) :
    iterations (n + 1) items = some (next items, 0) := by
  rw [iterations, show iterate items = (next items, false) from Prod.ext rfl h]

/-- When something is replaced, there is another iteration. -/
theorem iterations_of_replaced {items : List AssemblyItem} (h : (iterate items).2 = true) (n : Nat) :
    iterations (n + 1) items = (iterations n (next items)).map fun r => (r.1, r.2 + 1) := by
  rw [iterations, show iterate items = (next items, true) from Prod.ext rfl h]

/-- With enough iterations, the loop ends. -/
theorem iterations_end {items : List AssemblyItem} (hu : UniqueTags items) {m : Nat} (h : weight items < m) :
    ∃ r, iterations m items = some r ∧ ∀ n, m ≤ n → iterations n items = some r := by
  induction m generalizing items with
  | zero => exact absurd h (Nat.not_lt_zero _)
  | succ m ih =>
    cases hc : (iterate items).2 with
    | false =>
      refine ⟨_, iterations_of_settled hc m, fun n hn => ?_⟩
      obtain ⟨n, rfl⟩ := Nat.exists_eq_add_of_lt hn
      exact iterations_of_settled hc _
    | true =>
      obtain ⟨r, hr, hlater⟩ := ih (next_unique hu) ((weight_next hu hc).trans_le (Nat.lt_succ_iff.mp h))
      refine ⟨_, (iterations_of_replaced hc m).trans (by rw [hr]; rfl), fun n hn => ?_⟩
      obtain ⟨n, rfl⟩ := Nat.exists_eq_add_of_lt hn
      rw [iterations_of_replaced hc, hlater _ (by omega)]
      rfl

/-- The items that the loop ends with are those of some iteration. -/
theorem iterations_eq {n : Nat} {items : List AssemblyItem} {r : List AssemblyItem × Nat} (h : iterations n items = some r) :
    r.1 = next^[r.2 + 1] items := by
  induction n generalizing items r with
  | zero => cases h
  | succ n ih =>
    cases hc : (iterate items).2 with
    | false =>
      rw [iterations_of_settled hc] at h
      cases h
      rfl
    | true =>
      rw [iterations_of_replaced hc] at h
      obtain ⟨r', hr', he⟩ := Option.map_eq_some_iff.mp h
      have hrest := ih hr'
      rw [← he, Function.iterate_succ_apply, hrest]

/-- An iteration that finds nothing to replace changes nothing. -/
theorem next_of_settled {items : List AssemblyItem} (h : (iterate items).2 = false) : next items = items := by
  rw [next_eq]
  refine (List.map_congr_left (g := id) fun x hx => ?_).trans (List.map_id items)
  have hx := List.any_eq_false.mp h x hx
  by_cases hpush : x.type = .PushTag
  · have hnone : replacement items x.data = none := by simpa [hpush] using hx
    exact replaceTag_of_none hnone
  · exact replaceTag_of_ne hpush

/-- The loop ends with items in which there is nothing to replace. -/
theorem iterations_settled {n : Nat} {items : List AssemblyItem} {r : List AssemblyItem × Nat} (h : iterations n items = some r) :
    (iterate r.1).2 = false := by
  induction n generalizing items r with
  | zero => cases h
  | succ n ih =>
    cases hc : (iterate items).2 with
    | false =>
      rw [iterations_of_settled hc] at h
      cases h
      dsimp only
      rw [next_of_settled hc]
      exact hc
    | true =>
      rw [iterations_of_replaced hc] at h
      obtain ⟨r', hr', he⟩ := Option.map_eq_some_iff.mp h
      have hsettled := ih hr'
      rw [← he]
      exact hsettled

/-- Whether there are iterations is told by the first. -/
theorem iterations_pos {n : Nat} {items : List AssemblyItem} {r : List AssemblyItem × Nat} (h : iterations n items = some r) :
    decide (0 < r.2) = (iterate items).2 := by
  cases n with
  | zero => cases h
  | succ n =>
    cases hc : (iterate items).2 with
    | false =>
      rw [iterations_of_settled hc] at h
      cases h
      rfl
    | true =>
      rw [iterations_of_replaced hc] at h
      obtain ⟨r', -, he⟩ := Option.map_eq_some_iff.mp h
      rw [← he]
      exact decide_eq_true (Nat.succ_pos _)

/-- To replace tags adds no items. -/
theorem iterate_length (k : Nat) (items : List AssemblyItem) : (next^[k] items).length = items.length := by
  induction k generalizing items with
  | zero => rfl
  | succ k ih => rw [Function.iterate_succ_apply, ih, next_eq, List.length_map]

/-- Whether there is something to replace. -/
def replacesAny (items : List AssemblyItem) : Bool := !decide (tag selfTag ∈ items ∨ pushTag selfTag ∈ items) && (iterate items).2

/-- The deduplicator replaces what there is to replace, keeps the number of items, and leaves nothing to replace. -/
theorem deduplicate_settles {n : Nat} {items items' : List AssemblyItem} {deduplicated : Bool}
    (h : deduplicate n items = some (items', deduplicated)) :
    deduplicated = replacesAny items ∧ items'.length = items.length ∧ replacesAny items' = false := by
  unfold deduplicate at h
  by_cases hself : tag selfTag ∈ items ∨ pushTag selfTag ∈ items
  · rw [if_pos hself] at h
    cases h
    have hnone : replacesAny items = false := by rw [replacesAny, decide_eq_true hself, Bool.not_true, Bool.false_and]
    exact ⟨hnone.symm, rfl, hnone⟩
  · rw [if_neg hself] at h
    obtain ⟨r, hr, he⟩ := Option.map_eq_some_iff.mp h
    cases he
    refine ⟨?_, ?_, ?_⟩
    · rw [replacesAny, decide_eq_false hself, Bool.not_false, Bool.true_and]
      exact iterations_pos hr
    · rw [iterations_eq hr]
      exact iterate_length _ items
    · rw [replacesAny, iterations_settled hr, Bool.and_false]

/-! ## Behaviour -/

/-- The items of an iteration behave like the original ones. -/
theorem next_behaviour (hu : UniqueTags items) (hreplace : ReplacesAlike items) (hself : NoSelf items) :
    SameBehaviour M items (next items) (Alike items) := by
  have hrun : ∀ n s s', StateRel (Alike items) (SamePlace items) s s' →
      Outcome.Rel (StateRel (Alike items) fun _ _ => True) (M.run items n s) (M.run (next items) n s') := by
    intro n s s' h
    refine (run_rel (fun s s' => step_rel hu hreplace hself.2) n h).mono ?_
    exact fun s s' hs => ⟨trivial, hs.stack, hs.world⟩
  refine ⟨fun t => Or.inl rfl, ?_, fun n stack stack' world h => hrun n _ _ ⟨Or.inl rfl, h, rfl⟩, ?_⟩
  · rw [next_eq]
    refine List.forall₂_map_right_iff.mpr (List.forall₂_same.mpr fun x hx => ?_)
    by_cases hxt : x.type = .PushTag
    · rw [show x = pushTag x.data from eq_of hxt rfl] at hx ⊢
      rw [replaceTag_pushTag]
      cases hr : replacement items x.data with
      | none => exact Or.inl rfl
      | some s => exact Or.inr ⟨x.data, s, rfl, rfl, Or.inr (hreplace _ s hx hr)⟩
    · exact Or.inl (replaceTag_of_ne hxt).symm
  · intro t t' ht n stack stack' world h
    unfold enter
    rcases target_rel (M := M) hu _ _ (.tag ht) with ⟨hn, hn'⟩ | ⟨p, p', hp, hp', hsame⟩
    · rw [hn, next_eq, hn']
      exact .failed
    · rw [hp, next_eq, hp']
      exact hrun n _ _ ⟨hsame, h, rfl⟩

/-- No pushed tag whose block pushes where it is compares equal to one of an earlier block. -/
def Movable (items : List AssemblyItem) : Prop :=
  ∀ (i j : Nat) (t s : U256), items[i]? = some (tag t) → items[j]? = some (tag s) → j < i → pushTag t ∈ items →
    (∃ x ∈ contents items i, readsPosition x = true) → comparator items i j = true ∨ comparator items j i = true

/-- What can be moved replaces alike. -/
theorem Movable.replacesAlike {items : List AssemblyItem} (h : Movable items) : ReplacesAlike items := by
  intro t s ht hs
  obtain ⟨i, j, hji, hi, hj, hc⟩ := replaces_of_replacement hs
  refine ⟨i, j, hi, hj, hc, fun x hx => ?_⟩
  by_contra hpc
  have hdistinct := h i j t s hi hj hji ht ⟨x, hx, eq_true_of_ne_false hpc⟩
  rw [comparator_iff, comparator_iff, hc] at hdistinct
  exact hdistinct.elim (lt_irrefl _) (lt_irrefl _)

/-- After so many iterations, the items behave like the original ones. -/
theorem iterate_behaviour (n : Nat) {items : List AssemblyItem} (hu : UniqueTags items) (hself : NoSelf items)
    (hmovable : ∀ k < n, Movable (next^[k] items)) :
    ∃ T, ∀ {ω : Type} (M : Machine ω), SameBehaviour M items (next^[n] items) T := by
  induction n generalizing items with
  | zero => exact ⟨Eq, fun _ => sameBehaviour_self⟩
  | succ n ih =>
    obtain ⟨T, hT⟩ := ih (next_unique hu) (next_noSelf hself) fun k hk => hmovable (k + 1) (Nat.succ_lt_succ hk)
    have hfirst := (hmovable 0 (Nat.succ_pos n)).replacesAlike
    exact ⟨_, fun M => (next_behaviour hu hfirst hself).comp (hT M)⟩

end BlockDeduplicator

end Webthree
