import Mathlib.Algebra.BigOperators.Group.List.Basic
import Mathlib.Data.List.Nodup
import Mathlib.Logic.Function.Iterate
import Mathlib.Tactic.Common

/-!
# Ancestors in a tree

A tree is known by the parent of each element, its height and its root; only some elements belong to it. The lineage of an element
is the list of its ancestors, from itself down to the root. Two branches meet in a common ancestor: they are one list from there
down, and have nothing in common above.
-/

namespace Webthree

variable {α : Type}

/-- The elements in `mem` form a tree. -/
structure IsTree (parent : α → α) (height : α → Nat) (root : α) (mem : α → Prop) : Prop where
  root_mem : mem root
  height_root : height root = 0
  parent_mem : ∀ x, mem x → x ≠ root → mem (parent x)
  height_parent : ∀ x, mem x → x ≠ root → height x = height (parent x) + 1

/-- The ancestors of an element, itself first and the root last. -/
def lineage (parent : α → α) (height : α → Nat) (x : α) : List α := (List.range (height x + 1)).map fun i => parent^[i] x

/-- The ancestor at a height. -/
def ancestorAt (parent : α → α) (height : α → Nat) (x : α) (n : Nat) : α := parent^[height x - n] x

namespace IsTree

variable {parent : α → α} {height : α → Nat} {root : α} {mem : α → Prop}

/-- An element that gets its parent from the tree joins it. -/
theorem insert (h : IsTree parent height root mem) {x : α} (hp : mem (parent x)) (hh : height x = height (parent x) + 1) :
    IsTree parent height root fun y => y = x ∨ mem y := by
  refine ⟨Or.inr h.root_mem, h.height_root, ?_, ?_⟩
  · intro y hy hne
    rcases hy with rfl | hy
    · exact Or.inr hp
    · exact Or.inr (h.parent_mem y hy hne)
  · intro y hy hne
    rcases hy with rfl | hy
    · exact hh
    · exact h.height_parent y hy hne

/-- All but the root are above the ground. -/
theorem height_pos (h : IsTree parent height root mem) {x : α} (hx : mem x) (hne : x ≠ root) : 0 < height x := by
  rw [h.height_parent x hx hne]
  exact Nat.succ_pos _

/-- Only the root is on the ground. -/
theorem eq_root (h : IsTree parent height root mem) {x : α} (hx : mem x) (h0 : height x = 0) : x = root := by
  by_contra hne
  have := h.height_pos hx hne
  omega

/-- So many steps up, one is so much lower. -/
theorem iterate (h : IsTree parent height root mem) {x : α} (hx : mem x) {i : Nat} (hi : i ≤ height x) :
    mem (parent^[i] x) ∧ height (parent^[i] x) = height x - i := by
  induction i with
  | zero => exact ⟨hx, rfl⟩
  | succ i ih =>
    obtain ⟨hmem, hheight⟩ := ih (Nat.le_of_succ_le hi)
    have hne : parent^[i] x ≠ root := by
      intro heq
      rw [heq, h.height_root] at hheight
      omega
    rw [Function.iterate_succ_apply']
    refine ⟨h.parent_mem _ hmem hne, ?_⟩
    have := h.height_parent _ hmem hne
    omega

/-- The root descends from nothing else. -/
theorem lineage_root (h : IsTree parent height root mem) : lineage parent height root = [root] := by
  rw [lineage, h.height_root]
  rfl

/-- A line begins with its first element, and goes on as that of its parent. -/
theorem lineage_cons (h : IsTree parent height root mem) {x : α} (hx : mem x) (hne : x ≠ root) :
    lineage parent height x = x :: lineage parent height (parent x) := by
  rw [lineage, h.height_parent x hx hne, List.range_succ_eq_map, List.map_cons, List.map_map]
  rfl

/-- Every line begins with the element it is of. -/
theorem exists_lineage_eq (x : α) : ∃ t, lineage parent height x = x :: t := by
  rw [lineage, List.range_succ_eq_map, List.map_cons]
  exact ⟨_, rfl⟩

/-- The elements of a line are those some steps up. -/
theorem mem_lineage_iff {x y : α} : y ∈ lineage parent height x ↔ ∃ i ≤ height x, parent^[i] x = y := by
  simp only [lineage, List.mem_map, List.mem_range, Nat.lt_succ_iff]

/-- Everything is in its own line. -/
theorem self_mem_lineage (x : α) : x ∈ lineage parent height x := mem_lineage_iff.mpr ⟨0, Nat.zero_le _, rfl⟩

/-- What is in a line is in the tree, and is the ancestor at its own height. -/
theorem mem_of_mem_lineage (h : IsTree parent height root mem) {x y : α} (hx : mem x) (hy : y ∈ lineage parent height x) :
    mem y ∧ height y ≤ height x ∧ ancestorAt parent height x (height y) = y := by
  obtain ⟨i, hi, rfl⟩ := mem_lineage_iff.mp hy
  obtain ⟨hmem, hheight⟩ := h.iterate hx hi
  refine ⟨hmem, by omega, ?_⟩
  rw [ancestorAt, hheight]
  congr 1
  omega

/-- An ancestor is in the line. -/
theorem ancestorAt_mem_lineage {x : α} (n : Nat) : ancestorAt parent height x n ∈ lineage parent height x :=
  mem_lineage_iff.mpr ⟨_, Nat.sub_le _ _, rfl⟩

/-- An ancestor at a height is at that height. -/
theorem height_ancestorAt (h : IsTree parent height root mem) {x : α} (hx : mem x) {n : Nat} (hn : n ≤ height x) :
    height (ancestorAt parent height x n) = n := by
  rw [ancestorAt, (h.iterate hx (Nat.sub_le _ _)).2]
  omega

/-- As many steps up as the element is high lead to the root. -/
theorem ancestorAt_zero (h : IsTree parent height root mem) {x : α} (hx : mem x) : ancestorAt parent height x 0 = root :=
  h.eq_root (h.mem_of_mem_lineage hx (ancestorAt_mem_lineage 0)).1 (h.height_ancestorAt hx (Nat.zero_le _))

/-- An element with an ancestor of the same height is this ancestor. -/
theorem eq_of_height_eq (h : IsTree parent height root mem) {x y : α} (hx : mem x) (hy : y ∈ lineage parent height x)
    (hh : height y = height x) : y = x := by
  have := (h.mem_of_mem_lineage hx hy).2.2
  rw [hh, ancestorAt, Nat.sub_self] at this
  exact this.symm

/-- The ancestors of an ancestor are ancestors. -/
theorem lineage_trans (h : IsTree parent height root mem) {x y z : α} (hx : mem x) (hy : y ∈ lineage parent height x)
    (hz : z ∈ lineage parent height y) : z ∈ lineage parent height x := by
  obtain ⟨i, hi, rfl⟩ := mem_lineage_iff.mp hy
  obtain ⟨j, hj, rfl⟩ := mem_lineage_iff.mp hz
  have hij := (h.iterate hx hi).2
  refine mem_lineage_iff.mpr ⟨j + i, by omega, ?_⟩
  rw [Function.iterate_add_apply]

/-- Of two ancestors the one that is not higher is an ancestor of the other. -/
theorem mem_lineage_of_height_le (h : IsTree parent height root mem) {x y z : α} (hx : mem x) (hy : y ∈ lineage parent height x)
    (hz : z ∈ lineage parent height x) (hh : height z ≤ height y) : z ∈ lineage parent height y := by
  obtain ⟨-, hyx, hy'⟩ := h.mem_of_mem_lineage hx hy
  obtain ⟨-, -, hz'⟩ := h.mem_of_mem_lineage hx hz
  refine mem_lineage_iff.mpr ⟨height y - height z, Nat.sub_le _ _, ?_⟩
  have hsum : height y - height z + (height x - height y) = height x - height z := by omega
  rw [ancestorAt] at hy' hz'
  rw [← hsum, Function.iterate_add_apply, hy'] at hz'
  exact hz'

/-- The ancestors of an ancestor are ancestors. -/
theorem ancestorAt_of_mem (h : IsTree parent height root mem) {x y : α} {n : Nat} (hx : mem x) (hy : y ∈ lineage parent height x)
    (hn : n ≤ height y) : ancestorAt parent height y n = ancestorAt parent height x n := by
  have hmy := (h.mem_of_mem_lineage hx hy).1
  have hz := h.lineage_trans hx hy (ancestorAt_mem_lineage n)
  have heq := (h.mem_of_mem_lineage hx hz).2.2
  rw [h.height_ancestorAt hmy hn] at heq
  exact heq.symm

/-- The lineage of an ancestor is the end of the lineage. -/
theorem exists_append (h : IsTree parent height root mem) {x y : α} (hx : mem x) (hy : y ∈ lineage parent height x) :
    ∃ a, lineage parent height x = a ++ lineage parent height y := by
  obtain ⟨i, hi, rfl⟩ := mem_lineage_iff.mp hy
  have hheight := (h.iterate hx hi).2
  refine ⟨(List.range i).map fun j => parent^[j] x, ?_⟩
  have hsum : height x + 1 = i + (height (parent^[i] x) + 1) := by omega
  rw [lineage, hsum, List.range_add, List.map_append, List.map_map, lineage]
  congr 1
  refine List.map_congr_left fun j _ => ?_
  rw [Function.comp_apply, Nat.add_comm, Function.iterate_add_apply]

/-- No two elements of a lineage have one height. -/
theorem heights_nodup (h : IsTree parent height root mem) {x : α} (hx : mem x) : ((lineage parent height x).map height).Nodup := by
  rw [lineage, List.map_map]
  refine List.Nodup.map_on ?_ List.nodup_range
  intro i hi j hj hij
  rw [List.mem_range] at hi hj
  rw [Function.comp_apply, Function.comp_apply, (h.iterate hx (Nat.lt_succ_iff.mp hi)).2,
    (h.iterate hx (Nat.lt_succ_iff.mp hj)).2] at hij
  omega

end IsTree

/-! ## Depth -/

section Depth

variable [DecidableEq α]

/-- The number of steps from an element up to the root, so far as there are turns. -/
def depth (parent : α → α) (root : α) : (turns : Nat) → (x : α) → Nat
  | 0, _ => 0
  | turns + 1, x => if x = root then 0 else depth parent root turns (parent x) + 1

variable {parent : α → α} {root : α}

/-- The root has depth zero, however many turns there are. -/
@[simp] theorem depth_root (turns : Nat) : depth parent root turns root = 0 := by
  cases turns with
  | zero => rfl
  | succ turns => exact if_pos rfl

/-- Anything else is one deeper than its parent, with a turn less. -/
theorem depth_succ {turns : Nat} {x : α} (h : x ≠ root) :
    depth parent root (turns + 1) x = depth parent root turns (parent x) + 1 := if_neg h

/-- If not all turns are needed, one less gives the same. -/
theorem depth_of_le {turns : Nat} {x : α} (h : depth parent root (turns + 1) x ≤ turns) :
    depth parent root turns x = depth parent root (turns + 1) x := by
  induction turns generalizing x with
  | zero => exact (Nat.le_zero.mp h).symm
  | succ turns ih =>
    by_cases hx : x = root
    · rw [hx, depth_root, depth_root]
    · rw [depth_succ hx] at h
      rw [depth_succ hx, depth_succ hx, ih (Nat.le_of_succ_le_succ h)]

/-- An element is one deeper than its parent, if the turns do not run out there. -/
theorem depth_of_parent {turns : Nat} {x : α} (hx : x ≠ root) (h : depth parent root (turns + 1) (parent x) ≤ turns) :
    depth parent root (turns + 1) x = depth parent root (turns + 1) (parent x) + 1 := by
  rw [depth_succ hx, depth_of_le h]

end Depth

/-! ## Where two branches meet -/

/-- The branches of `x` and `y` are one from `c` down; above, they are `a` and `b`. -/
structure Forks (parent : α → α) (height : α → Nat) (x y c : α) (a b : List α) : Prop where
  left : lineage parent height x = a ++ lineage parent height c
  right : lineage parent height y = b ++ lineage parent height c

namespace Forks

variable {parent : α → α} {height : α → Nat} {root : α} {mem : α → Prop} {x y c : α} {a b : List α}

/-- A fork is one from both sides. -/
theorem symm (h : Forks parent height x y c a b) : Forks parent height y x c b a := ⟨h.right, h.left⟩

/-- The right branch is one longer. -/
theorem cons_right (h : Forks parent height x (parent y) c a b) (hrooted : IsTree parent height root mem) (hy : mem y) (hne : y ≠ root) :
    Forks parent height x y c a (y :: b) := by
  refine ⟨h.left, ?_⟩
  rw [hrooted.lineage_cons hy hne, h.right, List.cons_append]

/-- The fork is in the line of the first one. -/
theorem mem_left (h : Forks parent height x y c a b) : c ∈ lineage parent height x :=
  h.left ▸ List.mem_append_right _ (IsTree.self_mem_lineage c)

/-- The fork is in the line of the second one. -/
theorem mem_right (h : Forks parent height x y c a b) : c ∈ lineage parent height y := h.symm.mem_left

/-- What is above the common ancestor is higher. -/
theorem height_lt (h : Forks parent height x y c a b) (hrooted : IsTree parent height root mem) (hx : mem x) {z : α} (hz : z ∈ a) :
    height c < height z := by
  by_contra hle
  have hzx : z ∈ lineage parent height x := h.left ▸ List.mem_append_left _ hz
  have hzc := hrooted.mem_lineage_of_height_le hx h.mem_left hzx (Nat.le_of_not_lt hle)
  -- then its height would be in the lineage twice
  have hnodup := hrooted.heights_nodup hx
  rw [h.left, List.map_append] at hnodup
  exact (List.nodup_append.mp hnodup).2.2 _ (List.mem_map_of_mem hz) _ (List.mem_map_of_mem hzc) rfl

/-- The left branch is longer than that of the common ancestor, unless they are one. -/
theorem exists_left_eq (h : Forks parent height x y c a b) (hne : c ≠ x) : ∃ a', a = x :: a' := by
  obtain ⟨t, ht⟩ := @IsTree.exists_lineage_eq α parent height x
  obtain ⟨t', ht'⟩ := @IsTree.exists_lineage_eq α parent height c
  have hleft := h.left
  rw [ht, ht'] at hleft
  cases a with
  | nil => exact absurd (List.cons.inj hleft).1.symm hne
  | cons z a' => exact ⟨a', by rw [(List.cons.inj hleft).1]⟩

/-- If one of the two is the fork, nothing lies before it. -/
theorem left_eq_nil (h : Forks parent height x y x a b) : a = [] := by
  have hlen := congrArg List.length h.left
  rw [List.length_append] at hlen
  exact List.eq_nil_of_length_eq_zero (by omega)

end Forks

/-- The branches fork, and have nothing in common above. -/
structure Meets (parent : α → α) (height : α → Nat) (x y c : α) (a b : List α) : Prop extends Forks parent height x y c a b where
  left_notMem : ∀ z ∈ a, z ∉ lineage parent height y
  right_notMem : ∀ z ∈ b, z ∉ lineage parent height x

namespace Meets

variable {parent : α → α} {height : α → Nat} {root : α} {mem : α → Prop} {x y c : α} {a b : List α}

/-- Everything meets itself in itself. -/
theorem refl (x : α) : Meets parent height x x x [] [] :=
  ⟨⟨rfl, rfl⟩, fun _ hz => absurd hz List.not_mem_nil, fun _ hz => absurd hz List.not_mem_nil⟩

/-- Lines that meet do so from both sides. -/
theorem symm (h : Meets parent height x y c a b) : Meets parent height y x c b a :=
  ⟨⟨h.right, h.left⟩, h.right_notMem, h.left_notMem⟩

/-- The right branch is one longer, and its first element is not in the left one. -/
theorem cons_right (h : Meets parent height x (parent y) c a b) (hrooted : IsTree parent height root mem) (hy : mem y) (hne : y ≠ root)
    (hyx : y ∉ lineage parent height x) : Meets parent height x y c a (y :: b) := by
  have hcons := hrooted.lineage_cons hy hne
  refine ⟨h.toForks.cons_right hrooted hy hne, ?_, ?_⟩
  · intro z hz hzy
    rw [hcons] at hzy
    rcases List.mem_cons.mp hzy with rfl | hzy
    · exact hyx (h.left ▸ List.mem_append_left _ hz)
    · exact h.left_notMem z hz hzy
  · intro z hz
    rcases List.mem_cons.mp hz with rfl | hz
    · exact hyx
    · exact h.right_notMem z hz

/-- Before one that is not in the other line there is one more to go. -/
theorem cons_left (h : Meets parent height (parent x) y c a b) (hrooted : IsTree parent height root mem) (hx : mem x) (hne : x ≠ root)
    (hxy : x ∉ lineage parent height y) : Meets parent height x y c (x :: a) b :=
  (h.symm.cons_right hrooted hx hne hxy).symm

/-- Every common ancestor is an ancestor of the one where the branches meet. -/
theorem height_le (h : Meets parent height x y c a b) (hrooted : IsTree parent height root mem) (hx : mem x) {z : α}
    (hzx : z ∈ lineage parent height x) (hzy : z ∈ lineage parent height y) : height z ≤ height c := by
  have hc := (hrooted.mem_of_mem_lineage hx h.mem_left).1
  rw [h.left] at hzx
  rcases List.mem_append.mp hzx with hz | hz
  · exact absurd hzy (h.left_notMem z hz)
  · exact (hrooted.mem_of_mem_lineage hc hz).2.1

/-- There is nothing above on the right exactly if the right end is an ancestor of the left one. -/
theorem right_eq_nil_iff (h : Meets parent height x y c a b) : b = [] ↔ y ∈ lineage parent height x := by
  obtain ⟨l, hl⟩ := @IsTree.exists_lineage_eq α parent height y
  have hright := h.right
  rw [hl] at hright
  cases b with
  | nil =>
    obtain ⟨l', hl'⟩ := @IsTree.exists_lineage_eq α parent height c
    rw [List.nil_append, hl'] at hright
    rw [(List.cons.inj hright).1]
    simpa using h.mem_left
  | cons z b =>
    rw [List.cons_append] at hright
    rw [(List.cons.inj hright).1]
    simpa using h.right_notMem z List.mem_cons_self

variable [DecidableEq α]

/-- What is above the common ancestor is what the other branch does not have. -/
theorem left_eq_filter (h : Meets parent height x y c a b) :
    a = (lineage parent height x).filter fun z => z ∉ lineage parent height y := by
  have ha : (a.filter fun z => z ∉ lineage parent height y) = a :=
    List.filter_eq_self.mpr fun z hz => decide_eq_true (h.left_notMem z hz)
  have hc : ((lineage parent height c).filter fun z => z ∉ lineage parent height y) = [] :=
    List.filter_eq_nil_iff.mpr fun z hz hn => of_decide_eq_true hn (h.right ▸ List.mem_append_right _ hz)
  rw [h.left, List.filter_append, ha, hc, List.append_nil]

/-- What lies before the meeting point in the second line is what is not in the first one. -/
theorem right_eq_filter (h : Meets parent height x y c a b) :
    b = (lineage parent height y).filter fun z => z ∉ lineage parent height x := h.symm.left_eq_filter

/-- What lies before the meeting point is what comes first in the line. -/
theorem left_eq_takeWhile (h : Meets parent height x y c a b) : (lineage parent height x).takeWhile (· ≠ c) = a := by
  obtain ⟨l, hl⟩ := @IsTree.exists_lineage_eq α parent height c
  have ha : ∀ z ∈ a, decide (z ≠ c) = true := fun z hz => decide_eq_true fun heq => h.left_notMem z hz (heq ▸ h.mem_right)
  rw [h.left, List.takeWhile_append_of_pos ha, hl, List.takeWhile_cons_of_neg (by simp), List.append_nil]

end Meets

end Webthree
