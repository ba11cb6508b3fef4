import Mathlib.Data.Set.Finite.Basic
import Mathlib.Order.Interval.Finset.Nat
import Webthree.Lemmas.ChunkMap

/-!
# The downloaded headers and bodies represent a finite partial function

`mergeInto` and `removeAllStartingWith` do to the function what they say. `removeItem` takes away the rest of the chunk with the item.
-/

namespace Webthree

open Chunks ChunkMap

/-- A change of a chunk map. -/
inductive ChunkOp (T : Type) where
  | mergeInto (number : UInt32) (data : T)
  | removeItem (number : UInt32)
  | removeAllStartingWith (number : UInt32)

namespace ChunkOp

variable {T : Type}

/-- The change as the code makes it. -/
def run : ChunkOp T → ChunkMap T → Option (ChunkMap T)
  | .mergeInto n x, m => m.mergeInto n x
  | .removeItem n, m => some (m.removeItem n)
  | .removeAllStartingWith n, m => some (m.removeAllStartingWith n)

/-- All changes, in order; `mergeInto` only at absent numbers. -/
def runAll : List (ChunkOp T) → ChunkMap T → Option (ChunkMap T)
  | [], m => some m
  | op :: ops, m => (op.run m).bind (runAll ops)

/-- The change of the function that is meant. -/
def meaning : ChunkOp T → (Nat → Option T) → Nat → Option T
  | .mergeInto n x, f => Function.update f n.toNat (some x)
  | .removeItem n, f => Function.update f n.toNat none
  | .removeAllStartingWith n, f => fun j => if n.toNat ≤ j then none else f j

/-- The item that is removed is not followed by another one. -/
def LastOfChunk : ChunkOp T → (Nat → Option T) → Prop
  | .removeItem n, f => f n.toNat = none ∨ f (n.toNat + 1) = none
  | _, _ => True

/-- Each change removes only last items. -/
def AllLast : List (ChunkOp T) → (Nat → Option T) → Prop
  | [], _ => True
  | op :: ops, f => op.LastOfChunk f ∧ AllLast ops (op.meaning f)

/-- What is true of a map: it is in chunks that are apart, and no number is beyond the range of its type. -/
structure Proper (m : ChunkMap T) : Prop where
  apart : Apart m
  bounded : ∀ j, 2 ^ 32 ≤ j → m.item j = none

/-- `removeItem` removes exactly the item if and only if no item follows it. -/
theorem removeItem_exact {m : ChunkMap T} (h : Apart m) (n : UInt32) :
    (m.removeItem n).item = Function.update m.item n.toNat none ↔ m.item n.toNat = none ∨ m.item (n.toNat + 1) = none := by
  obtain ⟨-, e, hitem, hsome, hle, hend⟩ := removeItem_spec h n
  constructor
  · intro heq
    by_contra hne
    obtain ⟨hn, hnext⟩ := not_or.mp hne
    have hn' : n.toNat ≠ e := fun he => hn (he ▸ hend)
    have hnext' : n.toNat + 1 ≠ e := fun he => hnext (he ▸ hend)
    have hgone := hitem (n.toNat + 1)
    rw [heq, if_pos ⟨Nat.le_succ _, by omega⟩, Function.update_of_ne (Nat.succ_ne_self _)] at hgone
    exact hnext hgone
  · intro hlast
    have he : e ≤ n.toNat + 1 := by
      by_contra hlt
      rcases hlast with hn | hn
      · exact hsome n.toNat (le_refl _) (by omega) hn
      · exact hsome (n.toNat + 1) (Nat.le_succ _) (by omega) hn
    funext j
    rw [hitem, Function.update_apply]
    by_cases hj : j = n.toNat
    · rw [if_pos hj]
      by_cases hje : j < e
      · rw [if_pos ⟨Nat.le_of_eq hj.symm, hje⟩]
      · rw [if_neg fun h => hje h.2]
        have hej : j = e := by omega
        rw [hej]
        exact hend
    · rw [if_neg hj, if_neg (by omega)]

/-- One change: the map stays proper, and if it removes only a last item it does to the function what is meant. -/
theorem run_spec {op : ChunkOp T} {m m' : ChunkMap T} (h : Proper m) (hrun : op.run m = some m') :
    Proper m' ∧ (op.LastOfChunk m.item → m'.item = op.meaning m.item) := by
  cases op with
  | mergeInto n x =>
    have hnone : m.item n.toNat = none := by
      cases hitem : m.item n.toNat with
      | none => rfl
      | some y =>
        have hrun : m.mergeInto n x = some m' := hrun
        rw [ChunkMap.mergeInto, (haveItem_findItem h.apart n).1, hitem, Option.isSome_some, if_pos rfl] at hrun
        cases hrun
    obtain ⟨m₁, hm₁, hapart, hitem⟩ := mergeInto_spec h.apart x hnone
    cases hm₁.symm.trans hrun
    refine ⟨⟨hapart, fun j hj => ?_⟩, fun _ => ?_⟩
    · have := n.toNat_lt
      rw [hitem, if_neg (by omega)]
      exact h.bounded j hj
    · funext j
      rw [hitem, meaning, Function.update_apply]
  | removeItem n =>
    cases hrun
    obtain ⟨hapart, e, hitem, -⟩ := removeItem_spec h.apart n
    refine ⟨⟨hapart, fun j hj => ?_⟩, fun hlast => (removeItem_exact h.apart n).mpr hlast⟩
    rw [hitem, h.bounded j hj, ite_self]
  | removeAllStartingWith n =>
    cases hrun
    obtain ⟨hapart, hitem⟩ := removeAllStartingWith_spec h.apart n
    refine ⟨⟨hapart, fun j hj => ?_⟩, fun _ => funext hitem⟩
    rw [hitem, h.bounded j hj, ite_self]

theorem runAll_spec {ops : List (ChunkOp T)} {m m' : ChunkMap T} (h : Proper m) (hrun : runAll ops m = some m') :
    Proper m' ∧ (AllLast ops m.item → m'.item = ops.foldl (fun f op => op.meaning f) m.item) := by
  induction ops generalizing m with
  | nil =>
    cases hrun
    exact ⟨h, fun _ => rfl⟩
  | cons op ops ih =>
    obtain ⟨m₁, hop, hrest⟩ := Option.bind_eq_some_iff.mp hrun
    obtain ⟨h₁, hmean⟩ := run_spec h hop
    obtain ⟨h', hmeans⟩ := ih h₁ hrest
    refine ⟨h', fun ⟨hlast, hall⟩ => ?_⟩
    have heq := hmean hlast
    rw [heq] at hmeans
    exact hmeans hall

end ChunkOp

open ChunkOp

/-- Every map that is reached from the empty one is in chunks that are not empty and apart, and represents a finite partial function.
All functions on it agree with that, but `removeItem` only where no item follows: and if it is so at every step, the function is
what the changes mean. -/
theorem chunkMap_represents {T : Type} (ops : List (ChunkOp T)) (m : ChunkMap T) (hrun : runAll ops [] = some m) :
    Apart m ∧ {j | m.item j ≠ none}.Finite ∧
      (∀ n, m.haveItem n = (m.item n.toNat).isSome ∧ m.findItem n = m.item n.toNat) ∧
      (∀ n x, m.item n.toNat = none → ∃ m', m.mergeInto n x = some m' ∧ m'.item = Function.update m.item n.toNat (some x)) ∧
      (∀ n, (m.removeItem n).item = Function.update m.item n.toNat none ↔ m.item n.toNat = none ∨ m.item (n.toNat + 1) = none) ∧
      (∀ n, (m.removeAllStartingWith n).item = fun j => if n.toNat ≤ j then none else m.item j) ∧
      (AllLast ops (fun _ => none) → m.item = ops.foldl (fun f op => op.meaning f) fun _ => none) := by
  obtain ⟨⟨hapart, hbounded⟩, hmeans⟩ := runAll_spec (m := []) ⟨apart_nil, fun _ _ => rfl⟩ hrun
  refine ⟨hapart, ?_, haveItem_findItem hapart, fun n x hn => ?_, removeItem_exact hapart,
    fun n => funext (removeAllStartingWith_spec hapart n).2, hmeans⟩
  · refine (Set.finite_Iio (2 ^ 32)).subset fun j hj => ?_
    by_contra hle
    exact hj (hbounded j (Nat.le_of_not_lt hle))
  · obtain ⟨m', hm', -, hitem⟩ := mergeInto_spec hapart x hn
    refine ⟨m', hm', funext fun j => ?_⟩
    rw [hitem, Function.update_apply]

/-- Two chunks that an item joins, of which the last item is then removed. -/
theorem chunkMap_represents_sample :
    let ops : List (ChunkOp Char) := [.mergeInto 5 'a', .mergeInto 7 'c', .mergeInto 6 'b', .removeItem 7]
    runAll ops [] = some [(5, ['a', 'b'])] ∧ ChunkMap.item [(5, ['a', 'b'])] = ops.foldl (fun f op => op.meaning f) fun _ => none := by
  have hrun : runAll ([.mergeInto 5 'a', .mergeInto 7 'c', .mergeInto 6 'b', .removeItem 7] : List (ChunkOp Char)) [] =
      some [(5, ['a', 'b'])] := by decide
  exact ⟨hrun, (chunkMap_represents _ _ hrun).2.2.2.2.2.2 (by simp [AllLast, LastOfChunk, meaning])⟩

/-- With the first of two items in a chunk the other one is gone, too. -/
theorem removeItem_not_exact : ∃ m : ChunkMap Char, runAll [.mergeInto 5 'a', .mergeInto 6 'b'] [] = some m ∧
    m.findItem 6 = some 'b' ∧ (m.removeItem 5).findItem 6 = none :=
  ⟨[(5, ['a', 'b'])], by decide, by decide, by decide⟩

end Webthree
