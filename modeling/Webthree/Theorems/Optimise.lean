import Webthree.Asm.Optimise
import Webthree.Lemmas.BlockDeduplicator
import Webthree.Lemmas.ControlFlowGraph

/-!
# Optimising and deduplicating

Optimising ends. A round of `Assembly::optimise` that replaces a chunk leaves fewer items, and a round that only deduplicates leaves nothing to deduplicate,
so that the number of rounds is bounded by the number of items.
-/

namespace Webthree

namespace Assembly

open AssemblyItem
open BlockDeduplicator (replacesAny deduplicate_settles)
open CommonSubexpressionEliminator (C)

variable {sha3 : Bytes → U256} {n turns : Nat}

/-! ## Chunks -/

theorem lift_eq_ok {α : Type} {x : ExpressionClasses.M α} {a : α} {s t : ExpressionClasses}
    (h : CommonSubexpressionEliminator.lift x s = .ok a t) : x s = .ok a t := by
  unfold CommonSubexpressionEliminator.lift at h
  cases hx : x s with
  | error e u =>
    rw [hx] at h
    cases h
  | ok b u =>
    rw [hx] at h
    cases h
    rfl

/-- A chunk takes items from the front. -/
theorem feedLoop_suffix {items rest : List AssemblyItem} {e e' : CommonSubexpressionEliminator} {s t : ExpressionClasses}
    (h : CommonSubexpressionEliminator.feedLoop sha3 n items e s = .ok (rest, e') t) : rest <:+ items := by
  induction items generalizing e s with
  | nil =>
    cases h
    exact List.suffix_refl _
  | cons item items ih =>
    rw [CommonSubexpressionEliminator.feedLoop] at h
    split at h
    · cases h
      exact List.suffix_cons item _
    · rw [bind_eq_result_ok] at h
      obtain ⟨e₁, u, -, h⟩ := h
      exact (ih h).trans (List.suffix_cons item items)

theorem feedItems_suffix {items rest : List AssemblyItem} {e e' : CommonSubexpressionEliminator} {s t : ExpressionClasses}
    (h : CommonSubexpressionEliminator.feedItems sha3 n items e s = .ok (rest, e') t) : rest <:+ items := by
  unfold CommonSubexpressionEliminator.feedItems at h
  split at h
  · cases h
  · exact feedLoop_suffix h

/-- A chunk that is counted is replaced by fewer items. -/
theorem replaceChunk_length {orig chunk : List AssemblyItem} {result : Except CSEError (List AssemblyItem)} {replaced : Nat}
    {s t : ExpressionClasses} (h : replaceChunk orig result s = .ok (chunk, replaced) t) : chunk.length + replaced ≤ orig.length := by
  have hkeep : ∀ {r}, (pure (orig, 0) : C (List AssemblyItem × Nat)) s = r → r = .ok (chunk, replaced) t →
      chunk.length + replaced ≤ orig.length := by
    rintro _ rfl h
    cases h
    exact le_rfl
  unfold replaceChunk at h
  split at h
  · split at h
    · rename_i hlt
      cases h
      exact hlt
    · exact hkeep rfl h
  · exact hkeep rfl h
  · exact hkeep rfl h
  · cases h

theorem optimiseChunks_length {k : Nat} {items optimisedItems : List AssemblyItem} {e : CommonSubexpressionEliminator} {count : Nat}
    {s t : ExpressionClasses} (h : optimiseChunks sha3 n turns k items e s = .ok (optimisedItems, count) t) :
    optimisedItems.length + count ≤ items.length := by
  induction k generalizing items optimisedItems e count s with
  | zero =>
    cases items with
    | nil =>
      cases h
      exact le_rfl
    | cons item items => cases h
  | succ k ih =>
    cases items with
    | nil =>
      cases h
      exact le_rfl
    | cons item items =>
      rw [optimiseChunks] at h
      simp only [bind_eq_result_ok] at h
      obtain ⟨⟨rest, e₁⟩, s₁, hfeed, ⟨result, e₂⟩, s₂, -, ⟨chunk, replaced⟩, s₃, hreplace, ⟨more, moreCount⟩, s₄, hmore, h⟩ := h
      cases h
      have hchunk := replaceChunk_length hreplace
      have hrest := ih hmore
      have hle := (feedItems_suffix (lift_eq_ok hfeed)).length_le
      rw [List.length_take] at hchunk
      rw [List.length_append]
      dsimp only at hchunk hrest ⊢
      omega

theorem optimiseBlocks_length {items optimisedItems : List AssemblyItem} {blocks : List BasicBlock} {count : Nat} {s t : ExpressionClasses}
    (h : optimiseBlocks sha3 n turns items blocks s = .ok (optimisedItems, count) t) :
    optimisedItems.length + count ≤ ((blocks.map BasicBlock.range).map fun r => r.2 - r.1).sum := by
  induction blocks generalizing optimisedItems count s with
  | nil =>
    cases h
    exact le_rfl
  | cons block blocks ih =>
    rw [optimiseBlocks] at h
    cases hstart : block.startState with
    | none =>
      simp only [hstart] at h
      cases h
    | some startState =>
      simp only [hstart, bind_eq_result_ok] at h
      obtain ⟨⟨chunk, replaced⟩, s₁, hchunk, ⟨more, moreCount⟩, s₂, hmore, h⟩ := h
      cases h
      have hchunk := optimiseChunks_length hchunk
      have hrest := ih hmore
      rw [List.length_take] at hchunk
      rw [List.length_append, List.map_cons, List.map_cons, List.sum_cons]
      dsimp only [BasicBlock.range] at hchunk hrest ⊢
      omega

/-- Each chunk that is counted saves an item. -/
theorem eliminate_length {items optimisedItems : List AssemblyItem} {count : Nat} {s t : ExpressionClasses}
    (h : eliminate sha3 n turns items s = .ok (optimisedItems, count) t) : optimisedItems.length + count ≤ items.length := by
  unfold eliminate at h
  rw [bind_eq_result_ok] at h
  obtain ⟨blocks, u, hblocks, h⟩ := h
  obtain ⟨hseparate, hle⟩ := ControlFlowGraph.optimisedBlocks_separate (lift_eq_ok hblocks)
  refine (optimiseBlocks_length h).trans (Ranges.sum_length_le hseparate fun r hr => ?_)
  obtain ⟨block, hblock, rfl⟩ := List.mem_map.mp hr
  exact hle block hblock

/-! ## Rounds -/

/-- What a round does: it deduplicates, and where chunks are replaced, the items become fewer. -/
theorem optimiseRound_cases {items : List AssemblyItem} {r : Round} (h : optimiseRound sha3 n turns items = .ok r) :
    r.deduplicated = replacesAny items ∧
      ((r.shortened = true ∧ r.m_items.length < items.length) ∨
        (r.shortened = false ∧ r.replaced = 0 ∧ r.m_items.length = items.length ∧ replacesAny r.m_items = false)) := by
  unfold optimiseRound at h
  split at h
  · cases h
  rename_i deduped deduplicated hdedup
  obtain ⟨hflag, hlength, hsettled⟩ := deduplicate_settles hdedup
  split at h
  · cases h
  rename_i optimisedItems replaced t helim
  have hle := eliminate_length helim
  split at h
  · rename_i hlt
    cases h
    exact ⟨hflag, Or.inl ⟨rfl, hlength ▸ hlt⟩⟩
  · rename_i hge
    cases h
    refine ⟨hflag, Or.inr ⟨rfl, ?_, hlength, hsettled⟩⟩
    dsimp only
    omega

/-- What becomes less in each round that counts something. -/
def remaining (items : List AssemblyItem) : Nat := 2 * items.length + (replacesAny items).toNat

theorem remaining_lt {items : List AssemblyItem} {r : Round} (h : optimiseRound sha3 n turns items = .ok r) (hcount : 0 < r.count) :
    remaining r.m_items < remaining items := by
  obtain ⟨hflag, ⟨-, hlt⟩ | ⟨hshortened, hreplaced, hlength, hsettled⟩⟩ := optimiseRound_cases h
  · have hone := Bool.toNat_le (replacesAny r.m_items)
    unfold remaining
    omega
  · rw [Round.count, hshortened, hreplaced, hflag] at hcount
    rw [remaining, remaining, hlength, hsettled]
    exact Nat.add_lt_add_left hcount _

/-- A round on the first items counts something and leaves the second ones. -/
def Counts (sha3 : Bytes → U256) (n : Nat) (items items' : List AssemblyItem) : Prop :=
  ∃ turns r, optimiseRound sha3 n turns items = .ok r ∧ 0 < r.count ∧ r.m_items = items'

theorem Counts.remaining_lt {items items' : List AssemblyItem} (h : Counts sha3 n items items') : remaining items' < remaining items := by
  obtain ⟨turns, r, hr, hcount, rfl⟩ := h
  exact Assembly.remaining_lt hr hcount

theorem remaining_le (items : List AssemblyItem) : remaining items ≤ 2 * items.length + 1 :=
  Nat.add_le_add_left (Bool.toNat_le _) _

/-- In each round of a run less remains. -/
theorem Counts.run_le {run : Nat → List AssemblyItem} {k : Nat} (h : ∀ j < k, Counts sha3 n (run j) (run (j + 1))) :
    k + remaining (run k) ≤ remaining (run 0) := by
  induction k with
  | zero => exact (Nat.zero_add _).le
  | succ k ih =>
    have hrun := ih fun j hj => h j (hj.trans (Nat.lt_succ_self k))
    have hlast := (h k (Nat.lt_succ_self k)).remaining_lt
    omega

theorem optimiseRound_error {items : List AssemblyItem} {e : OptimiseError} (h : optimiseRound sha3 n turns items = .error e) :
    ∃ e', e = .pass e' := by
  unfold optimiseRound at h
  split at h
  · cases h
    exact ⟨_, rfl⟩
  split at h
  · cases h
    exact ⟨_, rfl⟩
  split at h
  · cases h
  · cases h

/-- With more rounds than what remains, the loop ends, unless a pass throws. -/
theorem optimiseLoop_ends {rounds : Nat} {items : List AssemblyItem} (h : remaining items < rounds) :
    (∃ items', optimiseLoop sha3 n turns rounds items = .ok items') ∨ ∃ e, optimiseLoop sha3 n turns rounds items = .error (.pass e) := by
  induction rounds generalizing items with
  | zero => exact absurd h (Nat.not_lt_zero _)
  | succ rounds ih =>
    rw [optimiseLoop]
    cases hr : optimiseRound sha3 n turns items with
    | error e =>
      obtain ⟨e', rfl⟩ := optimiseRound_error hr
      exact Or.inr ⟨e', rfl⟩
    | ok r =>
      rw [ok_bind]
      split
      · rename_i hcount
        exact ih ((remaining_lt hr hcount).trans_le (Nat.lt_succ_iff.mp h))
      · exact Or.inl ⟨r.m_items, rfl⟩

/-! ## The result -/

/-- A round that counts a replaced chunk ends with fewer items; after a round that does not, there is nothing to deduplicate; so there are
only so many rounds that count something, and the loop ends where the passes return. -/
theorem optimise_ends (sha3 : Bytes → U256) (n : Nat) (items : List AssemblyItem) :
    (∀ turns r, optimiseRound sha3 n turns items = .ok r → 0 < r.replaced → r.m_items.length < items.length) ∧
      (∀ turns turns' r r', optimiseRound sha3 n turns items = .ok r → r.shortened = false →
        optimiseRound sha3 n turns' r.m_items = .ok r' → r'.deduplicated = false) ∧
      (∀ (run : Nat → List AssemblyItem) (k : Nat), run 0 = items → (∀ j < k, Counts sha3 n (run j) (run (j + 1))) →
        k ≤ 2 * items.length + 1) ∧
      ∀ turns rounds, 2 * items.length + 1 < rounds →
        (∃ items', optimiseLoop sha3 n turns rounds items = .ok items') ∨ ∃ e, optimiseLoop sha3 n turns rounds items = .error (.pass e) := by
  refine ⟨fun turns r hr hreplaced => ?_, fun turns turns' r r' hr hnot hr' => ?_, fun run k hstart hrun => ?_, fun turns rounds hrounds => ?_⟩
  · obtain ⟨-, ⟨-, hlt⟩ | ⟨-, hnone, -⟩⟩ := optimiseRound_cases hr
    · exact hlt
    · exact absurd hnone hreplaced.ne'
  · obtain ⟨-, ⟨hshortened, -⟩ | ⟨-, -, -, hsettled⟩⟩ := optimiseRound_cases hr
    · exact absurd (hnot.symm.trans hshortened) Bool.false_ne_true
    · exact (optimiseRound_cases hr').1.trans hsettled
  · have hle := Counts.run_le hrun
    have hbound := remaining_le items
    rw [hstart] at hle
    omega
  · exact optimiseLoop_ends ((remaining_le items).trans_lt hrounds)

/-- A jump to the tag that follows is removed, and a chunk that pushes a value only to pop it. -/
theorem optimise_ends_sample :
    optimiseRound (fun _ => 0) 20 100 [pushTag 1, ofInstruction .JUMP, tag 1, push 1, ofInstruction .POP, ofInstruction .STOP] =
        .ok ⟨[ofInstruction .STOP], false, 1, true⟩ ∧
      [ofInstruction .STOP].length < 6 := by
  have hround : optimiseRound (fun _ => 0) 20 100
      [pushTag 1, ofInstruction .JUMP, tag 1, push 1, ofInstruction .POP, ofInstruction .STOP] =
        .ok ⟨[ofInstruction .STOP], false, 1, true⟩ := by decide +kernel
  exact ⟨hround, (optimise_ends _ 20 _).1 100 _ hround Nat.one_pos⟩

end Assembly

/-!
## Deduplicating keeps the behaviour

The deduplicator ends, its comparator is an order on blocks, and what it leaves behaves like the original items, unless it replaces
the tag of a block that asks for its position.
-/

namespace BlockDeduplicator

open AssemblyItem

/-! ## What is decidable -/

instance (items : List AssemblyItem) : Decidable (UniqueTags items) :=
  decidable_of_iff (∀ i < items.length, ∀ j < items.length, (items[i]?.all fun x => x.type = .Tag) = true →
    items[i]? = items[j]? → i = j) <| by
  constructor
  · intro h i j t hi hj
    have hi' := (List.getElem?_eq_some_iff.mp hi).1
    have hj' := (List.getElem?_eq_some_iff.mp hj).1
    exact h i hi' j hj' (by rw [hi]; rfl) (hi.trans hj.symm)
  · intro h i hi j hj ht he
    have hx : items[i]? = some (tag items[i].data) := by
      rw [List.getElem?_eq_getElem hi] at ht ⊢
      exact congrArg some (eq_tag (of_decide_eq_true ht))
    exact h i j _ hx (he ▸ hx)

/-! ## Items that do not ask for their position -/

theorem mem_read {own self x : AssemblyItem} {l : List AssemblyItem} (h : x ∈ read own self l) : x = self ∨ x ∈ l := by
  induction l with
  | nil => cases h
  | cons y rest ih =>
    rw [read] at h
    by_cases hy : y.type = .Tag
    · rw [if_pos hy] at h
      exact (ih h).imp_right (List.mem_cons_of_mem y)
    · rw [if_neg hy] at h
      rcases List.mem_cons.mp h with rfl | h
      · unfold deref
        by_cases hown : y = own
        · exact Or.inl (if_pos hown)
        · exact Or.inr (by rw [if_neg hown]; exact List.mem_cons_self)
      · by_cases hends : SemanticInformation.altersControlFlow y = true ∧ y ≠ ofInstruction .JUMPI
        · rw [if_pos hends] at h
          cases h
        · rw [if_neg hends] at h
          exact (ih h).imp_right (List.mem_cons_of_mem y)

theorem readsPosition_replaceTag (items : List AssemblyItem) (x : AssemblyItem) :
    readsPosition (replaceTag items x) = readsPosition x := by
  by_cases hx : x.type = .PushTag
  · have hne : (replaceTag items x).type ≠ .Operation := by rw [replaceTag_type, hx]; decide
    exact (decide_eq_false fun h => hne h.1).trans (decide_eq_false fun h => by rw [hx] at h; cases h.1).symm
  · rw [replaceTag_of_ne hx]

/-- Every block may be moved where no item asks for its position. -/
theorem movable_of_no_pc {items : List AssemblyItem} (h : ∀ x ∈ items, readsPosition x = false) (k : Nat) :
    Movable (next^[k] items) := by
  have hnext : ∀ k, ∀ x ∈ next^[k] items, readsPosition x = false := by
    intro k
    induction k with
    | zero => exact h
    | succ k ih =>
      intro x hx
      rw [Function.iterate_succ_apply', next_eq] at hx
      obtain ⟨y, hy, rfl⟩ := List.mem_map.mp hx
      rw [readsPosition_replaceTag]
      exact ih y hy
  rintro i j t s - - - - ⟨x, hx, hpc⟩
  rcases mem_read hx with rfl | hx
  · cases hpc
  · rw [hnext k x (List.mem_of_mem_drop hx)] at hpc
    cases hpc

/-! ## The result -/

/-- The comparator is a strict weak ordering. -/
theorem comparator_order (items : List AssemblyItem) : IsStrictWeakOrder Nat fun i j => comparator items i j = true where
  irrefl i h := lt_irrefl _ (comparator_iff.mp h)
  trans i j k h h' := comparator_iff.mpr ((comparator_iff.mp h).trans (comparator_iff.mp h'))
  incomp_trans i j k := by
    simp only [comparator_iff, not_lt]
    rintro ⟨h, h'⟩ ⟨g, g'⟩
    exact ⟨g.trans h, h'.trans g'⟩

/-- Where each tag is defined at most once, the comparator is an order in each iteration, the deduplicator ends, and if no iteration
replaces the tag of a block that asks for its position, the items that it leaves behave like the original ones, but for tags of blocks
that behave in the same way. -/
theorem deduplicate_right (items : List AssemblyItem) (hu : UniqueTags items) :
    (∀ k, IsStrictWeakOrder Nat fun i j => comparator (next^[k] items) i j = true) ∧
      ∃ n r, (∀ m, n ≤ m → deduplicate m items = some r) ∧
        ((∀ k, Movable (next^[k] items)) → ∃ T, ∀ {ω : Type} (M : Machine ω), SameBehaviour M items r.1 T) := by
  refine ⟨fun k => comparator_order _, ?_⟩
  by_cases hself : tag selfTag ∈ items ∨ pushTag selfTag ∈ items
  · exact ⟨0, _, fun m _ => if_pos hself, fun _ => ⟨Eq, fun _ => sameBehaviour_self⟩⟩
  · obtain ⟨r, hr, hlater⟩ := iterations_end hu (Nat.lt_succ_self (weight items))
    refine ⟨(weight items).succ, (r.1, decide (0 < r.2)), fun m hm => ?_, fun hmovable => ?_⟩
    · rw [deduplicate, if_neg hself, hlater m hm]
      rfl
    · dsimp only
      rw [iterations_eq hr]
      exact iterate_behaviour _ hu (not_or.mp hself) fun k _ => hmovable k

/-! ## A block that asks for its position -/

namespace DuplicateSample

/-- Two blocks that do nothing else than to stop. -/
def stops : List AssemblyItem :=
  [pushTag 2, ofInstruction .JUMP, tag 1, ofInstruction .STOP, tag 2, ofInstruction .STOP]

/-- Two blocks that send the balance to the address that is their position. -/
def positions : List AssemblyItem :=
  [pushTag 2, ofInstruction .JUMP, tag 1, ofInstruction .PC, ofInstruction .SUICIDE, tag 2, ofInstruction .PC, ofInstruction .SUICIDE]

/-- What the deduplicator leaves of them. -/
def moved : List AssemblyItem :=
  [pushTag 1, ofInstruction .JUMP, tag 1, ofInstruction .PC, ofInstruction .SUICIDE, tag 2, ofInstruction .PC, ofInstruction .SUICIDE]

/-- The state is the address that the balance is sent to. -/
def machine : Machine U256 where
  exec
    | .SUICIDE, [w], _ => some ([], w)
    | _, _, _ => none
  pushed _ := 0
  offset k := BitVec.ofNat 256 k

end DuplicateSample

open DuplicateSample

/-- What is left of blocks that only stop behaves like them, on every machine. -/
theorem deduplicate_right_stops :
    (∀ k, IsStrictWeakOrder Nat fun i j => comparator (next^[k] stops) i j = true) ∧
      ∃ r, (∃ n, ∀ m, n ≤ m → deduplicate m stops = some r) ∧
        ∃ T, ∀ {ω : Type} (M : Machine ω), SameBehaviour M stops r.1 T := by
  obtain ⟨horder, n, r, hr, hsame⟩ := deduplicate_right stops (by decide)
  exact ⟨horder, r, ⟨n, hr⟩, hsame (movable_of_no_pc (by decide))⟩

/-- The blocks compare equal, but the balance is sent to another address once the tag is replaced. -/
theorem deduplicate_moves_position : UniqueTags positions ∧ (∀ n, machine.run positions n ⟨0, [], 0⟩ ≠ .misused) ∧
    (∀ m, 2 ≤ m → deduplicate m positions = some (moved, true)) ∧
      ¬∃ T, ∀ {ω : Type} (M : Machine ω), SameBehaviour M positions moved T := by
  have hrun : ∀ n, machine.run positions (n + 4) ⟨0, [], 0⟩ = .stopped 6 := fun _ => rfl
  have hmoved : machine.run moved 4 ⟨0, [], 0⟩ = .stopped 3 := rfl
  have hfirst : iterate positions = (moved, true) := by decide
  have hsecond : iterate moved = (moved, false) := by decide
  refine ⟨by decide, fun n => ?_, fun m hm => ?_, ?_⟩
  · match n with
    | 0 => nofun
    | 1 => nofun
    | 2 => nofun
    | 3 => nofun
    | n + 4 =>
      rw [hrun n]
      nofun
  · obtain ⟨m, rfl⟩ := Nat.exists_eq_add_of_le hm
    rw [deduplicate, if_neg (by decide), Nat.add_comm, iterations, hfirst]
    simp only [iterations, hsecond]
    rfl
  · rintro ⟨T, hT⟩
    have h := (hT machine).start 4 [] [] 0 .nil
    rw [hrun 0, hmoved] at h
    cases h

end BlockDeduplicator

end Webthree
