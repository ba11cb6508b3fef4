import Webthree.Lib.EState
import Webthree.Lib.Linearization
import Webthree.Lib.Transition
import Webthree.Libsolidity.Linearization

/-!
# A contract is linearised unless the orders go round

The merge takes a contract that is behind no other until the lists are used up, so that it gives a linearisation of them, or it is stuck
and the orders of the lists go round. Whatever contracts were resolved before, what is written about a contract are its ancestors, and no
contract that is linearised is its own ancestor.
-/

namespace Webthree

namespace Libsolidity

namespace Resolver

open Linearization Relation

variable {C : Type} {toMerge : List (List C)} {candidate contract : C} {A : Annotations C}
  {baseContracts : C → List (Option C)}

/-! ## The bases of a contract -/

theorem collectBases_eq {bases : List C} (hlin : ∀ b ∈ bases, A.linearizedBaseContracts b ≠ []) (i : Nat) (input : List (List C))
    (back : List C) : collectBases A (bases.map some) i input back =
      .ok ((bases.map A.linearizedBaseContracts).reverse ++ input, bases.reverse ++ back) := by
  induction bases generalizing i input back with
  | nil => rfl
  | cons base bases ih =>
    rw [List.map_cons, collectBases, if_neg (hlin base List.mem_cons_self), ih fun b hb => hlin b (List.mem_cons_of_mem _ hb)]
    simp

/-- Bases are collected only if all of them are contracts that are linearised. -/
theorem collectBases_ok {specifiers : List (Option C)} {i : Nat} {input : List (List C)} {back : List C} {r : List (List C) × List C}
    (h : collectBases A specifiers i input back = .ok r) :
    ∃ bases : List C, specifiers = bases.map some ∧ ∀ b ∈ bases, A.linearizedBaseContracts b ≠ [] := by
  induction specifiers generalizing i input back with
  | nil => exact ⟨[], rfl, by simp⟩
  | cons specifier rest ih =>
    cases specifier with
    | none => cases h
    | some base =>
      rw [collectBases] at h
      split at h
      · cases h
      · rename_i hbase
        obtain ⟨bases, rfl, hbases⟩ := ih h
        refine ⟨base :: bases, rfl, fun b hb => ?_⟩
        rcases List.mem_cons.mp hb with rfl | hb
        · exact hbase
        · exact hbases b hb

/-- A contract is derived from another directly. -/
def Base (baseContracts : C → List (Option C)) (contract base : C) : Prop := some base ∈ baseContracts contract

/-- The contracts that a contract is derived from, and itself. -/
def Ancestor (baseContracts : C → List (Option C)) : C → C → Prop := ReflTransGen (Base baseContracts)

/-- What is known of a contract that is linearised. -/
structure Linearised (baseContracts : C → List (Option C)) (A : Annotations C) (contract : C) : Prop where
  eq_cons : ∃ tail, A.linearizedBaseContracts contract = contract :: tail
  mem_iff : ∀ x, x ∈ A.linearizedBaseContracts contract ↔ Ancestor baseContracts contract x
  acyclic : ¬ TransGen (Base baseContracts) contract contract

/-- The orders that bind the ancestors of a contract: those of its bases, and that of the list of its bases, the last one first. -/
def orders (A : Annotations C) (bases : List C) : List (List C) := bases.map A.linearizedBaseContracts ++ [bases.reverse]

section

variable {bases : List C} (hbases : baseContracts contract = bases.map some)
  (hlin : ∀ b ∈ bases, Linearised baseContracts A b)

include hbases

theorem base_iff (b : C) : Base baseContracts contract b ↔ b ∈ bases := by
  rw [Base, hbases]
  simp

theorem ancestor_iff (x : C) : Ancestor baseContracts contract x ↔ x = contract ∨ ∃ b ∈ bases, Ancestor baseContracts b x := by
  rw [Ancestor, ReflTransGen.cases_head_iff]
  simp only [base_iff hbases]
  exact or_congr_left eq_comm

include hlin

/-- A contract whose bases are linearised is not its own ancestor. -/
theorem not_ancestor {b : C} (hb : b ∈ bases) : ¬ Ancestor baseContracts b contract := by
  intro hloop
  exact (hlin b hb).acyclic (TransGen.tail' hloop ((base_iff hbases b).mpr hb))

theorem not_mem_linearized {b : C} (hb : b ∈ bases) : contract ∉ A.linearizedBaseContracts b := by
  rw [(hlin b hb).mem_iff]
  exact not_ancestor hbases hlin hb

theorem not_mem_bases : contract ∉ bases := fun hin => not_ancestor hbases hlin hin .refl

/-- What is merged for a contract goes round just if the orders of its ancestors do. -/
theorem cyclic_input_iff : Cyclic ((bases.map A.linearizedBaseContracts).reverse ++ [contract :: bases.reverse]) ↔
    Cyclic (orders A bases) := by
  have hlists : ∀ l ∈ (bases.map A.linearizedBaseContracts).reverse, contract ∉ l := by
    intro l hl
    obtain ⟨b, hb, rfl⟩ := List.mem_map.mp (List.mem_reverse.mp hl)
    exact not_mem_linearized hbases hlin hb
  have hback : contract ∉ bases.reverse := fun hin => not_mem_bases hbases hlin (List.mem_reverse.mp hin)
  have hsame : ∀ l, l ∈ (bases.map A.linearizedBaseContracts).reverse ++ [bases.reverse] ↔ l ∈ orders A bases := by
    intro l
    rw [orders, List.mem_append, List.mem_append, List.mem_reverse]
  rw [cyclic_cons_iff hlists hback]
  constructor
  · exact Cyclic.mono fun l hl => ⟨l, (hsame l).mp hl, List.Sublist.refl l⟩
  · exact Cyclic.mono fun l hl => ⟨l, (hsame l).mpr hl, List.Sublist.refl l⟩

/-- What the linearisation of a contract is. -/
theorem linearizes_input {merged : List C}
    (h : Linearizes ((bases.map A.linearizedBaseContracts).reverse ++ [contract :: bases.reverse]) merged) :
    (∃ tail, merged = contract :: tail) ∧ ∀ x, x ∈ merged ↔ Ancestor baseContracts contract x := by
  have hback : contract :: bases.reverse ∈ (bases.map A.linearizedBaseContracts).reverse ++ [contract :: bases.reverse] := by simp
  have hold : ∀ {b}, b ∈ bases →
      A.linearizedBaseContracts b ∈ (bases.map A.linearizedBaseContracts).reverse ++ [contract :: bases.reverse] := by
    intro b hb
    exact List.mem_append_left _ (List.mem_reverse.mpr (List.mem_map_of_mem hb))
  have hmem : ∀ x, x ∈ merged ↔ Ancestor baseContracts contract x := by
    intro x
    rw [h.mem_iff, ancestor_iff hbases]
    constructor
    · rintro ⟨l, hl, hx⟩
      rcases List.mem_append.mp hl with hl | hl
      · obtain ⟨b, hb, rfl⟩ := List.mem_map.mp (List.mem_reverse.mp hl)
        exact .inr ⟨b, hb, ((hlin b hb).mem_iff x).mp hx⟩
      · obtain rfl := List.mem_singleton.mp hl
        rcases List.mem_cons.mp hx with rfl | hx
        · exact .inl rfl
        · exact .inr ⟨x, List.mem_reverse.mp hx, .refl⟩
    · rintro (rfl | ⟨b, hb, hx⟩)
      · exact ⟨_, hback, List.mem_cons_self⟩
      · exact ⟨_, hold hb, ((hlin b hb).mem_iff x).mpr hx⟩
  refine ⟨h.eq_cons ((hmem contract).mpr .refl) fun x hx hne => ?_, hmem⟩
  -- the contract is before its bases, and each of them is before what else is in its own list
  obtain rfl | ⟨b, hb, hxb⟩ := (ancestor_iff hbases x).mp ((hmem x).mp hx)
  · exact absurd rfl hne
  · have hbase : TransGen (Before ((bases.map A.linearizedBaseContracts).reverse ++ [contract :: bases.reverse])) contract b :=
      .single ⟨_, hback, (List.singleton_sublist.mpr (List.mem_reverse.mpr hb)).cons_cons contract⟩
    obtain ⟨tail, htail⟩ := (hlin b hb).eq_cons
    have hxin := ((hlin b hb).mem_iff x).mpr hxb
    rw [htail] at hxin
    rcases List.mem_cons.mp hxin with rfl | hxin
    · exact hbase
    · refine hbase.tail ⟨_, hold hb, ?_⟩
      rw [htail]
      exact (List.singleton_sublist.mpr hxin).cons_cons b

end

variable [DecidableEq C]

/-! ## One round -/

theorem appearsOnlyAtHead_eq (hne : [] ∉ toMerge) (candidate : C) :
    appearsOnlyAtHead candidate toMerge = .ok (decide (∀ bases ∈ toMerge, candidate ∉ bases.tail)) := by
  induction toMerge with
  | nil =>
    rw [appearsOnlyAtHead]
    simp [pure_eq_ok]
  | cons bases rest ih =>
    cases bases with
    | nil => exact absurd List.mem_cons_self hne
    | cons front behind =>
      have hrest : [] ∉ rest := fun h => hne (List.mem_cons_of_mem _ h)
      rw [appearsOnlyAtHead, ih hrest]
      by_cases hin : candidate ∈ behind
      · rw [if_pos hin]
        simp [pure_eq_ok, hin]
      · rw [if_neg hin]
        simp [hin]

/-- No candidate is found only if the first contract of each list is behind another one. -/
theorem firstCandidate_none (hne : [] ∉ toMerge) {lists : List (List C)} (h : firstCandidate toMerge lists = .ok none) :
    ∀ bases ∈ lists, ∃ front behind, bases = front :: behind ∧ ∃ bases' ∈ toMerge, front ∈ bases'.tail := by
  induction lists with
  | nil => simp
  | cons bases rest ih =>
    cases bases with
    | nil => cases h
    | cons front behind =>
      rw [firstCandidate, appearsOnlyAtHead_eq hne, ok_bind] at h
      by_cases honly : ∀ bases ∈ toMerge, front ∉ bases.tail
      · rw [if_pos (decide_eq_true honly)] at h
        cases h
      · rw [if_neg (by simpa using honly)] at h
        intro bases hbases
        rcases List.mem_cons.mp hbases with rfl | hbases
        · obtain ⟨bases', hbehind⟩ := not_forall.mp honly
          obtain ⟨hbases', hin⟩ := Classical.not_imp.mp hbehind
          exact ⟨front, behind, rfl, bases', hbases', Classical.not_not.mp hin⟩
        · exact ih h bases hbases

theorem firstCandidate_ok (hne : [] ∉ toMerge) {lists : List (List C)} (hlists : [] ∉ lists) :
    ∃ found, firstCandidate toMerge lists = .ok found := by
  induction lists with
  | nil => exact ⟨none, rfl⟩
  | cons bases rest ih =>
    cases bases with
    | nil => exact absurd List.mem_cons_self hlists
    | cons front behind =>
      rw [firstCandidate, appearsOnlyAtHead_eq hne, ok_bind]
      split
      · exact ⟨some front, rfl⟩
      · exact ih fun h => hlists (List.mem_cons_of_mem _ h)

theorem mem_removeCandidate {bases : List C} :
    bases ∈ removeCandidate candidate toMerge ↔ bases ≠ [] ∧ ∃ bases' ∈ toMerge, bases = bases'.filter (· ≠ candidate) := by
  induction toMerge with
  | nil => simp [removeCandidate]
  | cons first rest ih =>
    rw [removeCandidate]
    split
    · rename_i hempty
      rw [ih]
      constructor
      · rintro ⟨hne, bases', hin, heq⟩
        exact ⟨hne, bases', List.mem_cons_of_mem _ hin, heq⟩
      · rintro ⟨hne, bases', hin, heq⟩
        rcases List.mem_cons.mp hin with rfl | hin
        · exact absurd (heq.trans hempty) hne
        · exact ⟨hne, bases', hin, heq⟩
    · rename_i hkept
      rw [List.mem_cons, ih]
      constructor
      · rintro (rfl | ⟨hne, bases', hin, heq⟩)
        · exact ⟨hkept, first, List.mem_cons_self, rfl⟩
        · exact ⟨hne, bases', List.mem_cons_of_mem _ hin, heq⟩
      · rintro ⟨hne, bases', hin, heq⟩
        rcases List.mem_cons.mp hin with rfl | hin
        · exact .inl heq
        · exact .inr ⟨hne, bases', hin, heq⟩

/-! ## The merge -/

/-- The merge linearises the lists, or their orders go round. -/
theorem mergeLoop_spec (toMerge : List (List C)) (hne : [] ∉ toMerge) (result : List C) :
    Cyclic toMerge ∧ mergeLoop toMerge result = .ok [] ∨
      ∃ merged, Linearizes toMerge merged ∧ mergeLoop toMerge result = .ok (result ++ merged) := by
  rw [mergeLoop]
  by_cases hdone : toMerge = []
  · subst hdone
    exact .inr ⟨[], linearizes_nil, by rw [if_pos rfl, List.append_nil, pure_eq_ok]⟩
  · rw [if_neg hdone]
    obtain ⟨found, hfound⟩ := firstCandidate_ok hne hne
    split
    · rename_i e hnext
      rw [nextCandidate, hfound] at hnext
      cases hnext
    · rename_i hnext
      exact .inl ⟨cyclic_of_stuck hdone (firstCandidate_none hne hnext), rfl⟩
    · rename_i candidate hnext
      obtain ⟨honly, behind, hin⟩ := firstCandidate_some hnext
      rw [appearsOnlyAtHead_eq hne] at honly
      have hfirst := of_decide_eq_true (Except.ok.inj honly)
      have hne' : [] ∉ removeCandidate candidate toMerge := fun h => (mem_removeCandidate.mp h).1 rfl
      rcases mergeLoop_spec (removeCandidate candidate toMerge) hne' (result ++ [candidate]) with ⟨hcyclic, hloop⟩ | ⟨merged, hmerged, hloop⟩
      · refine .inl ⟨Cyclic.mono (fun bases hbases => ?_) hcyclic, hloop⟩
        obtain ⟨-, bases', hbases', rfl⟩ := mem_removeCandidate.mp hbases
        exact ⟨bases', hbases', List.filter_sublist⟩
      · refine .inr ⟨candidate :: merged, ?_, ?_⟩
        · exact Linearizes.cons ⟨_, hin, List.mem_cons_self⟩ hfirst (fun _ => mem_removeCandidate) hmerged
        · rw [hloop, List.append_assoc, List.singleton_append]
termination_by entries toMerge
decreasing_by
  exact entries_removeCandidate_lt ⟨_, hin, List.mem_cons_self⟩

theorem cThreeMerge_spec (hne : [] ∉ toMerge) :
    Cyclic toMerge ∧ cThreeMerge toMerge = .ok [] ∨ ∃ merged, Linearizes toMerge merged ∧ cThreeMerge toMerge = .ok merged := by
  have hall : toMerge.filter (· ≠ []) = toMerge := by
    rw [List.filter_eq_self]
    rintro bases hbases
    refine decide_eq_true ?_
    rintro rfl
    exact hne hbases
  have hspec := mergeLoop_spec toMerge hne []
  rwa [cThreeMerge, hall]

/-! ## Resolving contracts -/

/-- Whatever contracts are resolved, what is linearised is so. -/
def Valid (baseContracts : C → List (Option C)) (A : Annotations C) : Prop :=
  ∀ contract, A.linearizedBaseContracts contract ≠ [] → Linearised baseContracts A contract

/-- A contract whose bases are linearised is linearised, or its orders go round. -/
theorem linearizeBaseContracts_spec (hvalid : Valid baseContracts A) {bases : List C} (hbases : baseContracts contract = bases.map some)
    (hlin : ∀ b ∈ bases, A.linearizedBaseContracts b ≠ []) :
    Cyclic (orders A bases) ∧ linearizeBaseContracts baseContracts A contract = .error .LinearizationImpossible ∨
      ¬ Cyclic (orders A bases) ∧ ∃ tail, linearizeBaseContracts baseContracts A contract = .ok (annotate A contract (contract :: tail)) ∧
        (contract :: tail).Nodup ∧ (∀ x, x ∈ contract :: tail ↔ Ancestor baseContracts contract x) ∧
        (∀ b ∈ bases, (A.linearizedBaseContracts b).Sublist (contract :: tail)) ∧ bases.reverse.Sublist (contract :: tail) := by
  have hlin' : ∀ b ∈ bases, Linearised baseContracts A b := fun b hb => hvalid b (hlin b hb)
  have hne : [] ∉ (bases.map A.linearizedBaseContracts).reverse ++ [contract :: bases.reverse] := by
    intro hin
    rcases List.mem_append.mp hin with hin | hin
    · obtain ⟨b, hb, hempty⟩ := List.mem_map.mp (List.mem_reverse.mp hin)
      exact hlin b hb hempty
    · cases List.mem_singleton.mp hin
  have hcollect := collectBases_eq hlin 0 [] []
  rw [List.append_nil, List.append_nil] at hcollect
  rw [linearizeBaseContracts, hbases, hcollect, ok_bind]
  rcases cThreeMerge_spec hne with ⟨hcyclic, hmerge⟩ | ⟨merged, hmerged, hmerge⟩
  · refine .inl ⟨(cyclic_input_iff hbases hlin').mp hcyclic, ?_⟩
    simp only [hmerge, ok_bind, if_pos, throw_eq_error]
  · have hacyclic : ¬ Cyclic (orders A bases) := by
      rw [← cyclic_input_iff hbases hlin']
      exact hmerged.not_cyclic
    obtain ⟨⟨tail, rfl⟩, hmem⟩ := linearizes_input hbases hlin' hmerged
    refine .inr ⟨hacyclic, tail, ?_, hmerged.nodup, hmem, fun b hb => hmerged.keeps _ ?_, ?_⟩
    · simp only [hmerge, ok_bind, if_neg (List.cons_ne_nil contract tail), pure_eq_ok]
    · exact List.mem_append_left _ (List.mem_reverse.mpr (List.mem_map_of_mem hb))
    · have hback := hmerged.keeps (contract :: bases.reverse) (by simp)
      exact (List.sublist_cons_self _ _).trans hback

/-- What is written about a contract does not change what is known of the others. -/
theorem valid_annotate (hvalid : Valid baseContracts A) {result : List C}
    (hresult : Linearised baseContracts (annotate A contract result) contract) : Valid baseContracts (annotate A contract result) := by
  intro other hother
  by_cases hsame : other = contract
  · subst hsame
    exact hresult
  · have hkept : (annotate A contract result).linearizedBaseContracts other = A.linearizedBaseContracts other :=
      Function.update_of_ne hsame _ _
    rw [hkept] at hother
    obtain ⟨heq, hmem, hacyclic⟩ := hvalid other hother
    exact ⟨by rw [hkept]; exact heq, by rw [hkept]; exact hmem, hacyclic⟩

theorem valid_resolve (hvalid : Valid baseContracts A) (contract : C) : Valid baseContracts (resolve baseContracts A contract) := by
  cases hcall : linearizeBaseContracts baseContracts A contract with
  | error e =>
    rw [resolve, hcall]
    exact hvalid
  | ok A' =>
    have hcollected := hcall
    rw [linearizeBaseContracts] at hcollected
    obtain ⟨_, hcollect, -⟩ := bind_eq_ok.mp hcollected
    obtain ⟨bases, hbases, hlin⟩ := collectBases_ok hcollect
    have hlin' : ∀ b ∈ bases, Linearised baseContracts A b := fun b hb => hvalid b (hlin b hb)
    rcases linearizeBaseContracts_spec hvalid hbases hlin with ⟨-, herror⟩ | ⟨-, tail, hok, -, hmem, -⟩
    · rw [hcall] at herror
      cases herror
    · rw [resolve, hok]
      have hnew : (annotate A contract (contract :: tail)).linearizedBaseContracts contract = contract :: tail :=
        Function.update_self _ _ _
      refine valid_annotate hvalid ⟨⟨tail, hnew⟩, by rw [hnew]; exact hmem, fun hloop => ?_⟩
      obtain ⟨b, hb, hback⟩ := TransGen.head'_iff.mp hloop
      exact not_ancestor hbases hlin' ((base_iff hbases b).mp hb) hback

/-- In every state that resolving contracts leads to, and for every contract whose bases are linearised in it, the contract is linearised,
or that is reported to be impossible, which is so if and only if the orders of its ancestors go round. -/
theorem linearizeBaseContracts_complete (baseContracts : C → List (Option C)) (A : Annotations C)
    (h : Reach (resolve baseContracts) (fun _ _ => True) unresolved A) (contract : C) (bases : List C)
    (hbases : baseContracts contract = bases.map some) (hlin : ∀ b ∈ bases, A.linearizedBaseContracts b ≠ []) :
    (Cyclic (orders A bases) ∧ linearizeBaseContracts baseContracts A contract = .error .LinearizationImpossible) ∨
      (¬ Cyclic (orders A bases) ∧
        ∃ tail, linearizeBaseContracts baseContracts A contract = .ok (annotate A contract (contract :: tail)) ∧
          (contract :: tail).Nodup ∧ (∀ x, x ∈ contract :: tail ↔ Ancestor baseContracts contract x) ∧
          (∀ b ∈ bases, (A.linearizedBaseContracts b).Sublist (contract :: tail)) ∧ bases.reverse.Sublist (contract :: tail)) := by
  have hnone : Valid baseContracts unresolved := fun _ hne => absurd rfl hne
  have hvalid : Valid baseContracts A := h.invariant hnone fun _ contract hvalid _ => valid_resolve hvalid contract
  exact linearizeBaseContracts_spec hvalid hbases hlin

/-- A contract with two bases that are derived from the same one. -/
def diamond : Fin 4 → List (Option (Fin 4))
  | 0 => []
  | 1 => [some 0]
  | 2 => [some 0]
  | 3 => [some 1, some 2]

theorem linearizeBaseContracts_complete_diamond :
    ¬ Cyclic (orders ([0, 1, 2].foldl (resolve diamond) unresolved) [1, 2]) := by
  have hreach : Reach (resolve diamond) (fun _ _ => True) unresolved ([0, 1, 2].foldl (resolve diamond) unresolved) :=
    Reach.start.foldl ⟨trivial, trivial, trivial, trivial⟩
  have hlin : ∀ b ∈ [1, 2], ([0, 1, 2].foldl (resolve diamond) unresolved).linearizedBaseContracts b ≠ [] := by decide +kernel
  have hok : (linearizeBaseContracts diamond ([0, 1, 2].foldl (resolve diamond) unresolved) 3).isOk = true := by decide +kernel
  rcases linearizeBaseContracts_complete diamond _ hreach 3 [1, 2] rfl hlin with ⟨-, herror⟩ | ⟨hacyclic, -⟩
  · rw [herror] at hok
    cases hok
  · exact hacyclic

end Resolver

end Libsolidity

end Webthree
