import Webthree.Lemmas.Append

/-!
# References after appending

`append` copies an assembly behind another one faithfully just when the copy does not use the error tag. Tags are renamed by adding a
number to them, and the reserved tag `0` is treated like any other.
-/

namespace Webthree

namespace OpenAssembly

open AssemblyItem

/-- Every reference of the other assembly is one to the copy of what it referred to, no tags are mixed up and the error tag is kept,
just when the other assembly does not push the error tag, and what it keeps under a hash is what is kept there. -/
theorem append_appended_iff {a other r : OpenAssembly} (ha : a.WellFormed) (hother : other.WellFormed)
    (hr : a.append other = some r) :
    Assembly.Appended a.toAssembly other.toAssembly r.toAssembly ↔
      ∀ i ∈ other.m_items, i ≠ .errorTag ∧ ∀ x, a.kept i = some x → other.kept i = some x := by
  have h := append_result hr
  constructor
  · intro happ i hi
    obtain ⟨k, hk⟩ := List.mem_iff_getElem?.mp hi
    refine ⟨?_, ?_⟩
    · -- the copy of the error tag would be the error tag
      rintro rfl
      have hcopy := h.getElem?_copy hk
      rw [happ.errorTag k hk] at hcopy
      exact Result.renamed_errorTag_ne ha (Option.some.inj hcopy).symm
    · intro x hx
      obtain ⟨j, hj, htype, hrefs⟩ := happ.copy k i hk
      rw [h.getElem?_copy hk] at hj
      have hj := Option.some.inj hj
      subst hj
      obtain ⟨hpush, hsub, hself⟩ := kept_plain a hx
      rw [hself, referents_eq_kept _ hpush hsub, referents_eq_kept _ hpush hsub, map_moved_kept, h.kept, hx, Option.some_or] at hrefs
      have hmem : x ∈ (other.kept i).toList := hrefs ▸ List.mem_singleton_self x
      exact Option.mem_toList.mp hmem
  · intro hcond
    refine ⟨?_, ?_, ?_, ?_, ?_⟩
    · rw [h.items, List.length_append, List.length_map]
    · intro k i hk
      exact ⟨h.getElem?_own hk, h.referents_own ha hother (ha.items i (List.mem_of_getElem? hk))⟩
    · intro k i hk
      have hi := List.mem_of_getElem? hk
      exact ⟨a.renamed i, h.getElem?_copy hk, renamed_type a i,
        h.referents_copy ha hother (hother.items i hi) (hcond i hi).1 (hcond i hi).2⟩
    · intro k i j hk hj htag
      rw [h.getElem?_copy hk] at hj
      have hj := Option.some.inj hj
      subst hj
      exact Result.not_hasTag (hother.items i (List.mem_of_getElem? hk)) htag
    · intro k hk
      exact absurd rfl (hcond .errorTag (List.mem_of_getElem? hk)).1

/-- A jump to a tag of its own, with a part. -/
def sampleCaller : OpenAssembly :=
  { empty with m_usedTags := 3, m_items := [.pushTag 1, .ofInstruction .JUMP, .tag 1, .pushTag 2, ⟨.PushSub, 0, nofun⟩]
               m_subs := [empty.toAssembly] }

/-- Another one, which keeps data besides. -/
def sampleCallee : OpenAssembly :=
  { empty with m_usedTags := 2, m_items := [.tag 1, .pushTag 1, ⟨.PushSubSize, 0, nofun⟩, ⟨.PushData, 7, nofun⟩]
               m_data := [(7, [1, 2])], m_data_sorted := List.pairwise_singleton _ _, m_subs := [empty.toAssembly] }

theorem append_appended_sample : ∃ r, sampleCaller.append sampleCallee = some r ∧
    Assembly.Appended sampleCaller.toAssembly sampleCallee.toAssembly r.toAssembly := by
  have hcaller : sampleCaller.WellFormed := by
    refine ⟨by decide, by decide, ?_⟩
    simp only [sampleCaller, List.forall_mem_cons, List.not_mem_nil, false_imp_iff, implies_true, and_true]
    refine ⟨⟨nofun, fun _ => Or.inr ⟨by decide, by decide⟩, nofun, nofun⟩, knows_ofInstruction _ _,
      ⟨fun _ => ⟨by decide, by decide⟩, nofun, nofun, nofun⟩, ⟨nofun, fun _ => Or.inr ⟨by decide, by decide⟩, nofun, nofun⟩,
      ⟨nofun, nofun, fun _ => by decide, nofun⟩⟩
  have hcallee : sampleCallee.WellFormed := by
    refine ⟨by decide, by decide, ?_⟩
    simp only [sampleCallee, List.forall_mem_cons, List.not_mem_nil, false_imp_iff, implies_true, and_true]
    refine ⟨⟨fun _ => ⟨by decide, by decide⟩, nofun, nofun, nofun⟩, ⟨nofun, fun _ => Or.inr ⟨by decide, by decide⟩, nofun, nofun⟩,
      ⟨nofun, nofun, fun _ => by decide, nofun⟩, ⟨nofun, nofun, nofun, fun _ => rfl⟩⟩
  refine ⟨_, rfl, (append_appended_iff hcaller hcallee rfl).mpr ?_⟩
  intro i hi
  simp only [sampleCallee, List.mem_cons, List.not_mem_nil, or_false] at hi
  rcases hi with rfl | rfl | rfl | rfl
  · exact ⟨nofun, nofun⟩
  · exact ⟨by decide, nofun⟩
  · exact ⟨nofun, nofun⟩
  · exact ⟨nofun, nofun⟩

/-- A jump to the error tag, appended to an empty assembly, jumps to a tag that nothing defines. -/
theorem append_not_appended : ∃ a other r : OpenAssembly, Built (fun _ => 0) a ∧ Built (fun _ => 0) other ∧
    a.append other = some r ∧ other.m_items = [.errorTag] ∧ r.m_items = [.pushTag 1] ∧
    ¬ Assembly.Appended a.toAssembly other.toAssembly r.toAssembly := by
  have hjump : Built (fun _ => 0) (empty.appendItem .errorTag) :=
    Built.empty.appendItem ⟨nofun, fun _ => Or.inl rfl, nofun, nofun⟩
  refine ⟨empty, empty.appendItem .errorTag, _, Built.empty, hjump, rfl, rfl, rfl, ?_⟩
  intro h
  have hitem := h.errorTag 0 rfl
  exact absurd hitem (by decide)

end OpenAssembly

end Webthree
