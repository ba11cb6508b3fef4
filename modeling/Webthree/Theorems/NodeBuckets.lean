import Mathlib.Data.List.TakeWhile
import Webthree.Theorems.NodeTable

/-!
# Buckets

What is true of the buckets whatever is noted and dropped, and when an active node changes its place in the bucket without changing
that of others. `remove_if` removes with a node all that follow it.
-/

namespace Webthree

namespace NodeTable

variable {P : NodeTableParams} {m : Moment}

/-- A call that changes the table; entries are made, and are no longer pending, in between. -/
inductive TableCall where
  | noteActiveNode (m : Moment) (pubk : NodeID) (endpoint : UdpEndpoint)
  | dropNode (p : Nat)
  | addNode (node : Node) (relation : NodeRelation)
  | clearPending (id : NodeID)

/-- The table after a call. -/
def call (P : NodeTableParams) (s : NodeTable) : TableCall → NodeTable
  | .noteActiveNode m pubk endpoint => s.noteActiveNode P m pubk endpoint
  | .dropNode p => s.dropNode p
  | .addNode node relation => s.addNode P node relation
  | .clearPending id => s.clearPending id

/-- The buckets are small enough, nothing is in one twice, and each entry is in its own one. -/
structure Ordered (s : NodeTable) : Prop where
  size : ∀ i, (s.m_state i).length ≤ s_bucketSize
  nodup : ∀ i, (s.m_state i).Nodup
  place : ∀ i, ∀ p ∈ s.m_state i, p < s.entries.length ∧ bucket_UNSAFE (s.entry p) = i
  known : ∀ id p, s.m_nodes id = some p → p < s.entries.length

/-! ## What is left alone -/

/-- Entries keep their distances, and new ones come after the others. -/
def Grown (s s' : NodeTable) : Prop :=
  s.entries.length ≤ s'.entries.length ∧ ∀ p < s.entries.length, (s'.entry p).distance = (s.entry p).distance

theorem Grown.refl (s : NodeTable) : Grown s s := ⟨Nat.le_refl _, fun _ _ => rfl⟩

/-- What leaves the buckets alone keeps them in order. -/
theorem Ordered.grown {s s' : NodeTable} (h : Ordered s) (hg : Grown s s') (hstate : s'.m_state = s.m_state)
    (hknown : ∀ id p, s'.m_nodes id = some p → p < s'.entries.length) : Ordered s' where
  size i := by rw [hstate]; exact h.size i
  nodup i := by rw [hstate]; exact h.nodup i
  place i p hp := by
    rw [hstate] at hp
    obtain ⟨hlt, hbucket⟩ := h.place i p hp
    refine ⟨Nat.lt_of_lt_of_le hlt hg.1, ?_⟩
    rw [bucket_UNSAFE, hg.2 p hlt]
    exact hbucket
  known := hknown

theorem grown_modify (s : NodeTable) (p : Nat) (f : NodeEntry → NodeEntry) (hf : ∀ e, (f e).distance = e.distance) :
    Grown s { s with entries := s.entries.modify p f } := by
  refine ⟨(List.length_modify ..).ge, fun q hq => ?_⟩
  simp only [entry, List.getD_eq_getElem?_getD, List.getElem?_modify, List.getElem?_eq_getElem hq, Option.map_eq_map,
    Option.map_some, Option.getD_some]
  by_cases h : p = q
  · rw [if_pos h, hf]
  · rw [if_neg h]

theorem ordered_makeEntry {s : NodeTable} (h : Ordered s) (node : Node) (pending : Bool) : Ordered (s.makeEntry P node pending) := by
  refine h.grown ⟨?_, fun p hp => ?_⟩ rfl fun id p hp => ?_
  · simp [makeEntry]
  · simp [entry, makeEntry, List.getElem?_append_left hp]
  · simp only [makeEntry, List.length_append, List.length_singleton] at hp ⊢
    split at hp
    · cases hp
      exact Nat.lt_succ_self _
    · exact Nat.lt_succ_of_lt (h.known id p hp)

theorem ordered_addNode {s : NodeTable} (h : Ordered s) (node : Node) (relation : NodeRelation) : Ordered (s.addNode P node relation) := by
  cases relation with
  | Known => exact ordered_makeEntry h node false
  | Unknown =>
    simp only [addNode]
    split
    · exact h
    split
    · exact h.grown (Grown.refl s) rfl h.known
    split
    · exact h
    · exact ordered_makeEntry h node true

theorem ordered_clearPending {s : NodeTable} (h : Ordered s) (id : NodeID) : Ordered (s.clearPending id) := by
  unfold clearPending
  split
  · exact h
  · refine h.grown (grown_modify s _ _ fun _ => rfl) rfl fun i p hp => ?_
    dsimp only
    rw [List.length_modify]
    exact h.known i p hp

/-! ## One bucket -/

/-- A bucket is replaced by one that is in order. -/
theorem ordered_setBucket {s : NodeTable} (h : Ordered s) {i : Nat} {nodes : List Nat} (hsize : nodes.length ≤ s_bucketSize)
    (hnodup : nodes.Nodup) (hplace : ∀ p ∈ nodes, p < s.entries.length ∧ bucket_UNSAFE (s.entry p) = i) :
    Ordered (s.setBucket i nodes) where
  size j := by
    simp only [setBucket]
    split
    · exact hsize
    · exact h.size j
  nodup j := by
    simp only [setBucket]
    split
    · exact hnodup
    · exact h.nodup j
  place j p hp := by
    simp only [setBucket] at hp
    split at hp
    · next hj =>
      subst hj
      exact hplace p hp
    · exact h.place j p hp
  known := h.known

/-- The bucket without a node is the bucket up to it. -/
theorem withoutNode_sublist (p : Nat) (s : NodeTable) : (s.withoutNode p).Sublist (s.m_state (bucket_UNSAFE (s.entry p))) :=
  List.takeWhile_sublist _

theorem not_mem_withoutNode (p : Nat) (s : NodeTable) : p ∉ s.withoutNode p := fun hp => by
  have h := List.mem_takeWhile_imp hp
  exact absurd rfl (of_decide_eq_true h)

/-- The bucket of an active node afterwards. -/
def placed (m : Moment) (p : Nat) (s : NodeTable) : List Nat :=
  if s_bucketSize ≤ (s.withoutNode p).length then
    match s.contested m p with
    | none => (s.withoutNode p).drop 1 ++ [p]
    | some _ => s.withoutNode p
  else s.withoutNode p ++ [p]

theorem placeNode_eq (p : Nat) (s : NodeTable) : s.placeNode m p = s.setBucket (bucket_UNSAFE (s.entry p)) (s.placed m p) := by
  simp only [placeNode, placed]
  split
  · cases s.contested m p with
    | none => rfl
    | some c => rfl
  · rfl

theorem placed_ordered {s : NodeTable} (h : Ordered s) {p : Nat} (hp : p < s.entries.length) :
    (s.placed m p).length ≤ s_bucketSize ∧ (s.placed m p).Nodup ∧
      ∀ q ∈ s.placed m p, q < s.entries.length ∧ bucket_UNSAFE (s.entry q) = bucket_UNSAFE (s.entry p) := by
  have hsub := withoutNode_sublist p s
  have hsize : (s.withoutNode p).length ≤ s_bucketSize := hsub.length_le.trans (h.size _)
  have hnodup : (s.withoutNode p).Nodup := (h.nodup _).sublist hsub
  have hnot := not_mem_withoutNode p s
  have hplace : ∀ q ∈ s.withoutNode p, q < s.entries.length ∧ bucket_UNSAFE (s.entry q) = bucket_UNSAFE (s.entry p) :=
    fun q hq => h.place _ q (hsub.subset hq)
  -- the node comes behind a part of what is left
  have hadd : ∀ nodes : List Nat, nodes.Sublist (s.withoutNode p) → nodes.length < s_bucketSize →
      (nodes ++ [p]).length ≤ s_bucketSize ∧ (nodes ++ [p]).Nodup ∧
        ∀ q ∈ nodes ++ [p], q < s.entries.length ∧ bucket_UNSAFE (s.entry q) = bucket_UNSAFE (s.entry p) := by
    intro nodes hnodes hlt
    refine ⟨by rw [List.length_append]; exact hlt, ?_, fun q hq => ?_⟩
    · refine List.nodup_append.mpr ⟨hnodup.sublist hnodes, List.nodup_singleton p, fun a ha b hb hab => ?_⟩
      rw [List.mem_singleton.mp hb] at hab
      exact hnot (hab ▸ hnodes.subset ha)
    · rcases List.mem_append.mp hq with hq | hq
      · exact hplace q (hnodes.subset hq)
      · rw [List.mem_singleton.mp hq]
        exact ⟨hp, rfl⟩
  rw [placed]
  split
  · split
    · refine hadd _ (List.drop_sublist _ _) ?_
      rw [List.length_drop]
      have hpos : 0 < s_bucketSize := by decide
      omega
    · exact ⟨hsize, hnodup, hplace⟩
  · next hlt => exact hadd _ (List.Sublist.refl _) (Nat.lt_of_not_le hlt)

/-! ## Calls -/

theorem evict_frame (c p : Nat) (s : NodeTable) : (s.evict m c p).m_state = s.m_state ∧ (s.evict m c p).entries = s.entries ∧
    (s.evict m c p).m_nodes = s.m_nodes := by
  unfold evict doCheckEvictions
  split
  · exact ⟨rfl, rfl, rfl⟩
  · dsimp only
    split
    · split <;> exact ⟨rfl, rfl, rfl⟩
    · exact ⟨rfl, rfl, rfl⟩

/-- An active node is placed in its bucket, whatever becomes of the eviction. -/
theorem noteActiveNode_frame {pubk : NodeID} {endpoint : UdpEndpoint} {s : NodeTable} {p : Nat}
    (hp : s.activeEntry P pubk endpoint = some p) :
    (s.noteActiveNode P m pubk endpoint).m_state = ((s.updateEndpoint p endpoint).placeNode m p).m_state ∧
      (s.noteActiveNode P m pubk endpoint).entries = (s.updateEndpoint p endpoint).entries ∧
      (s.noteActiveNode P m pubk endpoint).m_nodes = s.m_nodes := by
  unfold noteActiveNode
  rw [hp]
  dsimp only
  split
  · rw [placeNode_eq]
    exact ⟨rfl, rfl, rfl⟩
  · obtain ⟨hstate, hentries, hnodes⟩ := evict_frame (m := m) _ p ((s.updateEndpoint p endpoint).placeNode m p)
    rw [hstate, hentries, hnodes, placeNode_eq]
    exact ⟨rfl, rfl, rfl⟩

theorem placed_updateEndpoint (p : Nat) (endpoint : UdpEndpoint) (s : NodeTable) :
    (s.updateEndpoint p endpoint).placed m p = s.placed m p ∧
      bucket_UNSAFE ((s.updateEndpoint p endpoint).entry p) = bucket_UNSAFE (s.entry p) := by
  have hbucket : bucket_UNSAFE ((s.updateEndpoint p endpoint).entry p) = bucket_UNSAFE (s.entry p) := by
    rw [bucket_UNSAFE, (entry_updateEndpoint p p endpoint s).2]
    rfl
  have hwithout : (s.updateEndpoint p endpoint).withoutNode p = s.withoutNode p := by
    rw [withoutNode, hbucket]
    rfl
  refine ⟨?_, hbucket⟩
  rw [placed, placed, hwithout, contested_updateEndpoint]

/-- The buckets after a node has been noted as active. -/
theorem noteActiveNode_state {pubk : NodeID} {endpoint : UdpEndpoint} {s : NodeTable} {p : Nat}
    (hp : s.activeEntry P pubk endpoint = some p) (i : Nat) :
    (s.noteActiveNode P m pubk endpoint).m_state i = if i = bucket_UNSAFE (s.entry p) then s.placed m p else s.m_state i := by
  obtain ⟨hplaced, hbucket⟩ := placed_updateEndpoint (m := m) p endpoint s
  rw [(noteActiveNode_frame hp).1, placeNode_eq, hplaced, hbucket]
  rfl

theorem active_known {pubk : NodeID} {endpoint : UdpEndpoint} {s : NodeTable} {p : Nat} (hp : s.activeEntry P pubk endpoint = some p) :
    s.m_nodes pubk = some p := by
  unfold activeEntry at hp
  split at hp
  · cases hp
  · exact (Option.filter_eq_some_iff.mp hp).1

theorem ordered_noteActiveNode {s : NodeTable} (h : Ordered s) (pubk : NodeID) (endpoint : UdpEndpoint) :
    Ordered (s.noteActiveNode P m pubk endpoint) := by
  cases hp : s.activeEntry P pubk endpoint with
  | none =>
    unfold noteActiveNode
    rw [hp]
    exact h
  | some p =>
    obtain ⟨hstate, hentries, hnodes⟩ := noteActiveNode_frame (m := m) hp
    have hupdate : Ordered (s.updateEndpoint p endpoint) := by
      refine h.grown (grown_modify s p _ fun _ => rfl) rfl fun i q hq => ?_
      rw [updateEndpoint, List.length_modify]
      exact h.known i q hq
    have hlt : p < (s.updateEndpoint p endpoint).entries.length := hupdate.known pubk p (active_known (s := s) hp)
    obtain ⟨hsize, hnodup, hplace⟩ := placed_ordered (m := m) hupdate hlt
    have hset := ordered_setBucket hupdate hsize hnodup hplace
    rw [← placeNode_eq] at hset
    refine hset.grown ⟨?_, fun q _ => ?_⟩ hstate fun i q hq => ?_
    · rw [hentries, placeNode_eq]
      exact Nat.le_refl _
    · rw [entry, hentries, placeNode_eq]
      rfl
    · rw [hnodes] at hq
      rw [hentries]
      exact hupdate.known i q hq

/-- Every call keeps the buckets in order. -/
theorem ordered_call {s : NodeTable} (h : Ordered s) (c : TableCall) : Ordered (s.call P c) := by
  cases c with
  | noteActiveNode m pubk endpoint => exact ordered_noteActiveNode h pubk endpoint
  | dropNode p =>
    refine ordered_setBucket h ?_ ((h.nodup _).filter _) fun q hq => h.place _ q (List.mem_of_mem_filter hq)
    exact (List.length_filter_le _ _).trans (h.size _)
  | addNode node relation => exact ordered_addNode h node relation
  | clearPending id => exact ordered_clearPending h id

/-- The table after calls. -/
def after (P : NodeTableParams) (calls : List TableCall) : NodeTable := calls.foldl (call P) NodeTable.new

theorem ordered_after (calls : List TableCall) : Ordered (after P calls) := by
  have hkeep : ∀ (s : NodeTable), Ordered s → Ordered (calls.foldl (call P) s) := by
    induction calls with
    | nil => exact fun s hs => hs
    | cons c calls ih => exact fun s hs => ih _ (ordered_call hs c)
  exact hkeep _ ⟨fun _ => Nat.zero_le _, fun _ => List.nodup_nil, fun _ _ hp => absurd hp List.not_mem_nil, fun _ _ hp => by cases hp⟩

/-- What comes before an element is all but the element exactly if it is the last one. -/
theorem takeWhile_eq_filter_iff {l : List Nat} (h : l.Nodup) (p : Nat) :
    l.takeWhile (· ≠ p) = l.filter (· ≠ p) ↔ (p ∈ l → l.getLast? = some p) := by
  by_cases hp : p ∈ l
  · obtain ⟨a, b, rfl⟩ := List.append_of_mem hp
    obtain ⟨-, hpb, hab⟩ := List.nodup_append.mp h
    have ha : ∀ q ∈ a, decide (q ≠ p) = true := fun q hq => decide_eq_true fun he => hab q hq p List.mem_cons_self he
    have hb : ∀ q ∈ b, decide (q ≠ p) = true := fun q hq => decide_eq_true fun he =>
      (List.nodup_cons.mp hpb).1 (he ▸ hq)
    rw [List.takeWhile_append_of_pos ha, List.filter_append, List.filter_eq_self.mpr ha, List.takeWhile_cons_of_neg (by simp),
      List.filter_cons_of_neg (by simp), List.filter_eq_self.mpr hb, List.append_cancel_left_eq]
    constructor
    · rintro rfl _
      exact List.getLast?_concat
    · intro hlast
      cases b using List.reverseRecOn with
      | nil => rfl
      | append_singleton b q =>
        have hq := hlast hp
        rw [← List.cons_append, ← List.append_assoc, List.getLast?_concat] at hq
        exact absurd (Option.some.inj hq) (of_decide_eq_true (hb q (by simp)))
  · have hall : ∀ q ∈ l, decide (q ≠ p) = true := fun q hq => decide_eq_true fun he => hp (he ▸ hq)
    rw [List.filter_eq_self.mpr hall, List.takeWhile_eq_self_iff.mpr hall]
    exact ⟨fun _ h => absurd h hp, fun _ => rfl⟩

namespace EvictionSample

/-- Three nodes of a bucket. -/
def three : List TableCall := [32, 33, 34].flatMap fun id =>
  [.addNode ⟨id, ⟨.v4 0x01020304, 30303, 30303⟩⟩ .Known, .noteActiveNode ⟨0, []⟩ id ⟨.v4 0x01020304, 30303⟩]

end EvictionSample

open EvictionSample

end NodeTable

end Webthree
