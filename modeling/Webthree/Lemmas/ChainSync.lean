import Webthree.Chain.Sync
import Webthree.Lemmas.ChainStep

/-!
# Importing a batch

How the attempts of a batch end, one after the other, and what `sync` makes of it: which blocks are stored in the end and which
are reported as bad.
-/

namespace Webthree

namespace BlockChain

variable {P : ChainParams} {T : BlockTree P}

/-- How the attempts end, each from the state that the ones before have led to: with an error or without. -/
def outcomes (P : ChainParams) : List (VerifiedBlockRef × Attempt) → BlockChain → List (VerifiedBlockRef × Option ChainError)
  | [], _ => []
  | (b, o) :: blocks, c =>
    let r := BlockChain.import P b o true c
    (b, raised r) :: outcomes P blocks (endState r)

theorem outcomes_fst (blocks : List (VerifiedBlockRef × Attempt)) (c : BlockChain) :
    (outcomes P blocks c).map Prod.fst = blocks.map Prod.fst := by
  induction blocks generalizing c with
  | nil => rfl
  | cons x blocks ih =>
    obtain ⟨b, o⟩ := x
    rw [outcomes, List.map_cons, List.map_cons, ih]

theorem batch_fst (verified : VerifiedBlock → VerifiedBlockRef) (attempt : Nat → Attempt) (max : Nat) (q : BlockQueue) :
    (batch verified attempt max q).map Prod.fst = (q.drainOut max).map verified := by
  have hzip : (q.drainOut max).map verified = ((q.drainOut max).zipIdx.map Prod.fst).map verified := by rw [List.zipIdx_map_fst]
  rw [batch, List.mapIdx_eq_zipIdx_map, List.map_map, hzip, List.map_map]
  rfl

/-- `sync` reports the block. -/
def Reported (e : Option ChainError) : Prop := e = some .AlreadyHaveBlock ∨ e = some .UnknownParent ∨ e = some .Exception

/-- The failure is transient. -/
def Transient (e : Option ChainError) : Prop := e = some .FutureTime ∨ e = some .TransientError

instance (e : Option ChainError) : Decidable (Reported e) := inferInstanceAs (Decidable (_ ∨ _))

instance (e : Option ChainError) : Decidable (Transient e) := inferInstanceAs (Decidable (_ ∨ _))

/-- What is known of the attempts of a batch: `c` is the state before and `c'` the one after. -/
structure Tried (T : BlockTree P) (c : BlockChain) (ends : List (VerifiedBlockRef × Option ChainError)) (bad : List H256)
    (c' : BlockChain) : Prop where
  sound : Sound T c'
  stored : ∀ h, Stored P c' h ↔ Stored P c h ∨ ∃ x ∈ ends, P.hash x.1.info = h ∧ x.2 = none
  bad_iff : ∀ h, h ∈ bad ↔ ∃ x ∈ ends, P.hash x.1.info = h ∧ Reported x.2
  kinds : ∀ x ∈ ends, x.2 = none ∨ Reported x.2 ∨ Transient x.2
  unknownParent : ∀ l₁ b l₂, ends = l₁ ++ (b, some .UnknownParent) :: l₂ →
    ¬Stored P c b.info.parentHash ∧ ∀ x ∈ l₁, P.hash x.1.info = b.info.parentHash → x.2 ≠ none

theorem Tried.nil {c : BlockChain} (hc : Sound T c) : Tried T c [] [] c := by
  refine ⟨hc, fun h => ?_, fun h => ?_, fun x hx => absurd hx List.not_mem_nil, fun l₁ b l₂ heq => ?_⟩
  · simp
  · simp
  · cases l₁ with
    | nil => cases heq
    | cons x l₁ => cases heq

/-- Each block is stored or reported, and none is reported because of a transient failure: its own attempt has failed for another
reason, where an unknown parent counts if it has been reported itself or has not been tried before. -/
structure NothingLost (P : ChainParams) (ends : List (VerifiedBlockRef × Option ChainError)) (bad : List H256) (c' : BlockChain) :
    Prop where
  accounted : ∀ x ∈ ends, Stored P c' (P.hash x.1.info) ∨ P.hash x.1.info ∈ bad
  blamed : ∀ h ∈ bad, ∃ l₁ b e l₂, ends = l₁ ++ (b, some e) :: l₂ ∧ P.hash b.info = h ∧
    (e = .AlreadyHaveBlock ∨ e = .Exception ∨
      e = .UnknownParent ∧ (b.info.parentHash ∈ bad ∨ ∀ x ∈ l₁, P.hash x.1.info ≠ b.info.parentHash))

/-- Only attempts at blocks that are stored already fail for a transient reason. -/
def NoTransient (P : ChainParams) (c : BlockChain) (ends : List (VerifiedBlockRef × Option ChainError)) : Prop :=
  ∀ l₁ b e l₂, ends = l₁ ++ (b, e) :: l₂ → Transient e →
    Stored P c (P.hash b.info) ∨ ∃ x ∈ l₁, P.hash x.1.info = P.hash b.info ∧ x.2 = none

theorem Tried.nothingLost {c c' : BlockChain} {ends : List (VerifiedBlockRef × Option ChainError)} {bad : List H256}
    (h : Tried T c ends bad c') (hno : NoTransient P c ends) : NothingLost P ends bad c' := by
  refine ⟨fun x hx => ?_, fun y hy => ?_⟩
  · rcases h.kinds x hx with hnone | hrep | htrans
    · exact Or.inl ((h.stored _).mpr (Or.inr ⟨x, hx, rfl, hnone⟩))
    · exact Or.inr ((h.bad_iff _).mpr ⟨x, hx, rfl, hrep⟩)
    · obtain ⟨l₁, l₂, heq⟩ := List.append_of_mem hx
      refine Or.inl ((h.stored _).mpr ?_)
      rcases hno l₁ x.1 x.2 l₂ heq htrans with hs | ⟨z, hz, hhash, hnone⟩
      · exact Or.inl hs
      · exact Or.inr ⟨z, heq ▸ List.mem_append_left _ hz, hhash, hnone⟩
  · obtain ⟨⟨b, e⟩, hx, hhash, hrep⟩ := (h.bad_iff y).mp hy
    obtain ⟨l₁, l₂, heq⟩ := List.append_of_mem hx
    rcases hrep with rfl | rfl | rfl
    · exact ⟨l₁, b, _, l₂, heq, hhash, Or.inl rfl⟩
    · refine ⟨l₁, b, _, l₂, heq, hhash, Or.inr (Or.inr ⟨rfl, ?_⟩)⟩
      obtain ⟨hnot, hbefore⟩ := h.unknownParent l₁ b l₂ heq
      by_cases hex : ∃ z ∈ l₁, P.hash z.1.info = b.info.parentHash
      · obtain ⟨z, hz, hzp⟩ := hex
        have hmem : z ∈ ends := heq ▸ List.mem_append_left _ hz
        -- the attempt at the parent has not been successful, so it has been reported
        rcases h.kinds z hmem with hnone | hzrep | htrans
        · exact absurd hnone (hbefore z hz hzp)
        · exact Or.inl ((h.bad_iff _).mpr ⟨z, hmem, hzp, hzrep⟩)
        · obtain ⟨k₁, k₂, hsplit⟩ := List.append_of_mem hz
          have heq' : ends = k₁ ++ (z.1, z.2) :: (k₂ ++ (b, some .UnknownParent) :: l₂) := by
            rw [heq, hsplit, List.append_assoc, List.cons_append]
          rcases hno k₁ z.1 z.2 _ heq' htrans with hs | ⟨w, hw, hwp, hnone⟩
          · exact absurd (hzp ▸ hs) hnot
          · exact absurd hnone (hbefore w (hsplit ▸ List.mem_append_left _ hw) (hwp.trans hzp))
      · exact Or.inr fun z hz hzp => hex ⟨z, hz, hzp⟩
    · exact ⟨l₁, b, _, l₂, heq, hhash, Or.inr (Or.inl rfl)⟩

/-- If no block is tried twice, a transient failure of a new block loses it. -/
theorem Tried.noTransient {c c' : BlockChain} {ends : List (VerifiedBlockRef × Option ChainError)} {bad : List H256}
    (h : Tried T c ends bad c') (hnodup : (ends.map fun x => P.hash x.1.info).Nodup) (hlost : NothingLost P ends bad c') :
    NoTransient P c ends := by
  intro l₁ b e l₂ heq htrans
  have hsame : ∀ x ∈ ends, P.hash x.1.info = P.hash b.info → x.2 = e := by
    intro x hx hhash
    have hmem : (b, e) ∈ ends := heq ▸ List.mem_append_right _ List.mem_cons_self
    have hxe : x = (b, e) := List.inj_on_of_nodup_map hnodup hx hmem hhash
    rw [hxe]
  rcases hlost.accounted (b, e) (heq ▸ List.mem_append_right _ List.mem_cons_self) with hs | hbad
  · rcases (h.stored _).mp hs with hs | ⟨x, hx, hhash, hnone⟩
    · exact Or.inl hs
    · rw [hsame x hx hhash] at hnone
      rw [hnone] at htrans
      rcases htrans with htrans | htrans
      · cases htrans
      · cases htrans
  · obtain ⟨x, hx, hhash, hrep⟩ := (h.bad_iff _).mp hbad
    rw [hsame x hx hhash] at hrep
    rcases htrans with rfl | rfl
    · simp [Reported] at hrep
    · simp [Reported] at hrep

/-- What is known of one attempt. -/
structure TriedOne (T : BlockTree P) (c : BlockChain) (b : VerifiedBlockRef) (e : Option ChainError) (own : List H256)
    (c₁ : BlockChain) : Prop where
  sound : Sound T c₁
  stored : ∀ h, Stored P c₁ h ↔ Stored P c h ∨ P.hash b.info = h ∧ e = none
  own_iff : ∀ h, h ∈ own ↔ P.hash b.info = h ∧ Reported e
  kind : e = none ∨ Reported e ∨ Transient e
  unknownParent : e = some .UnknownParent → ¬Stored P c b.info.parentHash

/-- One more attempt before the others. -/
theorem Tried.cons {c c₁ c' : BlockChain} {b : VerifiedBlockRef} {e : Option ChainError} {own : List H256}
    {ends : List (VerifiedBlockRef × Option ChainError)} {bad : List H256} (h : Tried T c₁ ends bad c')
    (h₁ : TriedOne T c b e own c₁) : Tried T c ((b, e) :: ends) (own ++ bad) c' := by
  refine ⟨h.sound, fun x => ?_, fun x => ?_, fun x hx => ?_, fun l₁ b' l₂ heq => ?_⟩
  · rw [h.stored, h₁.stored, or_assoc]
    simp only [List.mem_cons, exists_eq_or_imp]
  · rw [List.mem_append, h₁.own_iff, h.bad_iff]
    simp only [List.mem_cons, exists_eq_or_imp]
  · rcases List.mem_cons.mp hx with rfl | hx
    · exact h₁.kind
    · exact h.kinds x hx
  · cases l₁ with
    | nil =>
      obtain ⟨hbe, -⟩ := List.cons.inj heq
      cases hbe
      exact ⟨h₁.unknownParent rfl, fun x hx => absurd hx List.not_mem_nil⟩
    | cons y l₁ =>
      obtain ⟨rfl, heq'⟩ := List.cons.inj heq
      obtain ⟨hnot, hbefore⟩ := h.unknownParent l₁ b' l₂ heq'
      rw [h₁.stored, not_or] at hnot
      refine ⟨hnot.1, fun x hx hhash => ?_⟩
      rcases List.mem_cons.mp hx with rfl | hx
      · exact fun hnone => hnot.2 ⟨hhash, hnone⟩
      · exact hbefore x hx hhash

/-- An attempt that throws leaves the stored blocks as they were. -/
theorem TriedOne.of_error {c c₁ : BlockChain} (hc : Sound T c) (hr : DetailsOnly c c₁) {b : VerifiedBlockRef} {e : ChainError}
    {own : List H256} (hown : ∀ h, h ∈ own ↔ P.hash b.info = h ∧ Reported (some e)) (hkind : Reported (some e) ∨ Transient (some e))
    (hparent : some e = some .UnknownParent → ¬Stored P c b.info.parentHash) : TriedOne T c b (some e) own c₁ := by
  refine ⟨hr.sound hc, fun h => ?_, hown, Or.inr hkind, hparent⟩
  rw [hr.stored]
  refine ⟨Or.inl, fun hs => hs.resolve_right fun hnone => ?_⟩
  cases hnone.2

/-- One turn of the loop. -/
theorem syncOne_runs {c : BlockChain} (hc : Sound T c) {b : VerifiedBlockRef} (hb : T.Has b) (o : Attempt) :
    Runs (syncOne P b o) c (fun s c₁ => c₁ = endState (BlockChain.import P b o true c) ∧
      TriedOne T c b (raised (BlockChain.import P b o true c)) s.badBlocks c₁) fun e _ => e = .exit := by
  rw [syncOne, runs_tryCatch, runs_bind]
  refine ((import_runs hc hb o true).and (Runs.self _ c)).mono ?_ ?_
  · intro r c₁ h₁
    obtain ⟨⟨hacc, himp, hhead⟩, heq⟩ := h₁
    rw [runs_pure, heq]
    refine ⟨rfl, himp.sound_of_head hc hb hacc hhead, fun h => ?_, fun h => ?_, Or.inl rfl, fun he => ?_⟩
    · rw [himp.stored, raised, eq_comm, or_comm, and_iff_left rfl]
    · simp [raised, Reported]
    · cases he
  · intro e c₁ h₁
    obtain ⟨⟨hr, hreason, -⟩, heq⟩ := h₁
    rw [heq, raised, endState]
    cases e with
    | UnknownParent => exact ⟨rfl, .of_error hc hr (by simp [Reported, eq_comm]) (by simp [Reported]) fun _ => hreason⟩
    | AlreadyHaveBlock => exact ⟨rfl, .of_error hc hr (by simp [Reported, eq_comm]) (by simp [Reported]) (by simp)⟩
    | Exception => exact ⟨rfl, .of_error hc hr (by simp [Reported, eq_comm]) (by simp [Reported]) (by simp)⟩
    | FutureTime => exact ⟨rfl, .of_error hc hr (by simp [Reported]) (by simp [Transient]) (by simp)⟩
    | TransientError => exact ⟨rfl, .of_error hc hr (by simp [Reported]) (by simp [Transient]) (by simp)⟩
    | exit => exact rfl
    | assertionFailed => exact hreason.elim
    | noProgress => exact hreason.elim

/-- The loop of `sync` returns unless the client ends. -/
theorem syncLoop_runs {c : BlockChain} (hc : Sound T c) {blocks : List (VerifiedBlockRef × Attempt)} (hb : ∀ x ∈ blocks, T.Has x.1) :
    Runs (syncLoop P blocks) c (fun s c' => Tried T c (outcomes P blocks c) s.badBlocks c') fun e _ => e = .exit := by
  induction blocks generalizing c with
  | nil => exact Tried.nil hc
  | cons x blocks ih =>
    obtain ⟨b, o⟩ := x
    rw [syncLoop, runs_bind]
    refine (syncOne_runs hc (hb _ List.mem_cons_self) o).mono ?_ fun _ _ he => he
    intro s c₁ h₁
    obtain ⟨rfl, h₁⟩ := h₁
    rw [runs_bind]
    refine (ih h₁.sound fun x hx => hb x (List.mem_cons_of_mem _ hx)).mono (fun s' c' h' => ?_) fun _ _ he => he
    exact h'.cons h₁

end BlockChain

end Webthree
