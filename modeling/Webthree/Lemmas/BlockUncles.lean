import Webthree.Chain.Block
import Webthree.Lemmas.ChainIndex
import Webthree.Lib.EState

/-!
# The uncles of a block

What the queries for uncles return on a chain: parents and children of stored blocks, and the kin of a block. The uncles that
`commitToSeal` chooses are the first two candidates on the chain, and `enact` lets them pass if they are admissible.
-/

namespace Webthree

namespace BlockChain

variable {P : ChainParams} {T : BlockTree P} {c c' : BlockChain}

/-! ## Parents and children -/

theorem ask_details (c : BlockChain) (h : H256) : ask NullBlockDetails (details h) c = c.detailsOf h := by
  obtain ⟨d, c', hok, rfl, -⟩ := (details_runs (E := fun _ _ => False) c h).exists_ok
  rw [ask, hok]

theorem ask_isKnown (hc : Sound T c) (h : H256) :
    ask false (isKnown P h true) c = true ↔ Stored P c h ∧ (h = P.genesisHash ∨ T.height h ≤ c.m_lastBlockNumber) := by
  obtain ⟨k, c', hok, -, hk⟩ := (isKnown_runs (E := fun _ _ => False) hc h true).exists_ok
  rw [ask, hok, hk]
  simp

/-- The details are in the memo or in the database. -/
def Recorded (c : BlockChain) (h : H256) (d : BlockDetails) : Prop := c.m_details h = some d ∨ c.m_extrasDB.details h = some d

/-- What is recorded besides the numbers: the genesis block has no parent, and children are stored blocks with this parent. -/
structure Linked (T : BlockTree P) (c : BlockChain) : Prop where
  genesis : ∀ d, Recorded c P.genesisHash d → d.parent = nullHash
  children : ∀ h d, Recorded c h d → ∀ x ∈ d.children, Stored P c x ∧ x ≠ P.genesisHash ∧ T.parent x = h

theorem Sound.recorded (hc : Sound T c) {h : H256} (hs : Stored P c h) : Recorded c h (c.detailsOf h) := by
  rw [BlockChain.detailsOf]
  cases hm : c.m_details h with
  | some d => exact Or.inl hm
  | none =>
    obtain ⟨d, hd⟩ := hc.details h hs
    rw [hd]
    exact Or.inr hd

theorem Sound.stored_of_recorded (hc : Sound T c) {h : H256} {d : BlockDetails} (hd : Recorded c h d) : Stored P c h := by
  rcases hd with hd | hd
  · exact (hc.memo_fits h d hd).1
  · exact (hc.fits h d hd).1

theorem Imported.recorded {b : VerifiedBlockRef} (h : Imported T c b c') {x : H256} {d : BlockDetails} (hd : Recorded c' x d) :
    (x = P.hash b.info ∧ d = ownDetails T b) ∨ (x = b.info.parentHash ∧ d = parentDetails P c b) ∨ Recorded c x d := by
  rcases hd with hd | hd
  · by_cases hx : x = b.info.parentHash
    · rw [hx, h.memo_parent] at hd
      exact Or.inr (Or.inl ⟨hx, (Option.some.inj hd).symm⟩)
    · exact Or.inr (Or.inr (h.memo x hx d hd))
  · rw [h.details] at hd
    by_cases hx : x = P.hash b.info
    · rw [hx, Function.update_self] at hd
      exact Or.inl ⟨hx, (Option.some.inj hd).symm⟩
    · rw [Function.update_of_ne hx] at hd
      by_cases hxp : x = b.info.parentHash
      · rw [hxp, Function.update_self] at hd
        exact Or.inr (Or.inl ⟨hxp, (Option.some.inj hd).symm⟩)
      · rw [Function.update_of_ne hxp] at hd
        exact Or.inr (Or.inr (Or.inr hd))

theorem Linked.imported (hl : Linked T c) (hc : Sound T c) {b : VerifiedBlockRef} (hb : T.Has b) {o : Attempt} {mustBeNew : Bool}
    (hacc : Accepted T c b o mustBeNew) (h : Imported T c b c') : Linked T c' := by
  have hstored := h.stored
  have hold := hc.recorded hacc.parent
  refine ⟨fun d hd => ?_, fun x d hd y hy => ?_⟩
  · rcases h.recorded hd with ⟨hx, -⟩ | ⟨hx, rfl⟩ | hd
    · exact absurd hx.symm hacc.ne_genesis
    · rw [← hx] at hold
      rw [parentDetails, ← hx]
      exact hl.genesis (c.detailsOf P.genesisHash) hold
    · exact hl.genesis d hd
  · rw [hstored]
    rcases h.recorded hd with ⟨-, rfl⟩ | ⟨rfl, rfl⟩ | hd
    · exact absurd hy List.not_mem_nil
    · rcases List.mem_append.mp hy with hy | hy
      · obtain ⟨hys, hyg, hyp⟩ := hl.children _ _ hold y hy
        exact ⟨Or.inr hys, hyg, hyp⟩
      · rw [List.mem_singleton.mp hy]
        exact ⟨Or.inl rfl, hacc.ne_genesis, by rw [BlockTree.parent, hb.1]⟩
    · obtain ⟨hys, hyg, hyp⟩ := hl.children x d hd y hy
      exact ⟨Or.inr hys, hyg, hyp⟩

theorem linked_of_reach {allowed : BlockChain → ChainOp → Prop} (hallowed : ∀ c op, allowed c op → op.Allowed T)
    (h : Reach (ChainOp.next P) allowed (new P) c) : Sound T c ∧ Linked T c := by
  refine h.invariant (P := fun c => Sound T c ∧ Linked T c) ⟨sound_new, ?_⟩ ?_
  · have hnew : ∀ h d, Recorded (new P) h d → d = genesisDetails P := by
      intro h d hd
      have hd' : Function.update (fun _ => none) P.genesisHash (some (genesisDetails P)) h = some d := hd.elim id id
      by_cases hg : h = P.genesisHash
      · rw [hg, Function.update_self] at hd'
        exact (Option.some.inj hd').symm
      · rw [Function.update_of_ne hg] at hd'
        cases hd'
    refine ⟨fun d hd => ?_, fun h d hd x hx => ?_⟩
    · rw [hnew _ d hd]
      rfl
    · rw [hnew h d hd] at hx
      exact absurd hx List.not_mem_nil
  · intro c op hcl hop
    obtain ⟨hc, hl⟩ := hcl
    refine ⟨ChainOp.next_sound hc (hallowed c op hop), ?_⟩
    rcases ChainOp.next_cases hc (hallowed c op hop) with ⟨b, o, mustBeNew, r, -, -, hb, hacc, himp, -⟩ | ⟨hq, -⟩
    · exact hl.imported hc hb hacc himp
    · have hrec : ∀ h d, Recorded (ChainOp.next P c op) h d → Recorded c h d := by
        intro h d hd
        rcases hd with hd | hd
        · exact hq.details h d hd
        · rw [hq.extrasDB] at hd
          exact Or.inr hd
      refine ⟨fun d hd => hl.genesis d (hrec _ d hd), fun h d hd x hx => ?_⟩
      rw [Stored, hq.blocksDB]
      exact hl.children h d (hrec h d hd) x hx

/-- If no block has been imported twice, there are no duplicates among children. -/
theorem Tidy.nodup_childrenOf (ht : Tidy T c) (h : H256) : (c.childrenOf h).Nodup := by
  rw [BlockChain.childrenOf, ask_details, ht.detailsOf]
  cases hd : c.m_extrasDB.details h with
  | none => exact List.nodup_nil
  | some d => exact ht.nodup h d hd

/-! ## Ancestors -/

theorem Sound.parentOf (hc : Sound T c) {h : H256} (hs : Stored P c h) (hg : h ≠ P.genesisHash) : c.parentOf h = T.parent h := by
  rw [BlockChain.parentOf, ask_details]
  exact (hc.detailsOf hs).parent hg

theorem Linked.parentOf_genesis (hl : Linked T c) (hc : Sound T c) : c.parentOf P.genesisHash = nullHash := by
  rw [BlockChain.parentOf, ask_details]
  exact hl.genesis _ (hc.recorded (Or.inl rfl))

theorem Sound.parentOf_null (hc : Sound T c) : c.parentOf nullHash = nullHash := by
  have hnot : ∀ d, ¬Recorded c nullHash d := fun d hd => hc.ne_null (hc.stored_of_recorded hd) rfl
  have hm : c.m_details nullHash = none := Option.eq_none_iff_forall_ne_some.mpr fun d hd => hnot d (Or.inl hd)
  have hdb : c.m_extrasDB.details nullHash = none := Option.eq_none_iff_forall_ne_some.mpr fun d hd => hnot d (Or.inr hd)
  rw [BlockChain.parentOf, ask_details, BlockChain.detailsOf, hm, hdb]
  rfl

/-- Going up from a stored block ends in the null hash behind the genesis block. -/
theorem Linked.iterate_parentOf (hl : Linked T c) (hc : Sound T c) {h : H256} (hs : Stored P c h) (k : Nat) :
    c.parentOf^[k] h = if k ≤ T.height h then T.parent^[k] h else nullHash := by
  induction k with
  | zero => rfl
  | succ k ih =>
    rw [Function.iterate_succ_apply', ih]
    by_cases hk : k ≤ T.height h
    · obtain ⟨hmem, hnum⟩ := hc.rooted.iterate hs hk
      rw [if_pos hk]
      by_cases hk' : k + 1 ≤ T.height h
      · have hne : T.parent^[k] h ≠ P.genesisHash := by
          intro hg
          rw [hg, T.height_genesis] at hnum
          omega
        rw [if_pos hk', hc.parentOf hmem hne, Function.iterate_succ_apply']
      · have heq : T.parent^[k] h = P.genesisHash := hc.rooted.eq_root hmem (by omega)
        rw [if_neg hk', heq, hl.parentOf_genesis hc]
    · rw [if_neg hk, if_neg (by omega), hc.parentOf_null]

theorem Sound.unclesOf (hc : Sound T c) {h : H256} (hs : Stored P c h) : BlockChain.unclesOf P c h = (T.block h).uncles := by
  rw [BlockChain.unclesOf, hc.block_eq hs]
  rfl

theorem Sound.info (hc : Sound T c) {h : H256} (hs : Stored P c h) : BlockChain.info P c h = .ok (T.block h).info := by
  rw [BlockChain.info, hc.block_eq hs]
  rfl

/-- The header of a stored block has its hash. -/
theorem Sound.hash_info (hc : Sound T c) {h : H256} (hs : Stored P c h) : P.hash (T.block h).info = h := by
  rcases hs with rfl | hs
  · rw [T.block_genesis]
    rfl
  · obtain ⟨b, hb⟩ := Option.isSome_iff_exists.mp hs
    rw [← (hc.block h b hb).1]
    exact (hc.block h b hb).2.1

/-- A stored block passes the checks against its parent again. -/
theorem Sound.verify_stored (hc : Sound T c) {x : H256} (hx : Stored P c x) (hxg : x ≠ P.genesisHash)
    (hps : Stored P c (T.parent x)) : (T.block x).info.verify P (T.block (T.parent x)).info = .ok () := by
  have hbound := hc.numbers x hx
  rw [BlockTree.number] at hbound
  rw [BlockHeader.verify, if_neg (by omega)]
  by_cases hinv : (T.block (T.parent x)).info.timestamp = Invalid256
  · rw [if_pos hinv]
    rfl
  · obtain ⟨hsucc, htime⟩ := hc.checked x hx hxg hinv
    have hsucc : (T.block x).info.number = (T.block (T.parent x)).info.number + 1 := by
      rw [← BitVec.toNat_inj, hc.toNat_succ hps, ← hsucc]
      rfl
    rw [if_neg hinv, if_neg, if_neg (BitVec.not_le.mpr htime), if_neg (not_not_intro hsucc)]
    · rfl
    · rw [hc.hash_info hps]
      simp [BlockTree.parent]

/-- The kin of a block: its next ancestors, and the uncles of the block and of all of them but the last. -/
theorem Sound.mem_kinLoop (hc : Sound T c) {p x : H256} (hs : Stored P c p) (g : Nat) :
    x ∈ kinLoop P c g p ↔ ∃ i < g, i < T.height p ∧
      (x = T.parent^[i + 1] p ∨ ∃ u ∈ (T.block (T.parent^[i] p)).uncles, P.hash u = x) := by
  induction g generalizing p with
  | zero => simp [kinLoop]
  | succ g ih =>
    rw [kinLoop]
    by_cases hg : p = P.genesisHash
    · rw [if_pos hg, hg, T.height_genesis]
      simp
    · have hnum := hc.rooted.height_parent p hs hg
      rw [if_neg hg, hc.parentOf hs hg, hc.unclesOf hs, List.mem_cons, List.mem_append, List.mem_map, ih (hc.rooted.parent_mem p hs hg)]
      refine ⟨fun h => ?_, fun h => ?_⟩
      · rcases h with rfl | h | ⟨i, hi, hin, h⟩
        · exact ⟨0, by omega, by omega, Or.inl rfl⟩
        · exact ⟨0, by omega, by omega, Or.inr h⟩
        · exact ⟨i + 1, by omega, by omega, h⟩
      · obtain ⟨i, hi, hin, h⟩ := h
        cases i with
        | zero => exact h.elim Or.inl fun h => Or.inr (Or.inl h)
        | succ i => exact Or.inr (Or.inr ⟨i, by omega, by omega, h⟩)

end BlockChain

namespace Block

open BlockChain

variable {P : ChainParams} {T : BlockTree P} {c : BlockChain}

/-! ## Checking -/

/-- What is asked of an uncle besides that it is new. -/
def Passes (P : ChainParams) (c : BlockChain) (current uncle : BlockHeader) : Prop :=
  ask false (isKnown P uncle.parentHash true) c = true ∧ ∃ parent depth, BlockChain.info P c uncle.parentHash = .ok parent ∧
    uncleDepth current uncle = .ok depth ∧ c.parentOf^[depth - 1] (c.parentOf current.parentHash) = P.hash parent ∧
    uncle.verify P parent = .ok ()

theorem checkUncle_iff (current : BlockHeader) (excluded : List H256) (uncle : BlockHeader) :
    checkUncle P c current excluded uncle = .ok () ↔ P.hash uncle ∉ excluded ∧ Passes P c current uncle := by
  rw [checkUncle, Passes]
  by_cases hex : P.hash uncle ∈ excluded
  · rw [if_pos hex]
    refine ⟨fun h => ?_, fun h => absurd hex h.1⟩
    cases h
  rw [if_neg hex]
  cases hk : ask false (isKnown P uncle.parentHash true) c with
  | false =>
    refine ⟨fun h => ?_, fun h => ?_⟩
    · cases h
    · cases h.2.1
  | true =>
    rw [Bool.not_true, if_neg Bool.false_ne_true]
    refine ⟨fun h => ⟨hex, rfl, ?_⟩, fun h => ?_⟩
    · obtain ⟨parent, hparent, h⟩ := bind_eq_ok.mp h
      obtain ⟨depth, hdepth, h⟩ := bind_eq_ok.mp h
      refine ⟨parent, depth, hparent, hdepth, ?_⟩
      by_cases hexp : c.parentOf^[depth - 1] (c.parentOf current.parentHash) = P.hash parent
      · rw [if_neg (not_not_intro hexp)] at h
        exact ⟨hexp, h⟩
      · rw [if_pos hexp] at h
        cases h
    · obtain ⟨-, -, parent, depth, hparent, hdepth, hexp, hver⟩ := h
      refine bind_eq_ok.mpr ⟨parent, hparent, bind_eq_ok.mpr ⟨depth, hdepth, ?_⟩⟩
      rw [if_neg (not_not_intro hexp)]
      exact hver

/-- All uncles pass if they are different and each passes by itself. -/
theorem checkUncles_iff (current : BlockHeader) (ii : Nat) (excluded : List H256) (uncles : List BlockHeader) :
    checkUncles P c current ii excluded uncles = .ok () ↔
      (uncles.map P.hash).Nodup ∧ ∀ u ∈ uncles, P.hash u ∉ excluded ∧ Passes P c current u := by
  induction uncles generalizing ii excluded with
  | nil => simp [checkUncles, pure_eq_ok]
  | cons u uncles ih =>
    rw [checkUncles, bind_eq_ok]
    have htry : ∀ r, tryCatch (checkUncle P c current excluded u) (fun e => throw (.uncleIndex ii e)) = .ok r ↔
        checkUncle P c current excluded u = .ok () := by
      intro r
      cases checkUncle P c current excluded u with
      | ok r' => exact ⟨fun _ => rfl, fun _ => rfl⟩
      | error e =>
        refine ⟨fun h => ?_, fun h => ?_⟩
        · cases h
        · cases h
    simp only [htry, checkUncle_iff, ih, List.map_cons, List.nodup_cons, List.mem_map, List.mem_cons, not_or, exists_const]
    constructor
    · intro h
      obtain ⟨hu, hnd, hall⟩ := h
      refine ⟨⟨fun hmem => ?_, hnd⟩, fun v hv => ?_⟩
      · obtain ⟨v, hv, heq⟩ := hmem
        exact (hall v hv).1.1 heq
      · rcases hv with rfl | hv
        · exact hu
        · exact ⟨(hall v hv).1.2, (hall v hv).2⟩
    · intro h
      obtain ⟨⟨hnew, hnd⟩, hall⟩ := h
      refine ⟨hall u (Or.inl rfl), hnd, fun v hv => ?_⟩
      obtain ⟨hex, hpass⟩ := hall v (Or.inr hv)
      exact ⟨⟨fun heq => hnew ⟨v, hv, heq⟩, hex⟩, hpass⟩

theorem uncleDepth_iff {current uncle : BlockHeader} {d : Nat} :
    uncleDepth current uncle = .ok d ↔ 1 ≤ d ∧ d ≤ 6 ∧ current.number.toNat = uncle.number.toNat + d := by
  unfold uncleDepth
  by_cases hold : (current.number.toNat : Int) - uncle.number.toNat > 6
  · rw [if_pos hold]
    refine ⟨fun h => ?_, fun h => ?_⟩
    · cases h
    · omega
  rw [if_neg hold]
  by_cases hbro : (current.number.toNat : Int) - uncle.number.toNat < 1
  · rw [if_pos hbro]
    refine ⟨fun h => ?_, fun h => ?_⟩
    · cases h
    · omega
  rw [if_neg hbro, pure_eq_ok, Except.ok.injEq]
  omega

/-- The parent of an uncle that passes is an ancestor. -/
theorem Passes.parent_eq (hc : Sound T c) (hl : Linked T c) {current uncle : BlockHeader} (hs : BlockChain.Stored P c current.parentHash)
    (h : Passes P c current uncle) : ∃ d, 1 ≤ d ∧ d ≤ 6 ∧ d ≤ T.height current.parentHash ∧
      current.number.toNat = uncle.number.toNat + d ∧ uncle.parentHash = T.parent^[d] current.parentHash := by
  obtain ⟨hk, parent, d, hparent, hdepth, hexp, -⟩ := h
  obtain ⟨h1, h6, hnumber⟩ := uncleDepth_iff.mp hdepth
  have hsp := ((ask_isKnown hc _).mp hk).1
  rw [hc.info hsp] at hparent
  cases hparent
  rw [hc.hash_info hsp, ← Function.iterate_succ_apply, hl.iterate_parentOf hc hs] at hexp
  have hsucc : (d - 1).succ = d := by omega
  rw [hsucc] at hexp
  by_cases hd : d ≤ T.height current.parentHash
  · rw [if_pos hd] at hexp
    exact ⟨d, h1, h6, hd, hnumber, hexp.symm⟩
  · rw [if_neg hd] at hexp
    exact absurd hexp.symm (hc.ne_null hsp)

/-! ## Choosing -/

/-- Of the children that are not excluded the first are taken, until there are two uncles. -/
theorem chooseChildren_eq (hc : Sound T c) (excluded us : List H256) (hus : ∀ u ∈ us, BlockChain.Stored P c u) {chosen : List BlockHeader}
    (hlen : chosen.length < 2) : chooseChildren P c excluded us chosen =
      .ok (chosen ++ ((us.filter (· ∉ excluded)).take (2 - chosen.length)).map fun x => (T.block x).info) := by
  induction us generalizing chosen with
  | nil => simp [chooseChildren, pure_eq_ok]
  | cons u us ih =>
    have hrest := fun x hx => hus x (List.mem_cons_of_mem u hx)
    rw [chooseChildren]
    by_cases hu : u ∈ excluded
    · rw [if_pos hu, ih hrest hlen, List.filter_cons_of_neg (by simpa using hu)]
    · rw [if_neg hu, hc.info (hus u List.mem_cons_self), ok_bind, List.filter_cons_of_pos (by simpa using hu)]
      dsimp only
      generalize hmore : chosen ++ [(T.block u).info] = more
      have hlength : more.length = chosen.length + 1 := by rw [← hmore, List.length_append, List.length_singleton]
      have hstep : 2 - chosen.length = 2 - more.length + 1 := by omega
      rw [hstep, List.take_succ_cons, List.map_cons, List.append_cons, hmore]
      by_cases htwo : more.length = 2
      · rw [if_pos htwo, htwo, Nat.sub_self, List.take_zero, List.map_nil, List.append_nil]
        rfl
      · rw [if_neg htwo]
        exact ih hrest (by omega)

/-- The children of a block and of its next ancestors, so far as they are not excluded. The genesis block and what is above it is left
out. -/
def candidates (P : ChainParams) (c : BlockChain) (excluded : List H256) : (gens : Nat) → (p : H256) → List H256
  | 0, _ => []
  | gens + 1, p =>
    if p = P.genesisHash then []
    else (c.childrenOf p).filter (· ∉ excluded) ++ candidates P c excluded gens (c.parentOf p)

/-- The child of a block that is recorded is stored under it. -/
theorem Linked.child (hc : Sound T c) (hl : Linked T c) {p x : H256} (hs : BlockChain.Stored P c p) (hx : x ∈ c.childrenOf p) :
    BlockChain.Stored P c x ∧ x ≠ P.genesisHash ∧ T.parent x = p := by
  rw [BlockChain.childrenOf, ask_details] at hx
  exact hl.children p _ (hc.recorded hs) x hx

/-- A candidate is a stored block that is not excluded, and its parent is the block or one of its next ancestors. -/
theorem of_mem_candidates (hc : Sound T c) (hl : Linked T c) {excluded : List H256} {gens : Nat} {p x : H256}
    (hs : BlockChain.Stored P c p) (hx : x ∈ candidates P c excluded gens p) :
    (BlockChain.Stored P c x ∧ x ≠ P.genesisHash ∧ x ∉ excluded) ∧ ∃ i < gens, i < T.height p ∧ T.parent x = T.parent^[i] p := by
  induction gens generalizing p with
  | zero => exact absurd hx List.not_mem_nil
  | succ gens ih =>
    rw [candidates] at hx
    by_cases hg : p = P.genesisHash
    · rw [if_pos hg] at hx
      exact absurd hx List.not_mem_nil
    · rw [if_neg hg, hc.parentOf hs hg] at hx
      have hheight := hc.rooted.height_parent p hs hg
      rcases List.mem_append.mp hx with hx | hx
      · obtain ⟨hmem, hex⟩ := List.mem_filter.mp hx
        obtain ⟨hxs, hxg, hxp⟩ := Linked.child hc hl hs hmem
        exact ⟨⟨hxs, hxg, of_decide_eq_true hex⟩, 0, by omega, by omega, hxp⟩
      · obtain ⟨hstored, i, hi, hin, hxp⟩ := ih (hc.rooted.parent_mem p hs hg) hx
        exact ⟨hstored, i + 1, by omega, by omega, hxp⟩

/-- If no block is twice among the children of its parent, none is twice among the candidates. -/
theorem nodup_candidates (hc : Sound T c) (hl : Linked T c) (hnodup : ∀ h, (c.childrenOf h).Nodup) (excluded : List H256) (gens : Nat)
    {p : H256} (hs : BlockChain.Stored P c p) : (candidates P c excluded gens p).Nodup := by
  induction gens generalizing p with
  | zero => exact List.nodup_nil
  | succ gens ih =>
    rw [candidates]
    by_cases hg : p = P.genesisHash
    · rw [if_pos hg]
      exact List.nodup_nil
    · have hparent := hc.rooted.parent_mem p hs hg
      have hheight := hc.rooted.height_parent p hs hg
      rw [if_neg hg, hc.parentOf hs hg]
      refine List.nodup_append.mpr ⟨(hnodup p).filter _, ih hparent, fun x hx y hy heq => ?_⟩
      -- the parents of the later ones are above `p`
      obtain ⟨-, -, hxp⟩ := Linked.child hc hl hs (List.mem_filter.mp hx).1
      obtain ⟨-, i, -, hin, hyp⟩ := of_mem_candidates hc hl hparent hy
      obtain ⟨-, hnum⟩ := hc.rooted.iterate hparent (Nat.le_of_lt hin)
      rw [← hyp, ← heq, hxp] at hnum
      omega

/-- The loop chooses the first candidates, until there are two uncles. -/
theorem chooseUncles_eq (hc : Sound T c) (hl : Linked T c) (excluded : List H256) (gens : Nat) {p : H256}
    (hs : BlockChain.Stored P c p) {chosen : List BlockHeader} (hlen : chosen.length ≤ 2) : chooseUncles P c excluded gens p chosen =
      .ok (chosen ++ ((candidates P c excluded gens p).take (2 - chosen.length)).map fun x => (T.block x).info) := by
  induction gens generalizing p chosen with
  | zero =>
    rw [candidates, List.take_nil, List.map_nil, List.append_nil]
    rfl
  | succ gens ih =>
    rw [chooseUncles, candidates]
    by_cases hg : p = P.genesisHash
    · rw [if_pos (by simp [hg]), if_pos hg, List.take_nil, List.map_nil, List.append_nil]
      rfl
    by_cases htwo : chosen.length ≥ 2
    · rw [if_pos (by simp [htwo]), Nat.sub_eq_zero_of_le htwo, List.take_zero, List.map_nil, List.append_nil]
      rfl
    rw [if_neg (by simp [hg, htwo]), if_neg hg, chooseChildren_eq hc excluded _ (fun x hx => (Linked.child hc hl hs hx).1) (by omega),
      ok_bind, hc.parentOf hs hg]
    generalize hnew : ((c.childrenOf p).filter (· ∉ excluded)).take (2 - chosen.length) = new
    have hlenNew : new.length = min (2 - chosen.length) ((c.childrenOf p).filter (· ∉ excluded)).length := by
      rw [← hnew, List.length_take]
    have hrest : 2 - (chosen ++ new.map fun x => (T.block x).info).length =
        2 - chosen.length - ((c.childrenOf p).filter (· ∉ excluded)).length := by
      rw [List.length_append, List.length_map, hlenNew]
      omega
    rw [ih (hc.rooted.parent_mem p hs hg) (by rw [List.length_append, List.length_map, hlenNew]; omega), hrest, List.take_append, hnew,
      List.map_append, List.append_assoc]

/-- An uncle can be checked: `enact` takes its parent for a known one, and it is as far below the new block as the numbers of the two
say, where `h` is the parent of the new block. -/
structure Admissible (T : BlockTree P) (c : BlockChain) (h x : H256) : Prop where
  known : T.height (T.parent x) ≤ c.m_lastBlockNumber
  number : T.number x + T.height h = T.number h + T.height x

/-- A candidate passes the check exactly if it is admissible. -/
theorem passes_iff (hc : Sound T c) (hl : Linked T c) {current : BlockHeader} {h x : H256} {i : Nat} (hs : BlockChain.Stored P c h)
    (hcur : current.parentHash = h) (hnumber : current.number.toNat = T.number h + 1) (hx : BlockChain.Stored P c x)
    (hxg : x ≠ P.genesisHash) (hi : i < 6) (hin : i < T.height h) (hxp : T.parent x = T.parent^[i + 1] h) :
    Passes P c current (T.block x).info ↔ Admissible T c h x := by
  obtain ⟨hps, hpn⟩ := hc.rooted.iterate hs (i := i + 1) hin
  have hxn := hc.rooted.height_parent x hx hxg
  rw [hxp, hpn] at hxn
  have hparent : (T.block x).info.parentHash = T.parent x := rfl
  have hxnumber : T.number x = (T.block x).info.number.toNat := rfl
  constructor
  · intro hpass
    obtain ⟨d, h1, h6, hd, hdepth, heq⟩ := hpass.parent_eq hc hl (hcur ▸ hs)
    rw [hcur, hparent, hxp] at heq
    rw [hcur] at hd
    -- the uncle has one parent, and that is at one height
    have hdn := (hc.rooted.iterate hs hd).2
    rw [← heq, hpn] at hdn
    refine ⟨?_, by omega⟩
    have hk := (ask_isKnown hc _).mp hpass.1
    rw [hparent] at hk
    rcases hk.2 with hg | hle
    · rw [hg, T.height_genesis]
      exact Nat.zero_le _
    · exact hle
  · intro hadm
    have hk := hadm.known
    have hn := hadm.number
    rw [← hxp] at hps
    refine ⟨?_, (T.block (T.parent x)).info, i + 1, hc.info hps, ?_, ?_, ?_⟩
    · exact (ask_isKnown hc _).mpr ⟨hps, Or.inr hk⟩
    · exact uncleDepth_iff.mpr ⟨by omega, by omega, by omega⟩
    · rw [hc.hash_info hps, Nat.add_sub_cancel, ← Function.iterate_succ_apply, hcur, hl.iterate_parentOf hc hs,
        if_pos (Nat.succ_le_of_lt hin), hxp]
    · exact hc.verify_stored hx hxg hps

/-- The first two candidates for a block on `h`, unless this block says that it is the first. -/
def firstCandidates (T : BlockTree P) (c : BlockChain) (h : H256) : List H256 :=
  if T.number h = 0 then [] else (candidates P c (c.allKinFrom P h 6) 6 (T.parent h)).take 2

theorem firstCandidates_sublist (h : H256) :
    (firstCandidates T c h).Sublist (candidates P c (c.allKinFrom P h 6) 6 (T.parent h)) := by
  rw [firstCandidates]
  split
  · exact List.nil_sublist _
  · exact List.take_sublist _ _

/-- Only a block on the genesis block, or one that says so, has no candidates for that. -/
theorem of_mem_firstCandidates (hc : Sound T c) (hl : Linked T c) {h x : H256} (hs : BlockChain.Stored P c h)
    (hx : x ∈ firstCandidates T c h) : (BlockChain.Stored P c x ∧ x ≠ P.genesisHash ∧ x ∉ c.allKinFrom P h 6) ∧
      ∃ i < 6, i < T.height h ∧ T.parent x = T.parent^[i + 1] h := by
  have hg : h ≠ P.genesisHash := by
    rintro rfl
    rw [firstCandidates, if_pos T.number_genesis] at hx
    exact absurd hx List.not_mem_nil
  have hheight := hc.rooted.height_parent h hs hg
  obtain ⟨hstored, i, hi, hin, hxp⟩ :=
    of_mem_candidates hc hl (hc.rooted.parent_mem h hs hg) ((firstCandidates_sublist h).subset hx)
  exact ⟨hstored, i, hi, by omega, hxp⟩

/-- The uncles that are chosen for a block on `h` are the first two candidates. -/
theorem chosen_eq {σ : Type} (hc : Sound T c) (hl : Linked T c) {b : Block σ} {h : H256} (hs : BlockChain.Stored P c h)
    (hprev : b.m_previousBlock = (T.block h).info) (hcur : b.m_currentBlock.parentHash = h) :
    chosen P c b = .ok ((firstCandidates T c h).map fun x => (T.block x).info) := by
  have hzero : (T.block h).info.number = 0 ↔ T.number h = 0 := by
    rw [BlockTree.number, ← BitVec.toNat_inj]
    rfl
  rw [chosen, hprev, hcur, firstCandidates]
  by_cases hn : T.number h = 0
  · rw [if_neg (not_not_intro (hzero.mpr hn)), if_pos hn]
    rfl
  · have hg : h ≠ P.genesisHash := by
      rintro rfl
      exact hn T.number_genesis
    rw [if_pos (fun h => hn (hzero.mp h)), if_neg hn]
    exact chooseUncles_eq hc hl _ 6 (hc.rooted.parent_mem h hs hg) (Nat.zero_le 2)

/-- The chosen uncles pass the check of a header on `h` that is none of them exactly if all are admissible. -/
theorem checkUncles_chosen_iff (hc : Sound T c) (hl : Linked T c) (hnodup : ∀ h, (c.childrenOf h).Nodup) {h : H256}
    (hs : BlockChain.Stored P c h) {current : BlockHeader} (hcur : current.parentHash = h)
    (hnumber : current.number.toNat = T.number h + 1) (hown : T.parent (P.hash current) = h) :
    checkUncles P c current 0 (P.hash current :: c.allKinFrom P h 6) ((firstCandidates T c h).map fun x => (T.block x).info) = .ok () ↔
      ∀ x ∈ firstCandidates T c h, Admissible T c h x := by
  have hhash : ((firstCandidates T c h).map fun x => (T.block x).info).map P.hash = firstCandidates T c h := by
    rw [List.map_map]
    refine (List.map_congr_left fun x hx => ?_).trans (List.map_id _)
    exact hc.hash_info (of_mem_firstCandidates hc hl hs hx).1.1
  have hdistinct : (firstCandidates T c h).Nodup := by
    by_cases hg : h = P.genesisHash
    · rw [firstCandidates, if_pos (hg ▸ T.number_genesis)]
      exact List.nodup_nil
    · exact (nodup_candidates hc hl hnodup _ 6 (hc.rooted.parent_mem h hs hg)).sublist (firstCandidates_sublist h)
  rw [checkUncles_iff, hhash, List.forall_mem_map]
  refine ⟨fun hall x hx => ?_, fun hall => ⟨hdistinct, fun x hx => ?_⟩⟩
  · obtain ⟨⟨hxs, hxg, -⟩, i, hi, hin, hxp⟩ := of_mem_firstCandidates hc hl hs hx
    exact (passes_iff hc hl hs hcur hnumber hxs hxg hi hin hxp).mp (hall.2 x hx).2
  · obtain ⟨⟨hxs, hxg, hxe⟩, i, hi, hin, hxp⟩ := of_mem_firstCandidates hc hl hs hx
    refine ⟨fun hmem => ?_, (passes_iff hc hl hs hcur hnumber hxs hxg hi hin hxp).mpr (hall x hx)⟩
    rw [hc.hash_info hxs] at hmem
    rcases List.mem_cons.mp hmem with heq | hmem
    · -- the parent of the new block is not above itself
      have hpn := (hc.rooted.iterate hs (i := i + 1) hin).2
      rw [← hxp, heq, hown] at hpn
      omega
    · exact hxe hmem

end Block

end Webthree
