import Webthree.Lemmas.ChainBlooms

/-!
# Importing a block

What an import does to the chain, once and for all: if it throws, only memos have changed; if it returns, the block is stored
under its parent, and either the head has stayed or the block is the new head and the indices have followed.
-/

namespace Webthree

namespace BlockChain

variable {P : ChainParams} {T : BlockTree P} {E : ChainError → BlockChain → Prop}

/-! ## The checks -/

/-- A block is known if it is stored, and current if the number in its details is not above that of the head. -/
theorem isKnown_runs {c : BlockChain} (hc : Sound T c) (h : H256) (cur : Bool) :
    Runs (isKnown P h cur) c (fun k c' => DetailsOnly c c' ∧
      (k = true ↔ Stored P c h ∧ (h = P.genesisHash ∨ cur = false ∨ T.height h ≤ c.m_lastBlockNumber))) E := by
  rw [isKnown, runs_bind, runs_get]
  by_cases hg : h = P.genesisHash
  · rw [if_pos hg]
    exact ⟨DetailsOnly.refl c, fun _ => ⟨Or.inl hg, Or.inl hg⟩, fun _ => rfl⟩
  · rw [if_neg hg]
    cases hb : c.m_blocksDB h with
    | none =>
      rw [if_pos Option.isNone_none]
      refine ⟨DetailsOnly.refl c, fun h => absurd h Bool.false_ne_true, fun hs => ?_⟩
      have := hs.1.resolve_left hg
      rw [hb] at this
      cases this
    | some b =>
      have hs : Stored P c h := Or.inr (by rw [hb]; rfl)
      obtain ⟨d, hd⟩ := hc.details h hs
      rw [if_neg (by simp), if_neg (by simp [hd])]
      cases cur with
      | false =>
        rw [if_pos Bool.not_false]
        exact ⟨DetailsOnly.refl c, fun _ => ⟨hs, Or.inr (Or.inl rfl)⟩, fun _ => rfl⟩
      | true =>
        rw [if_neg (by simp), runs_bind]
        refine (details_runs c h).mono ?_ fun _ _ he => he
        intro d c' hd'
        obtain ⟨rfl, hr⟩ := hd'
        rw [runs_bind, runs_get, runs_pure, (hc.detailsOf hs).number, hr.recalled.lastNumber]
        simp [hr, hs, hg]

/-- Why an import throws. -/
def Reason (T : BlockTree P) (c : BlockChain) (b : VerifiedBlockRef) (o : Attempt) : ChainError → Prop
  | .AlreadyHaveBlock => Stored P c (P.hash b.info)
  | .UnknownParent => ¬Stored P c b.info.parentHash
  | .FutureTime => o.inFuture = true
  | .TransientError => o.enactment = .badRoot
  | .Exception => True
  | .exit => T.height b.info.parentHash = InvalidNumber
  | .assertionFailed => False
  | .noProgress => False

/-- What `verify` lets pass of a block on a parent: its number is that of the parent and one and its time is later, unless the parent
has no time. -/
def Follows (T : BlockTree P) (b : VerifiedBlockRef) : Prop :=
  (T.block b.info.parentHash).info.timestamp ≠ Invalid256 →
    T.number (P.hash b.info) = T.number b.info.parentHash + 1 ∧ (T.block b.info.parentHash).info.timestamp < b.info.timestamp

/-- What the checks let pass. -/
structure Accepted (T : BlockTree P) (c : BlockChain) (b : VerifiedBlockRef) (o : Attempt) (mustBeNew : Bool) : Prop where
  parent : Stored P c b.info.parentHash
  height : T.height (P.hash b.info) = T.height b.info.parentHash + 1
  bounded : T.height (P.hash b.info) < 2 ^ 32
  number : T.number (P.hash b.info) < 2 ^ 32
  follows : Follows T b
  new : mustBeNew = true → Stored P c (P.hash b.info) → c.m_lastBlockNumber < T.height (P.hash b.info)
  notFuture : o.inFuture = false
  verified : o.verified = true
  enactment : o.enactment = .accepted

/-- A block is not higher than its parent and one, and so it is not the genesis block. -/
theorem ne_genesis_of_height {b : VerifiedBlockRef} (h : T.height (P.hash b.info) = T.height b.info.parentHash + 1) :
    P.hash b.info ≠ P.genesisHash := by
  intro hg
  rw [hg, T.height_genesis] at h
  omega

theorem Accepted.ne_genesis {c : BlockChain} {b : VerifiedBlockRef} {o : Attempt} {mustBeNew : Bool} (h : Accepted T c b o mustBeNew) :
    P.hash b.info ≠ P.genesisHash := ne_genesis_of_height h.height

/-- A block with a stored parent is not the genesis block. -/
theorem Sound.ne_genesis {c : BlockChain} (hc : Sound T c) {b : VerifiedBlockRef} (hb : T.Has b) (hp : Stored P c b.info.parentHash) :
    P.hash b.info ≠ P.genesisHash := by
  intro hg
  have hblock := hb.1
  rw [hg, T.block_genesis] at hblock
  rw [← hblock] at hp
  exact hc.not_stored_parent hp

/-- In the header numbers are of 256 bits, but those of stored blocks are small. -/
theorem Sound.toNat_succ {c : BlockChain} (hc : Sound T c) {h : H256} (hs : Stored P c h) :
    ((T.block h).info.number + 1).toNat = T.number h + 1 := by
  have hbound := hc.numbers _ hs
  have hone : BitVec.toNat (1 : U256) = 1 := by decide
  rw [BlockTree.number] at hbound ⊢
  rw [BitVec.toNat_add, hone, Nat.mod_eq_of_lt (by omega)]

/-- The header of a block on a stored one counts up exactly if its number does. -/
theorem Sound.number_succ_iff {c : BlockChain} (hc : Sound T c) {b : VerifiedBlockRef} (hb : T.Has b) (hp : Stored P c b.info.parentHash) :
    b.info.number = (T.block b.info.parentHash).info.number + 1 ↔ T.number (P.hash b.info) = T.number b.info.parentHash + 1 := by
  rw [← BitVec.toNat_inj, hc.toNat_succ hp, BlockTree.number, BlockTree.number, hb.1]

/-- The condition under which `checks` throws. -/
theorem Sound.verify_iff {c : BlockChain} (hc : Sound T c) {b : VerifiedBlockRef} (hb : T.Has b) (hp : Stored P c b.info.parentHash)
    (verified : Bool) :
    (decide (b.info.number.toNat > 2 ^ 32 - 1) || (decide ((T.block b.info.parentHash).info.timestamp ≠ Invalid256) &&
      (decide (b.info.timestamp ≤ (T.block b.info.parentHash).info.timestamp) ||
        decide (b.info.number ≠ (T.block b.info.parentHash).info.number + 1))) || !verified) = true ↔
      ¬(T.number (P.hash b.info) < 2 ^ 32 ∧ Follows T b ∧ verified = true) := by
  have hown : T.number (P.hash b.info) = b.info.number.toNat := by rw [BlockTree.number, hb.1]
  have hlarge : b.info.number.toNat > 2 ^ 32 - 1 ↔ ¬T.number (P.hash b.info) < 2 ^ 32 := by omega
  simp only [Bool.or_eq_true, Bool.and_eq_true, decide_eq_true_iff, Bool.not_eq_true', ← Bool.not_eq_true, hlarge, ne_eq,
    hc.number_succ_iff hb hp, Follows, ← BitVec.not_lt]
  tauto

theorem checks_runs {c : BlockChain} (hc : Sound T c) {b : VerifiedBlockRef} (hb : T.Has b) (o : Attempt) (mustBeNew : Bool) :
    Runs (checks P b o mustBeNew) c
      (fun pd c' => DetailsOnly c c' ∧ pd = c.detailsOf b.info.parentHash ∧ Accepted T c b o mustBeNew)
      fun e c' => DetailsOnly c c' ∧ Reason T c b o e ∧ ¬Accepted T c b o mustBeNew := by
  rw [checks, runs_bind]
  refine (isKnown_runs hc _ _).mono ?_ fun _ _ he => he
  intro k c₁ h₁
  obtain ⟨hr₁, hk⟩ := h₁
  rw [runs_ite]
  refine ⟨fun hthrow => ?_, fun hpass => ?_⟩
  · rw [Bool.and_eq_true] at hthrow
    obtain ⟨hstored, hknown⟩ := hk.mp hthrow.1
    refine ⟨hr₁, hstored, fun hacc => ?_⟩
    have hlt := hacc.new hthrow.2 hstored
    rcases hknown with hg | hcur | hle
    · exact hacc.ne_genesis hg
    · cases hcur
    · omega
  rw [runs_bind]
  refine (isKnown_runs (hr₁.sound hc) _ _).mono ?_ fun _ _ he => he
  intro k' c₂ h₂
  obtain ⟨hr₂, hk'⟩ := h₂
  rw [hr₁.stored] at hk'
  have hr₁₂ := hr₁.trans hr₂
  rw [runs_ite]
  refine ⟨fun hthrow => ?_, fun hparent => ?_⟩
  · have hnot : ¬Stored P c b.info.parentHash := fun hs => by
      rw [hk'.mpr ⟨hs, Or.inr (Or.inl rfl)⟩] at hthrow
      cases hthrow
    exact ⟨hr₁₂, hnot, fun hacc => hnot hacc.parent⟩
  have hs : Stored P c b.info.parentHash := (hk'.mp (by simpa using hparent)).1
  rw [runs_bind]
  refine (details_runs c₂ _).mono ?_ fun _ _ he => he
  intro pd c₃ h₃
  obtain ⟨rfl, hr₃⟩ := h₃
  have hr := hr₁₂.trans hr₃
  rw [hr₁₂.detailsOf, runs_ite]
  have hfits := hc.detailsOf hs
  refine ⟨fun hnull => ⟨hr, ?_⟩, fun hset => ?_⟩
  · rw [BlockDetails.isNull, decide_eq_true_iff, hfits.number] at hnull
    refine ⟨hnull, fun hacc => ?_⟩
    have hheight := hacc.height
    have hbounded := hacc.bounded
    rw [hheight, hnull, InvalidNumber] at hbounded
    omega
  rw [runs_ite]
  refine ⟨fun hfut => ⟨hr, hfut, fun hacc => Bool.eq_false_iff.mp hacc.notFuture hfut⟩, fun hfut => ?_⟩
  rw [runs_bind, runs_get, (hr.sound hc).block_eq (hr.stored ▸ hs)]
  dsimp only
  rw [runs_ite]
  refine ⟨fun hthrow => ⟨hr, trivial, fun hacc => ?_⟩, fun hverify => ?_⟩
  · exact (hc.verify_iff hb hs o.verified).mp hthrow ⟨hacc.number, hacc.follows, hacc.verified⟩
  rw [runs_bind]
  have heach : Runs (each (fun h => do let _ ← BlockChain.details h) o.consulted) c₃ (fun _ c' => DetailsOnly c c')
      fun e c' => DetailsOnly c c' ∧ Reason T c b o e ∧ ¬Accepted T c b o mustBeNew := by
    refine each_runs (I := fun c' => DetailsOnly c c') hr fun h _ c' hc' => ?_
    rw [runs_bind]
    exact (details_runs c' h).mono (fun _ _ hd => hc'.trans hd.2) fun _ _ he => he
  refine heach.mono ?_ fun _ _ he => he
  intro _ c₄ hr₄
  have hpass' := not_not.mp fun hnot => hverify ((hc.verify_iff hb hs o.verified).mpr hnot)
  obtain ⟨hnumber, hfollows, hverified⟩ := hpass'
  have hheight : T.height b.info.parentHash + 1 < 2 ^ 32 := by
    have hbounded := hc.bounded _ hs
    rw [BlockDetails.isNull, decide_eq_true_iff, hfits.number, InvalidNumber] at hset
    omega
  have hparent : T.parent (P.hash b.info) = b.info.parentHash := by rw [BlockTree.parent, hb.1]
  have hown : T.height (P.hash b.info) = T.height b.info.parentHash + 1 := by
    rw [← hparent] at hheight ⊢
    exact T.height_eq (hc.ne_genesis hb hs) hheight
  have hnew : mustBeNew = true → Stored P c (P.hash b.info) → c.m_lastBlockNumber < T.height (P.hash b.info) := by
    intro hmust hstored
    rw [hmust, Bool.and_true, hk] at hpass
    by_contra hle
    exact hpass ⟨hstored, Or.inr (Or.inr (Nat.le_of_not_lt hle))⟩
  cases henact : o.enactment with
  | accepted =>
    exact ⟨hr₄, rfl, hs, hown, hown ▸ hheight, hnumber, hfollows, hnew, Bool.eq_false_iff.mpr hfut, hverified, henact⟩
  | badRoot =>
    refine ⟨hr₄, henact, fun hacc => ?_⟩
    rw [hacc.enactment] at henact
    cases henact
  | rejected =>
    refine ⟨hr₄, trivial, fun hacc => ?_⟩
    rw [hacc.enactment] at henact
    cases henact

/-- The block is the new best one only if no stored one is better, and else it is not better than the head. -/
theorem isBest_runs {c : BlockChain} (hc : Sound T c) (b : VerifiedBlockRef) (td : Nat) :
    Runs (isBest P b td) c (fun k c' => DetailsOnly c c' ∧
      (k = true → T.totalDifficulty c.m_lastBlockHash < td ∨
        (P.tieBreakingGas = true ∧ T.totalDifficulty c.m_lastBlockHash = td ∧
          (T.block c.m_lastBlockHash).info.gasUsed < b.info.gasUsed)) ∧
      (k = false → td ≤ T.totalDifficulty c.m_lastBlockHash)) E := by
  rw [isBest, runs_bind, runs_get, runs_bind]
  refine (details_runs c _).mono ?_ fun _ _ he => he
  intro d c' hd
  obtain ⟨rfl, hr⟩ := hd
  have hblock : block P c' c.m_lastBlockHash = some (T.block c.m_lastBlockHash) := by
    refine (hr.sound hc).block_eq ?_
    rw [hr.stored]
    exact hc.head_stored
  rw [runs_bind, runs_get, runs_pure, (hc.detailsOf hc.head_stored).totalDifficulty, hblock]
  refine ⟨hr, fun hk => ?_, fun hk => ?_⟩
  · rw [Bool.or_eq_true, Bool.and_eq_true, Bool.and_eq_true, decide_eq_true_iff, decide_eq_true_iff, decide_eq_true_iff] at hk
    rcases hk with hk | ⟨⟨htie, hk⟩, hgas⟩
    · exact Or.inl hk
    · exact Or.inr ⟨htie, hk.symm, hgas⟩
  · rw [Bool.or_eq_false_iff, decide_eq_false_iff_not] at hk
    exact Nat.le_of_not_lt hk.1

/-! ## Batches -/

theorem write_append (e : Extras) (ps qs : List Put) : e.write (ps ++ qs) = (e.write ps).write qs := List.foldl_append

/-- What the transactions of a block are entered under. -/
structure Entered (P : ChainParams) (e e' : Extras) (h : H256) (ts : List Transaction) : Prop where
  others : e'.details = e.details ∧ e'.blockHash = e.blockHash ∧ e'.blocksBlooms = e.blocksBlooms
  address : ∀ t, (∃ i x, ts[i]? = some x ∧ P.sha3 x = t ∧ e'.transactionAddress t = some ⟨h, i⟩) ∨
    ((∀ x ∈ ts, P.sha3 x ≠ t) ∧ e'.transactionAddress t = e.transactionAddress t)

/-- If a transaction is in the block twice, the last of its positions is entered. -/
theorem entered_addressPuts (P : ChainParams) (e : Extras) (b : VerifiedBlockRef) :
    Entered P e (e.write (addressPuts P b)) (P.hash b.info) b.transactions := by
  rw [addressPuts]
  generalize b.transactions = ts
  induction ts using List.reverseRecOn with
  | nil => exact ⟨⟨rfl, rfl, rfl⟩, fun t => Or.inr ⟨fun x hx => absurd hx List.not_mem_nil, rfl⟩⟩
  | append_singleton ts x ih =>
    rw [List.mapIdx_concat, write_append]
    refine ⟨ih.others, fun t => ?_⟩
    by_cases ht : P.sha3 x = t
    · refine Or.inl ⟨ts.length, x, List.getElem?_concat_length, ht, ?_⟩
      rw [← ht]
      exact Function.update_self _ _ _
    · have hsame : ((e.write (ts.mapIdx fun i t => .transactionAddress (P.sha3 t) ⟨P.hash b.info, i⟩)).write
          [.transactionAddress (P.sha3 x) ⟨P.hash b.info, ts.length⟩]).transactionAddress t =
          (e.write (ts.mapIdx fun i t => .transactionAddress (P.sha3 t) ⟨P.hash b.info, i⟩)).transactionAddress t :=
        Function.update_of_ne (Ne.symm ht) _ _
      rw [hsame]
      rcases ih.address t with ⟨i, y, hi, hy, heq⟩ | ⟨hno, heq⟩
      · exact Or.inl ⟨i, y, List.getElem?_append_left (List.getElem?_eq_some_iff.mp hi).1 ▸ hi, hy, heq⟩
      · refine Or.inr ⟨fun y hy => ?_, heq⟩
        rcases List.mem_append.mp hy with hy | hy
        · exact hno y hy
        · rw [List.mem_singleton.mp hy]
          exact ht

/-! ## The blocks that become canonical -/

/-- The chunks that a block has a part in. -/
def chunksOf (n : Nat) : List Nat := (bloomPlaces n).map Prod.fst

/-- What one turn of the loop does. -/
structure Canonized (P : ChainParams) (c : BlockChain) (b : VerifiedBlockRef) (c' : BlockChain) (puts : List Put) : Prop where
  only : BloomsOnly c c'
  grows : ∀ id off bits, (c.bloomsOf id off).contains bits = true → (c'.bloomsOf id off).contains bits = true
  covers : Covers c' b.info.number.toNat (P.blockBloom b)
  others : ∀ id ∉ chunksOf b.info.number.toNat, c'.m_blocksBlooms id = c.m_blocksBlooms id
  memo : ∀ id ∈ chunksOf b.info.number.toNat, (c'.m_blocksBlooms id).isSome = true
  puts_eq : puts = addressPuts P b ++
    (bloomPlaces b.info.number.toNat).map (fun p => .blocksBlooms p.1 (c'.memoBlooms p.1)) ++
    [.blockHash b.info.number.toNat (P.hash b.info)]

theorem contains_setBloom {c : BlockChain} {id : Nat} (h : Warm c id) (off : Fin c_bloomIndexSize) (x : LogBloom) {id' : Nat}
    {off' : Fin c_bloomIndexSize} {bits : LogBloom} (hb : (c.bloomsOf id' off').contains bits = true) :
    ((setBloom id off (c.memoBlooms id off ||| x) c).bloomsOf id' off').contains bits = true := by
  rw [bloomsOf_setBloom h, h.memoBlooms]
  split
  · rename_i heq
    rw [heq.1, heq.2] at hb
    exact LogBloom.contains_or_left x hb
  · exact hb

theorem canonize_runs (P : ChainParams) (c : BlockChain) (b : VerifiedBlockRef) :
    Runs (canonize P b) c (fun puts c' => Canonized P c b c' puts) E := by
  have hplaces := bloomPlaces_eq b.info.number.toNat
  generalize hid₀ : chunkId 0 (b.info.number.toNat / 16) = id₀ at hplaces
  generalize hid₁ : chunkId 1 (b.info.number.toNat / 16 / 16) = id₁ at hplaces
  generalize bloomOffset b.info.number.toNat = o₀ at hplaces
  generalize bloomOffset (b.info.number.toNat / 16) = o₁ at hplaces
  rw [canonize, hplaces]
  simp only [each, runs_bind]
  refine (blocksBlooms_spec c id₀).mono ?_ fun _ _ he => he
  intro _ c₁ h₁
  obtain ⟨-, ho₁, heq₁, hw₁, -, hid₁'⟩ := h₁
  simp only [runs_pure]
  refine (blocksBlooms_spec c₁ id₁).mono ?_ fun _ _ he => he
  intro _ c₂ h₂
  obtain ⟨-, ho₂, heq₂, hw₂, hwarm, hid₂'⟩ := h₂
  have hw₀ := hwarm id₀ hw₁
  have heq : c₂.bloomsOf = c.bloomsOf := heq₂.trans heq₁
  simp only [runs_modify, runs_get]
  generalize hc₃ : setBloom id₀ o₀ (c₂.memoBlooms id₀ o₀ ||| P.blockBloom b) c₂ = c₃
  have hw₃ : Warm c₃ id₁ := by
    rw [← hc₃]
    exact hw₂.setBloom o₀ _
  have hgrow₃ : ∀ id off bits, (c.bloomsOf id off).contains bits = true → (c₃.bloomsOf id off).contains bits = true := by
    intro id off bits h
    rw [← hc₃]
    exact contains_setBloom hw₀ o₀ _ (heq ▸ h)
  have hcov₃ : (c₃.bloomsOf id₀ o₀).contains (P.blockBloom b) = true := by
    rw [← hc₃, bloomsOf_setBloom hw₀, if_pos ⟨rfl, rfl⟩]
    exact LogBloom.contains_or_right _ (LogBloom.contains_self _)
  have ho₃ : BloomsOnly c c₃ := by
    rw [← hc₃]
    exact (ho₁.trans ho₂).trans (setBloom_only _ _ _ _)
  have hmemo₃ : ∀ id, id ≠ id₀ → c₃.m_blocksBlooms id = c₂.m_blocksBlooms id := by
    intro id hid
    rw [← hc₃]
    exact Function.update_of_ne hid _ _
  have hsome₃ : (c₃.m_blocksBlooms id₀).isSome = true := by
    rw [← hc₃, setBloom]
    simp only [Function.update_self, Option.isSome_some]
  generalize hc₄ : setBloom id₁ o₁ (c₃.memoBlooms id₁ o₁ ||| P.blockBloom b) c₃ = c₄
  have hgrow₄ : ∀ id off bits, (c₃.bloomsOf id off).contains bits = true → (c₄.bloomsOf id off).contains bits = true := by
    intro id off bits h
    rw [← hc₄]
    exact contains_setBloom hw₃ o₁ _ h
  have hmemo₄ : ∀ id, id ≠ id₁ → c₄.m_blocksBlooms id = c₃.m_blocksBlooms id := by
    intro id hid
    rw [← hc₄]
    exact Function.update_of_ne hid _ _
  have hsome₄ : (c₄.m_blocksBlooms id₁).isSome = true := by
    rw [← hc₄, setBloom]
    simp only [Function.update_self, Option.isSome_some]
  refine ⟨?_, fun id off bits h => hgrow₄ _ _ _ (hgrow₃ _ _ _ h), ?_, ?_, ?_, ?_⟩
  · rw [← hc₄]
    exact ho₃.trans (setBloom_only _ _ _ _)
  · intro p hp
    rw [hplaces] at hp
    rcases List.mem_cons.mp hp with rfl | hp
    · exact hgrow₄ _ _ _ hcov₃
    · rw [List.mem_singleton.mp hp, ← hc₄, bloomsOf_setBloom hw₃, if_pos ⟨rfl, rfl⟩]
      exact LogBloom.contains_or_right _ (LogBloom.contains_self _)
  · intro id hid
    rw [chunksOf, hplaces, List.map_cons, List.map_cons, List.map_nil, List.mem_cons, List.mem_singleton, not_or] at hid
    rw [hmemo₄ id hid.2, hmemo₃ id hid.1, hid₂' id hid.2, hid₁' id hid.1]
  · intro id hid
    rw [chunksOf, hplaces, List.map_cons, List.map_cons, List.map_nil, List.mem_cons, List.mem_singleton] at hid
    by_cases h : id = id₁
    · rw [h]
      exact hsome₄
    · rw [hmemo₄ id h, hid.resolve_right h]
      exact hsome₃
  · rw [hplaces]

/-- The chunks that a batch has are those of the memo. -/
theorem write_blooms (f : Nat → BlocksBlooms) (ps : List (Nat × Fin c_bloomIndexSize)) (e : Extras) :
    e.write (ps.map fun p => .blocksBlooms p.1 (f p.1)) =
      { e with blocksBlooms := fun id => if id ∈ ps.map Prod.fst then some (f id) else e.blocksBlooms id } := by
  induction ps generalizing e with
  | nil => simp [Extras.write]
  | cons p ps ih =>
    rw [List.map_cons, Extras.write, List.foldl_cons, ← Extras.write, ih]
    simp only [Extras.put, Extras.mk.injEq, true_and]
    funext id
    rw [List.map_cons]
    by_cases hid : id ∈ ps.map Prod.fst
    · rw [if_pos hid, if_pos (List.mem_cons_of_mem _ hid)]
    · rw [if_neg hid]
      by_cases hp : id = p.1
      · rw [hp, Function.update_self, if_pos List.mem_cons_self]
      · rw [Function.update_of_ne hp, if_neg]
        intro hmem
        rcases List.mem_cons.mp hmem with h | h
        · exact hp h
        · exact hid h

/-- What one turn of the loop puts into the database. -/
theorem Canonized.write {c c' : BlockChain} {b : VerifiedBlockRef} {puts : List Put} (h : Canonized P c b c' puts) (e : Extras) :
    (e.write puts).details = e.details ∧
      (e.write puts).blockHash = Function.update e.blockHash b.info.number.toNat (some (P.hash b.info)) ∧
      (∀ id ∈ chunksOf b.info.number.toNat, (e.write puts).blocksBlooms id = c'.m_blocksBlooms id) ∧
      (∀ id ∉ chunksOf b.info.number.toNat, (e.write puts).blocksBlooms id = e.blocksBlooms id) ∧
      ∀ t, (∃ i x, b.transactions[i]? = some x ∧ P.sha3 x = t ∧ (e.write puts).transactionAddress t = some ⟨P.hash b.info, i⟩) ∨
        ((∀ x ∈ b.transactions, P.sha3 x ≠ t) ∧ (e.write puts).transactionAddress t = e.transactionAddress t) := by
  have hent := entered_addressPuts P e b
  rw [h.puts_eq, write_append, write_append, write_blooms]
  refine ⟨hent.others.1, ?_, ?_, ?_, hent.address⟩
  · rw [← hent.others.2.1]
    rfl
  · intro id hid
    obtain ⟨bb, hbb⟩ := Option.isSome_iff_exists.mp (h.memo id hid)
    refine (if_pos hid).trans ?_
    rw [memoBlooms, hbb, Option.getD_some]
  · intro id hid
    refine (if_neg hid).trans ?_
    rw [hent.others.2.2]

/-- What the loop over the blocks that become canonical does. -/
structure CanonizedAll (T : BlockTree P) (c : BlockChain) (hs : List H256) (c' : BlockChain) (puts : List Put) : Prop where
  only : BloomsOnly c c'
  grows : ∀ id off bits, (c.bloomsOf id off).contains bits = true → (c'.bloomsOf id off).contains bits = true
  covers : ∀ h ∈ hs, Covers c' (T.number h) (P.blockBloom (T.block h))
  others : ∀ id, (∀ h ∈ hs, id ∉ chunksOf (T.number h)) → c'.m_blocksBlooms id = c.m_blocksBlooms id
  memo : ∀ h ∈ hs, ∀ id ∈ chunksOf (T.number h), (c'.m_blocksBlooms id).isSome = true
  details : ∀ e : Extras, (e.write puts).details = e.details
  blooms : ∀ (e : Extras), ∀ h ∈ hs, ∀ id ∈ chunksOf (T.number h), (e.write puts).blocksBlooms id = c'.m_blocksBlooms id
  bloomsRest : ∀ (e : Extras) id, (∀ h ∈ hs, id ∉ chunksOf (T.number h)) → (e.write puts).blocksBlooms id = e.blocksBlooms id
  hashes : (hs.map T.number).Nodup → ∀ (e : Extras), ∀ h ∈ hs, (e.write puts).blockHash (T.number h) = some h
  hashesRest : ∀ (e : Extras) n, (∀ h ∈ hs, T.number h ≠ n) → (e.write puts).blockHash n = e.blockHash n
  addresses : ∀ (e : Extras) t,
    (∃ h ∈ hs, ∃ i x, (T.block h).transactions[i]? = some x ∧ P.sha3 x = t ∧ (e.write puts).transactionAddress t = some ⟨h, i⟩) ∨
      ((∀ h ∈ hs, ∀ x ∈ (T.block h).transactions, P.sha3 x ≠ t) ∧ (e.write puts).transactionAddress t = e.transactionAddress t)

theorem CanonizedAll.nil (c : BlockChain) : CanonizedAll T c [] c [] := by
  refine ⟨BloomsOnly.refl c, fun _ _ _ h => h, ?_, fun _ _ => rfl, ?_, fun _ => rfl, ?_, fun _ _ _ => rfl, ?_, fun _ _ _ => rfl, ?_⟩
  · exact fun _ h => absurd h List.not_mem_nil
  · exact fun _ h => absurd h List.not_mem_nil
  · exact fun _ _ h => absurd h List.not_mem_nil
  · exact fun _ _ _ h => absurd h List.not_mem_nil
  · exact fun _ _ => Or.inr ⟨fun _ h => absurd h List.not_mem_nil, rfl⟩

/-- One block more, and the blocks below it after that. -/
theorem Canonized.cons {c c₁ c' : BlockChain} {h : H256} {hs : List H256} {puts puts' : List Put}
    (hone : Canonized P c (T.block h) c₁ puts) (hrest : CanonizedAll T c₁ hs c' puts') (hhash : P.hash (T.block h).info = h) :
    CanonizedAll T c (h :: hs) c' (puts ++ puts') := by
  refine ⟨hone.only.trans hrest.only, fun id off bits hb => hrest.grows _ _ _ (hone.grows _ _ _ hb), ?_, ?_, ?_, ?_, ?_, ?_, ?_,
    ?_, ?_⟩
  · intro x hx
    rcases List.mem_cons.mp hx with rfl | hx
    · exact fun p hp => hrest.grows _ _ _ (hone.covers p hp)
    · exact hrest.covers x hx
  · intro id hid
    rw [hrest.others id fun x hx => hid x (List.mem_cons_of_mem _ hx), hone.others id (hid h List.mem_cons_self)]
  · intro x hx id hid
    by_cases hlater : ∃ y ∈ hs, id ∈ chunksOf (T.number y)
    · obtain ⟨y, hy, hidy⟩ := hlater
      exact hrest.memo y hy id hidy
    · have hno : ∀ y ∈ hs, id ∉ chunksOf (T.number y) := fun y hy hidy => hlater ⟨y, hy, hidy⟩
      rcases List.mem_cons.mp hx with rfl | hx
      · rw [hrest.others id hno]
        exact hone.memo id hid
      · exact absurd hid (hno x hx)
  · intro e
    rw [write_append, hrest.details, (hone.write e).1]
  · intro e x hx id hid
    rw [write_append]
    by_cases hlater : ∃ y ∈ hs, id ∈ chunksOf (T.number y)
    · obtain ⟨y, hy, hidy⟩ := hlater
      exact hrest.blooms _ y hy id hidy
    · -- the last block that has a part in the chunk is this one
      have hno : ∀ y ∈ hs, id ∉ chunksOf (T.number y) := fun y hy hidy => hlater ⟨y, hy, hidy⟩
      rcases List.mem_cons.mp hx with rfl | hx
      · rw [hrest.bloomsRest _ id hno, (hone.write e).2.2.1 id hid, hrest.others id hno]
      · exact absurd hid (hno x hx)
  · intro e id hid
    rw [write_append, hrest.bloomsRest _ id fun x hx => hid x (List.mem_cons_of_mem _ hx),
      (hone.write e).2.2.2.1 id (hid h List.mem_cons_self)]
  · intro hnodup e x hx
    rw [List.map_cons, List.nodup_cons] at hnodup
    rw [write_append]
    rcases List.mem_cons.mp hx with rfl | hx
    · rw [hrest.hashesRest, (hone.write e).2.1, hhash]
      · exact Function.update_self _ _ _
      · exact fun y hy heq => hnodup.1 (heq ▸ List.mem_map_of_mem hy)
    · exact hrest.hashes hnodup.2 _ x hx
  · intro e n hn
    rw [write_append, hrest.hashesRest _ n fun x hx => hn x (List.mem_cons_of_mem _ hx), (hone.write e).2.1]
    exact Function.update_of_ne (Ne.symm (hn h List.mem_cons_self)) _ _
  · intro e t
    rw [write_append]
    rcases hrest.addresses (e.write puts) t with ⟨x, hx, hin⟩ | ⟨hno, heq⟩
    · exact Or.inl ⟨x, List.mem_cons_of_mem _ hx, hin⟩
    · rw [heq]
      rcases (hone.write e).2.2.2.2 t with ⟨i, x, hi, hx, hin⟩ | ⟨hno', heq'⟩
      · exact Or.inl ⟨h, List.mem_cons_self, i, x, hi, hx, hhash ▸ hin⟩
      · refine Or.inr ⟨fun y hy => ?_, heq'⟩
        rcases List.mem_cons.mp hy with rfl | hy
        · exact hno'
        · exact hno y hy

theorem canonizeAll_runs {c : BlockChain} {b : VerifiedBlockRef} (hb : T.Has b) {hs : List H256}
    (hsound : ∀ h ∈ hs, h ≠ P.hash b.info → block P c h = some (T.block h) ∧ P.hash (T.block h).info = h) :
    Runs (canonizeAll P b hs) c (fun puts c' => CanonizedAll T c hs c' puts) E := by
  induction hs generalizing c with
  | nil => exact CanonizedAll.nil c
  | cons h hs ih =>
    have hblock : (if h = P.hash b.info then some b else block P c h) = some (T.block h) ∧ P.hash (T.block h).info = h := by
      by_cases hh : h = P.hash b.info
      · rw [if_pos hh, hh, hb.1]
        exact ⟨rfl, rfl⟩
      · rw [if_neg hh]
        exact hsound h List.mem_cons_self hh
    rw [canonizeAll, runs_bind, runs_get, hblock.1]
    dsimp only
    rw [runs_bind]
    refine (canonize_runs P c (T.block h)).mono ?_ fun _ _ he => he
    intro puts c₁ h₁
    rw [runs_bind]
    refine (ih (c := c₁) fun x hx hne => ?_).mono ?_ fun _ _ he => he
    · have := hsound x (List.mem_cons_of_mem _ hx) hne
      rw [block, h₁.only.blocksDB]
      exact this
    · exact fun puts' c' h' => h₁.cons h' hblock.2

/-! ## The new head -/

/-- The numbers of the old branch are erased. -/
theorem eraseHashes_apply {dead : List H256} {n : Nat} (hn : dead.length ≤ n) (m : Nat → Option H256) (k : Nat) :
    eraseHashes dead n m k = if n - dead.length < k ∧ k ≤ n then none else m k := by
  induction dead generalizing n m with
  | nil =>
    rw [eraseHashes, if_neg]
    simp
  | cons h dead ih =>
    rw [List.length_cons] at hn
    rw [eraseHashes, ih (by omega), List.length_cons]
    by_cases hk : k = n
    · rw [hk, Function.update_self, ite_self, if_pos (by omega)]
    · rw [Function.update_of_ne hk]
      exact if_congr (by omega) rfl rfl

/-- The indices of the old branch are taken out of the memos. -/
structure Reverted (T : BlockTree P) (c : BlockChain) (dead : List H256) (cm : H256) (c' : BlockChain) : Prop where
  blocksDB : c'.m_blocksDB = c.m_blocksDB
  extrasDB : c'.m_extrasDB = c.m_extrasDB
  lastHash : c'.m_lastBlockHash = c.m_lastBlockHash
  lastNumber : c'.m_lastBlockNumber = c.m_lastBlockNumber
  details : Filled c.m_extrasDB.details c.m_details c'.m_details
  hashes : c'.m_blockHashes = eraseHashes dead (T.height c.m_lastBlockHash) c.m_blockHashes
  addresses : dead = [] ∧ c'.m_transactionAddresses = c.m_transactionAddresses ∨ dead ≠ [] ∧ c'.m_transactionAddresses = fun _ => none
  blooms : ∀ n ≤ T.height cm, ∀ bits, Covers c n bits → Covers c' n bits

theorem Covers.congr {c c' : BlockChain} {n : Nat} {bits : LogBloom} (h : Covers c n bits) (heq : c'.bloomsOf = c.bloomsOf) :
    Covers c' n bits := by
  intro p hp
  rw [heq]
  exact h p hp

theorem DetailsOnly.bloomsOf {c c' : BlockChain} (h : DetailsOnly c c') : c'.bloomsOf = c.bloomsOf := funext h.recalled.bloomsOf

theorem revert_runs {c : BlockChain} (hc : Sound T c) {route : List H256} {cm : H256} (hcm : Stored P c cm)
    (hhead : route.headD nullHash = c.m_lastBlockHash) (hdead : route.takeWhile (· ≠ cm) ≠ []) :
    Runs (revert route cm c.m_lastBlockHash) c (fun _ c' => Reverted T c (route.takeWhile (· ≠ cm)) cm c') E := by
  rw [revert, runs_bind, hhead]
  refine (number_runs c _).mono ?_ fun _ _ he => he
  intro n c₁ h₁
  obtain ⟨rfl, hr₁⟩ := h₁
  rw [(hc.detailsOf hc.head_stored).number, runs_bind, runs_modify]
  generalize hc₂ : ({ c₁ with m_blockHashes := _, m_transactionAddresses := _ } : BlockChain) = c₂
  have hr₁' := hr₁.recalled
  have hdetails₂ : ∀ h, c₂.detailsOf h = c.detailsOf h := by
    intro h
    rw [← hc₂]
    exact hr₁.detailsOf h
  have hblooms₂ : c₂.bloomsOf = c.bloomsOf := by
    rw [← hc₂]
    exact hr₁.bloomsOf
  rw [runs_bind]
  refine (number_runs c₂ _).mono ?_ fun _ _ he => he
  intro n c₃ h₃
  obtain ⟨rfl, hr₃⟩ := h₃
  rw [runs_bind]
  refine (number_runs c₃ _).mono ?_ fun _ _ he => he
  intro n c₄ h₄
  obtain ⟨rfl, hr₄⟩ := h₄
  have hr₂₄ := hr₃.trans hr₄
  rw [hr₃.detailsOf, hdetails₂, hdetails₂, (hc.detailsOf hcm).number, (hc.detailsOf hc.head_stored).number]
  have hbound := hc.bounded _ hc.head_stored
  refine (clearBlockBlooms_runs c₄ (by omega)).mono ?_ fun _ _ he => he
  intro _ c₅ h₅
  obtain ⟨ho, hcov⟩ := h₅
  have hr := hr₂₄.recalled
  refine ⟨?_, ?_, ?_, ?_, ?_, ?_, Or.inr ⟨hdead, ?_⟩, ?_⟩
  · rw [ho.blocksDB, hr.blocksDB, ← hc₂]
    exact hr₁'.blocksDB
  · rw [ho.extrasDB, hr.extrasDB, ← hc₂]
    exact hr₁'.extrasDB
  · rw [ho.lastHash, hr.lastHash, ← hc₂]
    exact hr₁'.lastHash
  · rw [ho.lastNumber, hr.lastNumber, ← hc₂]
    exact hr₁'.lastNumber
  · have hdet := hr₂₄.details
    rw [← hc₂] at hdet
    rw [ho.details]
    rw [hr₁'.extrasDB] at hdet
    exact hr₁.details.trans hdet
  · rw [ho.hashes, hr₂₄.eq, ← hc₂]
    dsimp only
    rw [hr₁.eq]
  · rw [ho.addresses, hr₂₄.eq, ← hc₂]
  · intro n hn bits hb
    have hnb := hc.bounded _ hcm
    refine hcov n (by omega) bits (by omega) (hb.congr ?_)
    rw [hr₂₄.bloomsOf, hblooms₂]

/-- What becoming the head does, before the databases are written. -/
structure Adopted (T : BlockTree P) (c : BlockChain) (b : VerifiedBlockRef) (cm : H256) (dead live : List H256) (c' : BlockChain)
    (puts : List Put) : Prop where
  forks : Forks T.parent T.height c.m_lastBlockHash (P.hash b.info) cm dead live
  meets : P.hash b.info ∉ T.chain c.m_lastBlockHash → Meets T.parent T.height c.m_lastBlockHash (P.hash b.info) cm dead live
  canonized : ∃ c₁, Reverted T c dead cm c₁ ∧ CanonizedAll T c₁ live c' puts

theorem Sound.hash_eq {c : BlockChain} (hc : Sound T c) {h : H256} (hs : Stored P c h) : P.hash (T.block h).info = h := by
  by_cases hg : h = P.genesisHash
  · rw [hg, T.block_genesis]
    rfl
  · obtain ⟨b, hb⟩ := Option.isSome_iff_exists.mp (hs.resolve_left hg)
    obtain ⟨heq, hhash, -⟩ := hc.block h b hb
    rw [← heq]
    exact hhash

theorem takeWhile_ne_append {a t : List H256} {x : H256} (h : ∀ y ∈ a, y ≠ x) : (a ++ x :: t).takeWhile (· ≠ x) = a := by
  rw [List.takeWhile_append_of_pos fun y hy => decide_eq_true (h y hy), List.takeWhile_cons_of_neg (by simp), List.append_nil]

theorem splitRoute_eq {dead live : List H256} {cm : H256} (hd : ∀ y ∈ dead, y ≠ cm) (hl : ∀ y ∈ live, y ≠ cm) :
    splitRoute (dead ++ cm :: live) cm = ⟨dead, live⟩ := by
  rw [splitRoute, takeWhile_ne_append hd, List.dropWhile_append_of_pos fun y hy => decide_eq_true (hd y hy),
    List.dropWhile_cons_of_neg (by simp), List.filter_cons_of_neg (by simp),
    List.filter_eq_self.mpr fun y hy => decide_eq_true (hl y hy)]

theorem adopt_runs {c : BlockChain} (hc : Sound T c) {b : VerifiedBlockRef} (hb : T.Has b) (hp : Stored P c b.info.parentHash)
    (hheight : T.height (P.hash b.info) = T.height b.info.parentHash + 1) :
    Runs (adopt P b) c (fun r c' => ∃ dead live, Adopted T c b r.2.1 dead live c' r.2.2 ∧
      splitRoute r.1 r.2.1 = ⟨dead, live.reverse⟩) E := by
  have hparent : T.parent (P.hash b.info) = b.info.parentHash := by rw [BlockTree.parent, hb.1]
  have hgenesis := ne_genesis_of_height hheight
  have hrooted := hc.rooted.insert (x := P.hash b.info) (hparent ▸ hp) (by rw [hparent, hheight])
  rw [adopt, runs_bind, runs_get, runs_bind]
  refine (treeRoute_runs hc hc.head_stored hp).mono ?_ fun _ _ he => he
  intro r c₁ h₁
  obtain ⟨route, cm, i⟩ := r
  obtain ⟨hr₁, a, bs, hroute, hmeets⟩ := h₁
  dsimp only at hroute hmeets ⊢
  have hforks : Forks T.parent T.height c.m_lastBlockHash (P.hash b.info) cm a (P.hash b.info :: bs) :=
    (hparent ▸ hmeets.toForks).cons_right hrooted (Or.inl rfl) hgenesis
  have hapart : P.hash b.info ∉ T.chain c.m_lastBlockHash →
      Meets T.parent T.height c.m_lastBlockHash (P.hash b.info) cm a (P.hash b.info :: bs) :=
    fun hnew => (hparent ▸ hmeets).cons_right hrooted (Or.inl rfl) hgenesis hnew
  have hdead : ∀ y ∈ a, y ≠ cm := by
    intro y hy heq
    exact Nat.lt_irrefl _ (heq ▸ hforks.height_lt hc.rooted hc.head_stored hy)
  have hlive : ∀ y ∈ P.hash b.info :: bs, y ≠ cm := by
    intro y hy heq
    exact Nat.lt_irrefl _ (heq ▸ hforks.symm.height_lt hrooted (Or.inl rfl) hy)
  have hfull : route ++ [P.hash b.info] = a ++ cm :: (P.hash b.info :: bs).reverse := by
    rw [hroute, List.reverse_cons, List.append_assoc, List.cons_append]
  have hcmStored : Stored P c cm := (hc.rooted.mem_of_mem_lineage hc.head_stored hforks.mem_left).1
  have htake : (route ++ [P.hash b.info]).takeWhile (· ≠ cm) = a := by rw [hfull, takeWhile_ne_append hdead]
  have hrev : (route ++ [P.hash b.info]).reverse.takeWhile (· ≠ cm) = P.hash b.info :: bs := by
    rw [hfull, List.reverse_append, List.reverse_cons, List.reverse_reverse, List.append_assoc, List.singleton_append,
      takeWhile_ne_append hlive]
  have hreverted : Runs (if cm ≠ c.m_lastBlockHash then revert (route ++ [P.hash b.info]) cm c.m_lastBlockHash else pure ()) c₁
      (fun _ c' => Reverted T c a cm c') E := by
    by_cases hcm : cm = c.m_lastBlockHash
    · -- nothing is above the old head
      have ha : a = [] := by
        rw [hcm] at hforks
        exact hforks.left_eq_nil
      rw [if_neg (not_not_intro hcm)]
      refine ⟨hr₁.recalled.blocksDB, hr₁.recalled.extrasDB, hr₁.recalled.lastHash, hr₁.recalled.lastNumber, hr₁.details, ?_,
        Or.inl ⟨ha, ?_⟩, fun n _ bits h => h.congr hr₁.bloomsOf⟩
      · rw [ha, eraseHashes, hr₁.eq]
      · rw [hr₁.eq]
    · obtain ⟨a', ha'⟩ := hforks.exists_left_eq hcm
      have hrun := @revert_runs _ _ E _ (hr₁.sound hc) (route ++ [P.hash b.info]) cm (hr₁.stored ▸ hcmStored)
      rw [htake, hr₁.recalled.lastHash] at hrun
      rw [if_pos hcm]
      refine (hrun ?_ ?_).mono (fun _ c' h => ?_) fun _ _ he => he
      · rw [hfull, ha']
        rfl
      · rw [ha']
        exact List.cons_ne_nil _ _
      · refine ⟨h.blocksDB.trans hr₁.recalled.blocksDB, h.extrasDB.trans hr₁.recalled.extrasDB,
          h.lastHash.trans hr₁.recalled.lastHash, h.lastNumber.trans hr₁.recalled.lastNumber, ?_, ?_, ?_, ?_⟩
        · have hdet := h.details
          rw [hr₁.recalled.extrasDB] at hdet
          exact hr₁.details.trans hdet
        · rw [h.hashes, hr₁.recalled.lastHash, hr₁.eq]
        · have haddr := h.addresses
          rw [hr₁.eq] at haddr
          exact haddr
        · exact fun n hn bits hcov => h.blooms n hn bits (hcov.congr hr₁.bloomsOf)
  have hafter : ∀ c₂, Reverted T c a cm c₂ → Runs (do
      let puts ← canonizeAll P b (P.hash b.info :: bs)
      pure (route ++ [P.hash b.info], cm, puts)) c₂
      (fun r c' => ∃ dead live, Adopted T c b r.2.1 dead live c' r.2.2 ∧ splitRoute r.1 r.2.1 = ⟨dead, live.reverse⟩) E := by
    intro c₂ h₂
    rw [runs_bind]
    refine (canonizeAll_runs hb ?_).mono ?_ fun _ _ he => he
    · intro h hh hne
      have hmem : h ∈ lineage T.parent T.height b.info.parentHash := by
        rw [hmeets.right]
        exact List.mem_append_left _ ((List.mem_cons.mp hh).resolve_left hne)
      have hs := (hc.rooted.mem_of_mem_lineage hp hmem).1
      rw [block, h₂.blocksDB]
      exact ⟨hc.block_eq hs, hc.hash_eq hs⟩
    · intro puts c' h'
      refine ⟨a, P.hash b.info :: bs, ⟨hforks, hapart, c₂, h₂, h'⟩, ?_⟩
      dsimp only
      rw [hfull, splitRoute_eq hdead fun y hy => hlive y (List.mem_reverse.mp hy)]
  rw [hrev, runs_ite]
  refine ⟨fun hcm => ?_, fun hcm => ?_⟩
  · rw [if_pos hcm] at hreverted
    rw [runs_bind]
    exact hreverted.mono (fun _ c₂ h₂ => hafter c₂ h₂) fun _ _ he => he
  · rw [if_neg hcm] at hreverted
    exact hafter c₁ hreverted

/-! ## Importing -/

/-- The details of the parent with the new child. -/
def parentDetails (P : ChainParams) (c : BlockChain) (b : VerifiedBlockRef) : BlockDetails :=
  { c.detailsOf b.info.parentHash with children := (c.detailsOf b.info.parentHash).children ++ [P.hash b.info] }

/-- The details of the new block. -/
def ownDetails (T : BlockTree P) (b : VerifiedBlockRef) : BlockDetails :=
  { number := T.height b.info.parentHash + 1
    totalDifficulty := T.totalDifficulty b.info.parentHash + b.info.difficulty.toNat
    parent := b.info.parentHash, children := [] }

/-- The block is stored. -/
structure Imported (T : BlockTree P) (c : BlockChain) (b : VerifiedBlockRef) (c' : BlockChain) : Prop where
  blocksDB : c'.m_blocksDB = Function.update c.m_blocksDB (P.hash b.info) (some b)
  details : c'.m_extrasDB.details = Function.update
    (Function.update c.m_extrasDB.details b.info.parentHash (some (parentDetails P c b))) (P.hash b.info) (some (ownDetails T b))
  memo_parent : c'.m_details b.info.parentHash = some (parentDetails P c b)
  memo : ∀ h ≠ b.info.parentHash, ∀ d, c'.m_details h = some d → c.m_details h = some d ∨ c.m_extrasDB.details h = some d

/-- The head has stayed. -/
structure Kept (T : BlockTree P) (c : BlockChain) (b : VerifiedBlockRef) (r : ImportRoute) (c' : BlockChain) : Prop where
  lastHash : c'.m_lastBlockHash = c.m_lastBlockHash
  lastNumber : c'.m_lastBlockNumber = c.m_lastBlockNumber
  notBetter : T.totalDifficulty (P.hash b.info) ≤ T.totalDifficulty c.m_lastBlockHash
  route : r = ⟨[], []⟩
  memos : c'.m_blockHashes = c.m_blockHashes ∧ c'.m_transactionAddresses = c.m_transactionAddresses ∧
    c'.m_blocksBlooms = c.m_blocksBlooms
  extras : c'.m_extrasDB.blockHash = c.m_extrasDB.blockHash ∧
    c'.m_extrasDB.transactionAddress = c.m_extrasDB.transactionAddress ∧ c'.m_extrasDB.blocksBlooms = c.m_extrasDB.blocksBlooms

/-- The block is better than the head. -/
def Overtakes (T : BlockTree P) (c : BlockChain) (b : VerifiedBlockRef) : Prop :=
  T.totalDifficulty c.m_lastBlockHash < T.totalDifficulty (P.hash b.info) ∨
    (P.tieBreakingGas = true ∧ T.totalDifficulty c.m_lastBlockHash = T.totalDifficulty (P.hash b.info) ∧
      (T.block c.m_lastBlockHash).info.gasUsed < b.info.gasUsed)

/-- The block is the new head: `dead` has left the chain and `live` has joined it. -/
structure Switched (T : BlockTree P) (c : BlockChain) (b : VerifiedBlockRef) (cm : H256) (dead live : List H256) (r : ImportRoute)
    (c' : BlockChain) : Prop where
  lastHash : c'.m_lastBlockHash = P.hash b.info
  lastNumber : c'.m_lastBlockNumber = T.number (P.hash b.info)
  better : Overtakes T c b
  forks : Forks T.parent T.height c.m_lastBlockHash (P.hash b.info) cm dead live
  meets : P.hash b.info ∉ T.chain c.m_lastBlockHash → Meets T.parent T.height c.m_lastBlockHash (P.hash b.info) cm dead live
  route : r = ⟨dead, live.reverse⟩
  hashes_memo : c'.m_blockHashes = eraseHashes dead (T.height c.m_lastBlockHash) c.m_blockHashes
  hashes : (live.map T.number).Nodup → ∀ h ∈ live, c'.m_extrasDB.blockHash (T.number h) = some h
  hashesRest : ∀ n, (∀ h ∈ live, T.number h ≠ n) → c'.m_extrasDB.blockHash n = c.m_extrasDB.blockHash n
  addresses_memo : dead = [] ∧ c'.m_transactionAddresses = c.m_transactionAddresses ∨
    dead ≠ [] ∧ c'.m_transactionAddresses = fun _ => none
  addresses : ∀ t,
    (∃ h ∈ live, ∃ i x, (T.block h).transactions[i]? = some x ∧ P.sha3 x = t ∧ c'.m_extrasDB.transactionAddress t = some ⟨h, i⟩) ∨
      ((∀ h ∈ live, ∀ x ∈ (T.block h).transactions, P.sha3 x ≠ t) ∧
        c'.m_extrasDB.transactionAddress t = c.m_extrasDB.transactionAddress t)
  covers : ∀ h ∈ live, Covers c' (T.number h) (P.blockBloom (T.block h))
  coversRest : ∀ n ≤ T.height cm, ∀ bits, Covers c n bits → Covers c' n bits
  blooms : ∀ h ∈ live, ∀ id ∈ chunksOf (T.number h), c'.m_extrasDB.blocksBlooms id = c'.m_blocksBlooms id
  bloomsRest : ∀ id, (∀ h ∈ live, id ∉ chunksOf (T.number h)) → c'.m_extrasDB.blocksBlooms id = c.m_extrasDB.blocksBlooms id

theorem Overtakes.le {c : BlockChain} {b : VerifiedBlockRef} (h : Overtakes T c b) :
    T.totalDifficulty c.m_lastBlockHash ≤ T.totalDifficulty (P.hash b.info) := by
  rcases h with h | h
  · exact Nat.le_of_lt h
  · exact Nat.le_of_eq h.2.1

/-- The total difficulty of a block is that of its parent and its own. -/
theorem Sound.totalDifficulty {c : BlockChain} (hc : Sound T c) {b : VerifiedBlockRef} (hb : T.Has b)
    (hp : Stored P c b.info.parentHash) (hheight : T.height (P.hash b.info) = T.height b.info.parentHash + 1) :
    T.totalDifficulty (P.hash b.info) = T.totalDifficulty b.info.parentHash + b.info.difficulty.toNat := by
  have hparent : T.parent (P.hash b.info) = b.info.parentHash := by rw [BlockTree.parent, hb.1]
  have hgenesis := ne_genesis_of_height hheight
  have hrooted := hc.rooted.insert (x := P.hash b.info) (hparent ▸ hp) (by rw [hparent, hheight])
  have hcons := hrooted.lineage_cons (Or.inl rfl) hgenesis
  rw [BlockTree.totalDifficulty, BlockTree.totalDifficulty, BlockTree.chain, hcons, hparent, List.map_cons, List.sum_cons, hb.1,
    Nat.add_comm]
  rfl

/-- An ancestor has no greater total difficulty. -/
theorem Sound.totalDifficulty_le {c : BlockChain} (hc : Sound T c) {x y : H256} (hx : Stored P c x) (hy : y ∈ T.chain x) :
    T.totalDifficulty y ≤ T.totalDifficulty x := by
  obtain ⟨a, ha⟩ := hc.rooted.exists_append hx hy
  rw [BlockTree.totalDifficulty, BlockTree.totalDifficulty, BlockTree.chain, BlockTree.chain, ha, List.map_append, List.sum_append]
  exact Nat.le_add_left _ _

end BlockChain

end Webthree
