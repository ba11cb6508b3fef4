import Webthree.Lemmas.HeaderRLP

/-!
# Encodings and hashes of headers

A header that was read is written as the bytes it was read from, unless its bytes are those of a string or its extra data is not a
string, and a header is read back from its encoding. The hashes that headers keep are those of their fields, as long as no header
with a hash is populated from its parent, and no header is populated from a parent without one.
-/

namespace Webthree

open RLP

namespace BlockHeader

/-- What is read from a header is written as the header again, and hashes to its hash, exactly if the header is a list whose item
for the extra data is a string. A header with one item in each seal field is read back from what is written for it. -/
theorem header_encoding_iff (sha3 : Bytes → H256) :
    (∀ (data : Bytes) (bdt : BlockDataType) (r : RLP) (h : BlockHeader), headerRLP data bdt = .ok r → populate r = .ok h →
      ((h.rlp .WithSeal = .ok r.m_data.toBytes ∧
          ((⟨h, nullHash, nullHash⟩ : HashedHeader).hash sha3 .WithSeal).map (·.1) = .ok (sha3 r.m_data.toBytes)) ↔
        r.isList = true ∧ ∀ x, r.index 12 = .ok x → x.isData = true)) ∧
    ∀ h : BlockHeader, (∀ f ∈ h.sealFields, f ≠ [] ∧ ∃ r, RLP.ofRef (.ofBytes f) VeryStrict = .ok r) →
      BasicFields + h.sealFields.length < 2 ^ 32 → h.extraData.length + h.sealFields.flatten.length < 2 ^ 63 →
      ∃ b r, h.rlp .WithSeal = .ok b ∧ headerRLP b .HeaderData = .ok r ∧ r.m_data.toBytes = b ∧ populate r = .ok h := by
  constructor
  · intro data bdt r h hr hp
    obtain ⟨hv, hf⟩ := framed_of_headerRLP hr
    rw [← rlp_populate_iff hv hf hp]
    refine and_iff_left_of_imp fun hb => ?_
    rw [HashedHeader.hash, if_pos rfl, hb]
    rfl
  · intro h hs hcount hsize
    have hs' : ∀ f ∈ h.sealFields, IsItem f := fun f hf => by
      obtain ⟨hne, r, hr⟩ := hs f hf
      exact ⟨hne, (ofRef_ofBytes_ok_iff.mp hr).2⟩
    obtain ⟨hb, hr, hp⟩ := populate_rlp hs' hcount hsize
    exact ⟨wire h.items, _, hb, hr, BytesConstRef.toBytes_ofBytes _, hp⟩

/-- A header with two seal fields. -/
def sampleHeader : BlockHeader :=
  { HashedHeader.new.fields with number := 1, gasLimit := 0x2fefd8, sealFields := [[0x84, 1, 2, 3, 4], [0x07]] }

theorem header_encoding_iff_sample : ∃ r, populate r = .ok sampleHeader ∧ r.isList = true ∧ ∀ x, r.index 12 = .ok x → x.isData = true := by
  obtain ⟨hread, hwrite⟩ := header_encoding_iff fun b => H256.ofU256 (BitVec.ofNat 256 b.length)
  have hs : ∀ f ∈ sampleHeader.sealFields, f ≠ [] ∧ ∃ r, RLP.ofRef (.ofBytes f) VeryStrict = .ok r := by
    have h1 : ofRef (.ofBytes [0x84, 1, 2, 3, 4]) VeryStrict = .ok ⟨.ofBytes [0x84, 1, 2, 3, 4]⟩ := by decide +kernel
    have h2 : ofRef (.ofBytes [0x07]) VeryStrict = .ok ⟨.ofBytes [0x07]⟩ := by decide +kernel
    simp only [sampleHeader, List.forall_mem_cons]
    exact ⟨⟨by decide, _, h1⟩, ⟨by decide, _, h2⟩, by simp⟩
  obtain ⟨b, r, hb, hr, hrb, hp⟩ := hwrite sampleHeader hs (by decide) (by decide)
  refine ⟨r, hp, (hread b .HeaderData r sampleHeader hr hp).mp ⟨hrb.symm ▸ hb, ?_⟩⟩
  rw [HashedHeader.hash, if_pos rfl, hb, hrb]
  rfl

/-- Whatever the fields, the empty list is accepted for the extra data, and read as the empty string. -/
theorem populate_emptyList (h : BlockHeader) :
    headerRLP (wire (h.typedItems ++ [[0xc0]])) .HeaderData = .ok ⟨.ofBytes (wire (h.typedItems ++ [[0xc0]]))⟩ ∧
      populate ⟨.ofBytes (wire (h.typedItems ++ [[0xc0]]))⟩ = .ok { h with extraData := [], sealFields := [] } := by
  -- the items are some of those of a header with the empty list for a seal field
  let g : BlockHeader := { h with extraData := [], sealFields := [[0xc0]] }
  have hsmall : RLP.Small [] := by
    unfold RLP.Small
    decide
  have hempty : IsItem [0xc0] := ⟨List.cons_ne_nil _ _, framed_list hsmall⟩
  have hg := items_isItem (h := g) hsmall (List.forall_mem_singleton.mpr hempty)
  have hitems : ∀ c ∈ h.typedItems ++ [[0xc0]], IsItem c := by
    intro c hc
    refine hg c ?_
    rcases List.mem_append.mp hc with hc | hc
    · exact List.mem_append_left _ hc
    · exact List.mem_append_right _ (List.mem_cons_of_mem _ hc)
  have hflat : (h.typedItems ++ [[0xc0]]).flatten.length < 2 ^ 63 := by
    have hle := length_items_le (h := g) (show 0 < 2 ^ 64 by decide)
    simp only [items, List.flatten_append, List.length_append, List.flatten_cons, List.flatten_nil, List.length_cons, List.length_nil, g,
      typedItems] at hle ⊢
    omega
  obtain ⟨hr, hlist⟩ := listOf_wire hitems (by unfold RLP.Small; omega)
  refine ⟨by rw [headerRLP, hr]; rfl, ?_⟩
  obtain ⟨x, hx, hxv, hxb, -⟩ := hlist.index 12
  have hdata : x.isData = false := (list_queries hxv hsmall hxb).2.1
  have htyped : (List.range 12).map ((h.typedItems ++ [[0xc0]]).getD · []) = h.typedItems := by
    rw [← take_eq_map_getD (by simp [typedItems])]
    exact List.take_left' rfl
  have hdrop : (h.typedItems ++ [[0xc0]]).drop BasicFields = [] := rfl
  exact (populate_ok_iff hlist).mpr ⟨htyped, ⟨x, hx, toBytes_of_not_data hdata⟩, show 13 < 2 ^ 32 by decide, hdrop.symm⟩

/-- The items of a header, with the empty list for the extra data. -/
def lenientHeader : Bytes := wire (HashedHeader.new.fields.typedItems ++ [[0xc0]])

/-- A header with the empty list for the extra data is accepted, and written with the empty string. -/
theorem not_header_encoding :
    ¬ ∀ (data : Bytes) (bdt : BlockDataType) (r : RLP) (h : BlockHeader), headerRLP data bdt = .ok r → populate r = .ok h →
      h.rlp .WithSeal = .ok r.m_data.toBytes := by
  intro h
  obtain ⟨hr, hp⟩ := populate_emptyList HashedHeader.new.fields
  have hne : HashedHeader.new.fields.rlp .WithSeal ≠ .ok lenientHeader := by decide +kernel
  exact hne ((h _ _ _ _ hr hp).trans (congrArg Except.ok (BytesConstRef.toBytes_ofBytes _)))

end BlockHeader

namespace HeaderOp

open HashedHeader

/-- The headers after some calls. -/
def run (sha3 : Bytes → H256) (ops : List (Nat × HeaderOp)) : Headers := ops.foldl (next sha3) fun _ => HashedHeader.new

/-- After any calls, where a header is populated from its parent only while it keeps no hash and the parent keeps one, each hash
is the hash of what the fields are written as, and the parent hash of a header that has just been populated is that of the parent. -/
theorem run_hashes (sha3 : Bytes → H256) {ops : List (Nat × HeaderOp)}
    (h : AllowedFrom (next sha3) Allowed (fun _ => HashedHeader.new) ops) :
    (∀ n, (run sha3 ops n).Hashes sha3) ∧
      ∀ before n parent, ops = before ++ [(n, .populateFromParent parent)] →
        ((run sha3 ops parent).hash sha3 .WithSeal).map (·.1) = .ok (run sha3 ops n).fields.parentHash := by
  constructor
  · intro n
    exact (memoised_reach (Reach.foldl .start h) n).hashes
  · rintro before n parent rfl
    obtain ⟨-, hlast, -⟩ := allowedFrom_append.mp h
    rw [run, List.foldl_append]
    exact parentHash_next hlast

/-- A hash that tells the headers of the sample apart. -/
def sampleHash (b : Bytes) : H256 := H256.ofU256 (BitVec.ofNat 256 ((b.map UInt8.toNat).sum + 1))

theorem run_hashes_sample :
    (run sampleHash [(1, .hash .WithSeal), (0, .populateFromParent 1)] 0).Hashes sampleHash ∧
      (run sampleHash [(1, .hash .WithSeal), (0, .populateFromParent 1)] 0).fields.parentHash ≠ nullHash := by
  have hallowed : AllowedFrom (next sampleHash) Allowed (fun _ => HashedHeader.new)
      [(1, .hash .WithSeal), (0, .populateFromParent 1)] := by
    refine ⟨fun parent h => (by cases h), fun parent h => ?_, trivial⟩
    cases h
    decide +kernel
  obtain ⟨hall, hparent⟩ := run_hashes sampleHash hallowed
  refine ⟨hall 0, fun hnull => ?_⟩
  have := hparent [(1, .hash .WithSeal)] 0 1 rfl
  rw [hnull] at this
  exact absurd this (by decide +kernel)

/-- A header that keeps its hash while it is populated gives the old hash, and the hash of a parent that keeps none is not
assigned. -/
theorem not_run_hashes :
    (¬ ∀ (sha3 : Bytes → H256) (ops : List (Nat × HeaderOp)) (n : Nat), (run sha3 ops n).Hashes sha3) ∧
      ¬ ∀ (sha3 : Bytes → H256) (before : List (Nat × HeaderOp)) (n parent : Nat),
        ((run sha3 (before ++ [(n, .populateFromParent parent)]) parent).hash sha3 .WithSeal).map (·.1) =
          .ok (run sha3 (before ++ [(n, .populateFromParent parent)]) n).fields.parentHash := by
  constructor
  · intro h
    have := h sampleHash [(0, .hash .WithSeal), (1, .hash .WithSeal), (0, .populateFromParent 1)] 0 .WithSeal
    exact absurd this (by decide +kernel)
  · intro h
    exact absurd (h sampleHash [] 0 1) (by decide +kernel)

end HeaderOp

end Webthree
