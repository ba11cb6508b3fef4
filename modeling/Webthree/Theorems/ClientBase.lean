import Webthree.Lemmas.ClientBase
import Webthree.Lemmas.LogFilter
import Webthree.Theorems.BlockChain

/-!
# Watches and their filters

When the filters of the client are those of its watches, and what is found with them.
-/

namespace Webthree

namespace ClientOp

open ClientBase

/-- All along a run the filters are those of the watches exactly if no call of it adds a watch to a filter that has one, or a watch
of a filter that is not there. -/
theorem run_keepsFilters_iff (sha3 : Bytes → H256) (ops : List ClientOp) :
    (∀ l, l <+: ops → (l.foldl (next sha3) {}).KeepsFilters sha3) ↔ AllowedFrom (next sha3) (Allowed sha3) {} ops := by
  have hkeep : ∀ (s : ClientBase) (op : ClientOp), s.Basic sha3 ∧ s.KeepsFilters sha3 → op.Allowed sha3 s →
      (op.next sha3 s).Basic sha3 ∧ (op.next sha3 s).KeepsFilters sha3 :=
    fun s op hs hop => ⟨hs.1.next op, (next_keepsFilters_iff hs.1 hs.2 op).mpr hop⟩
  refine forall_prefix_iff (fun _ hs => hs.2) (fun s op hs => next_keepsFilters_iff hs.1 hs.2 op) hkeep ⟨Basic.init, ?_⟩
  exact Basic.init.keepsFilters_iff.mpr fun _ _ => rfl

namespace WatchSample

/-- A hash for every filter, which is not special. -/
def hash (_ : Bytes) : H256 := H256.ofU256 2

/-- The filter of all logs. -/
def filter : LogFilter := { m_addresses := [], m_topics := fun _ => [], m_earliest := nullHash, m_latest := nullHash }

end WatchSample

open WatchSample in
/-- Two watches share a filter, and the first one goes: the second one has lost its filter. -/
theorem not_run_keepsFilters :
    ¬ ([installFilter filter, installFilter filter, uninstallWatch 0].foldl (next hash) {}).KeepsFilters hash := by
  intro h
  obtain ⟨f, hf⟩ := h.watched 1 ⟨hash []⟩ rfl (by decide)
  exact nomatch hf

end ClientOp

/-!
## Searching for logs

Whether the blooms of a filter admit a receipt that it matches, which blocks the client looks at, and which logs of a receipt it matches.
-/

namespace LogFilter

open BlockChain ChainOp

/-- All topics of some position are in the bloom, or there are none in any position. -/
def Admits (sha3 : Bytes → H256) (f : LogFilter) (bloom : LogBloom) : Prop :=
  (∀ t ∈ f.positions, t = []) ∨ ∃ t ∈ f.positions, t ≠ [] ∧ ∀ j ∈ t, bloom.containsBloom (topicHash sha3 j) = true

/-- A receipt with a matching log has one of the candidates in its bloom exactly if all topics of some position are in its bloom, or
the filter has none; then the client looks at its block in every chain whose index of blooms covers that. -/
theorem possibilities_iff (sha3 : Bytes → H256) (behind : LogEntry → H256) {f : LogFilter} (hf : f.isRangeFilter = false)
    {r : TransactionReceipt} (hm : f.matchesReceipt sha3 behind r ≠ []) :
    ((∃ p ∈ f.bloomPossibilities sha3, r.bloom.contains p = true) ↔ f.Admits sha3 r.bloom) ∧
      (f.Admits sha3 r.bloom → ∀ {c : BlockChain} {n : Nat} {bits : LogBloom}, Covers c n bits → bits.contains r.bloom = true →
        ∀ earliest ≤ n, ∀ latest, n ≤ latest → (n < 256 ∨ latest ≤ 2 ^ 32 - 256) →
          Runs (f.matchingBlocks sha3 earliest latest) c (fun ns _ => n ∈ ns) fun _ _ => False) := by
  have hiff := exists_possibility_iff hf (matchesBloom_of_matchesReceipt hf hm)
  refine ⟨hiff, fun hadmits {c n bits} hcovers hblock earliest he latest hl hrange => ?_⟩
  obtain ⟨p, hp, hcontains⟩ := hiff.mpr hadmits
  exact matchingBlocks_runs hf hp he hl hrange fun q hq =>
    LogBloom.contains_trans (hcovers q hq) (LogBloom.contains_trans hblock hcontains)

namespace FilterSample

/-- Topics are their own hashes, and addresses have the null hash. -/
def hash (b : Bytes) : H256 := if b.length = 32 then H256.ofBytes b else nullHash

/-- A topic with one bit of a bloom. -/
def topic (i : Nat) : H256 := H256.ofU256 (BitVec.ofNat 256 (i <<< 240))

/-- A filter with choices for the first topic. -/
def filter (ts : List H256) : LogFilter :=
  { m_addresses := [1], m_topics := fun i => if i.val = 0 then ts else [], m_earliest := nullHash, m_latest := nullHash }

/-- A receipt with one log, and the bloom of that. -/
def receipt : TransactionReceipt :=
  { stateRoot := nullHash, gasUsed := 0, bloom := bloomOfLogs hash [⟨1, [topic 0], []⟩], log := [⟨1, [topic 0], []⟩] }

end FilterSample

open FilterSample ChainSample in
theorem possibilities_iff_sample :
    (∃ p ∈ (filter [topic 0]).bloomPossibilities hash, receipt.bloom.contains p = true) ∧
      ∃ c, 2 ≤ c.m_lastBlockNumber ∧ Runs ((filter [topic 0]).matchingBlocks hash 0 2) c (fun ns _ => 2 ∈ ns) fun _ _ => False := by
  have hadmits : (filter [topic 0]).Admits hash receipt.bloom := by
    refine .inr ⟨[topic 0], by simp [positions, filter, List.ofFn_succ], by simp, fun j hj => ?_⟩
    obtain rfl := List.mem_singleton.mp hj
    decide +kernel
  obtain ⟨hiff, hblocks⟩ := possibilities_iff hash (fun _ => nullHash) (f := filter [topic 0]) (by decide +kernel) (r := receipt)
    (by decide +kernel)
  -- the state is kept apart, so that the search is not carried out
  obtain ⟨c, hc, hn, hblock⟩ : ∃ c, Reach (next params) (ChainOp.Counts tree) (new params) c ∧ 2 ≤ c.m_lastBlockNumber ∧
      (params.blockBloom (tree.block (tree.ancestor c.m_lastBlockHash 2))).contains receipt.bloom = true :=
    ⟨_, collected.val.reach, collected.property, by decide +kernel⟩
  have hcovers := covers_of_reach tree hc hn (.inl (by decide))
  exact ⟨hiff.mpr hadmits, c, hn, hblocks hadmits hcovers hblock 0 (Nat.zero_le 2) 2 (Nat.le_refl 2) (.inl (by decide))⟩

open FilterSample in
/-- Of two choices for a topic, a log has one, and no candidate is in its bloom. -/
theorem not_possibilities :
    ¬ ∀ (sha3 : Bytes → H256) (behind : LogEntry → H256) (f : LogFilter) (r : TransactionReceipt), f.isRangeFilter = false →
      r.bloom = bloomOfLogs sha3 r.log → f.matchesReceipt sha3 behind r ≠ [] →
        ∃ p ∈ f.bloomPossibilities sha3, r.bloom.contains p = true := by
  intro h
  obtain ⟨p, hp, hcontains⟩ :=
    h hash (fun _ => nullHash) (filter [topic 0, topic 1]) receipt (by decide +kernel) rfl (by decide +kernel)
  have hany : ((filter [topic 0, topic 1]).bloomPossibilities hash).any (fun p => receipt.bloom.contains p) = true :=
    List.any_eq_true.mpr ⟨p, hp, hcontains⟩
  exact absurd hany (by decide +kernel)

/-- What matching a receipt is to give: the logs that the filter asks for, from topics that there are, and past the test of blooms. -/
structure MatchesRight (sha3 : Bytes → H256) (behind : LogEntry → H256) (f : LogFilter) (m : TransactionReceipt) : Prop where
  exact : f.matchesReceipt sha3 behind m = m.log.filter fun e => f.Wants e
  inside : ∀ r ∈ f.receiptReads sha3 behind m, r.2 < r.1.topics.length
  admitted : (∃ e ∈ m.log, f.Wants e) → f.matchesBloom sha3 m.bloom = true

/-- A receipt is matched right unless one of its logs is read one behind its last topic. -/
theorem matchesRight_iff (sha3 : Bytes → H256) (behind : LogEntry → H256) {f : LogFilter} (hf : f.isRangeFilter = false)
    {m : TransactionReceipt} (hm : m.bloom = bloomOfLogs sha3 m.log) :
    f.MatchesRight sha3 behind m ↔ (f.AskedOf sha3 m.bloom → ∀ e ∈ m.log, ¬ f.Overreads e) := by
  have hpairwise := List.pairwise_lt_finRange 4
  have hadmitted : (∃ e ∈ m.log, f.Wants e) → f.AskedOf sha3 m.bloom := by
    rintro ⟨e, he, hwants⟩
    rw [hm]
    exact hwants.askedOf (contains_bloomOfLogs he)
  constructor
  · rintro ⟨-, hinside, -⟩ hasked e he ⟨haddress, i, hi, hne, hall⟩
    have hread := hinside (e, i.val) ((mem_receiptReads hf).mpr ⟨hasked, he, haddress,
      (mem_readsFrom hpairwise).mpr ⟨i, List.mem_finRange i, rfl, hne, hi.le, fun j _ => hall j⟩⟩)
    exact absurd hread (by simp [hi])
  · intro hover
    refine ⟨?_, fun r hr => ?_, fun h => matchesBloom_iff.mpr (hadmitted h)⟩
    · rw [matchesReceipt, if_neg (by simp [hf])]
      split
      · rename_i hb
        exact List.filter_congr fun e he => matchesEntry_eq (hover (matchesBloom_iff.mp hb) e he)
      · rename_i hb
        rw [eq_comm, List.filter_eq_nil_iff]
        intro e he hwants
        exact hb (matchesBloom_iff.mpr (hadmitted ⟨e, he, by simpa using hwants⟩))
    · obtain ⟨hasked, he, haddress, hread⟩ := (mem_receiptReads hf).mp hr
      obtain ⟨i, -, hi, hne, hle, hall⟩ := (mem_readsFrom hpairwise).mp hread
      refine lt_of_le_of_ne hle fun heq => hover hasked r.1 he ⟨haddress, i, hi.trans heq, hne, fun j => hall j (List.mem_finRange j)⟩

open FilterSample in
theorem matchesRight_iff_sample : (filter [topic 0]).MatchesRight hash (fun _ => nullHash) receipt := by
  refine (matchesRight_iff hash (fun _ => nullHash) (by decide +kernel) rfl).mpr fun _ e he hover => ?_
  obtain ⟨-, i, hi, hne, -⟩ := hover
  obtain rfl := List.mem_singleton.mp he
  -- the filter asks for nothing in the position behind the topic
  have hone : i = 1 := Fin.ext hi
  rw [hone] at hne
  exact hne rfl

open FilterSample in
/-- Of a log without topics the first one is read, whatever the hash function is, and whatever stands in memory. -/
theorem not_matchesRight :
    ¬ ∃ (sha3 : Bytes → H256) (behind : LogEntry → H256), ∀ (f : LogFilter) (m : TransactionReceipt), f.isRangeFilter = false →
      m.bloom = bloomOfLogs sha3 m.log → (∀ e ∈ m.log, e.topics.length ≤ 4) → f.MatchesRight sha3 behind m := by
  rintro ⟨sha3, behind, h⟩
  let log : List LogEntry := [⟨1, [], []⟩, ⟨1, [topic 0], []⟩]
  have hright := h (filter [topic 0]) ⟨nullHash, 0, bloomOfLogs sha3 log, log⟩ rfl rfl (by simp [log])
  have hwants : (filter [topic 0]).Wants ⟨1, [topic 0], []⟩ := by decide +kernel
  -- the other log brings the receipt past the test of blooms
  have hasked : (filter [topic 0]).AskedOf sha3 (bloomOfLogs sha3 log) := hwants.askedOf (contains_bloomOfLogs (by simp [log]))
  have hread := hright.inside (⟨1, [], []⟩, 0) ((mem_receiptReads rfl).mpr ⟨hasked, by simp [log], .inr (by simp [filter]),
    by simp [readsFrom, filter, List.finRange]⟩)
  exact absurd hread (lt_irrefl _)

end LogFilter

end Webthree
