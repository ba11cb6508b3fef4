import Mathlib.Data.List.FinRange
import Webthree.Whisper.WhisperHost

/-!
# What a counting bloom counts

The counters go up and down by the bits of what is put in and taken out, and a bit of the bloom is set exactly if its counter is not
zero. A bloom contains another one exactly if it has its bits.
-/

namespace Webthree

namespace Shh

open TopicBloomFilterHash

namespace TopicBloomFilterHash

theorem contains_iff {f c : TopicBloomFilterHash} : f.contains c = true ↔ ∀ b : Fin 512, isBitSet c b = true → isBitSet f b = true := by
  rw [contains, beq_iff_eq]
  constructor
  · intro h b hb
    rw [← h, isBitSet, BitVec.getLsbD_and, Bool.and_eq_true] at hb
    exact hb.1
  · intro h
    refine BitVec.eq_of_getLsbD_eq fun i hi => ?_
    rw [BitVec.getLsbD_and]
    cases hc : c.getLsbD i with
    | false => rw [Bool.and_false]
    | true => rw [show f.getLsbD i = true from h ⟨i, hi⟩ hc, Bool.and_true]

theorem isBitSet_or (f g : TopicBloomFilterHash) (b : Nat) : isBitSet (f ||| g) b = (isBitSet f b || isBitSet g b) :=
  BitVec.getLsbD_or

theorem isBitSet_zero (b : Nat) : isBitSet 0 b = false := BitVec.getLsbD_zero

/-- A bit is cleared. -/
theorem isBitSet_clear (f : TopicBloomFilterHash) (i b : Fin 512) :
    isBitSet (f &&& ~~~((1 : TopicBloomFilterHash) <<< i.val)) b = (isBitSet f b && !decide (b = i)) := by
  have h1 : ((1 : TopicBloomFilterHash) <<< i.val).getLsbD b.val = decide (b = i) := by
    rw [BitVec.getLsbD_shiftLeft, show (1 : TopicBloomFilterHash) = 1#512 from rfl, BitVec.getLsbD_one]
    have := b.isLt
    by_cases hb : b = i
    · subst hb
      simp
    · have hne : b.val ≠ i.val := fun hc => hb (Fin.ext hc)
      simp only [hb, decide_false, Bool.and_eq_false_iff, decide_eq_false_iff_not, Bool.not_eq_false', decide_eq_true_eq]
      omega
  rw [isBitSet, isBitSet, BitVec.getLsbD_and, BitVec.getLsbD_not, h1]
  simp [b.isLt]

end TopicBloomFilterHash

namespace TopicBloomFilter

/-! ## Putting in -/

theorem addRawLoop_ok {h : TopicBloomFilterHash} {l : List (Fin 512)} (hl : l.Nodup) {c : Fin 512 → Nat}
    (hc : ∀ i ∈ l, isBitSet h i = true → c i ≠ 2 ^ 16 - 1) :
    addRawLoop h l c = (fun i => c i + if i ∈ l ∧ isBitSet h i = true then 1 else 0, true) := by
  induction l generalizing c with
  | nil => simp [addRawLoop]
  | cons i l ih =>
    obtain ⟨hi, hl⟩ := List.nodup_cons.mp hl
    rw [addRawLoop]
    by_cases hb : isBitSet h i = true
    · rw [if_pos hb, if_pos (hc i List.mem_cons_self hb), ih hl]
      · refine congrArg (·, true) (funext fun j => ?_)
        by_cases hj : j = i
        · subst hj
          simp [hi, hb]
        · simp [hj]
      · intro j hj hbj
        have hne : j ≠ i := fun hji => hi (hji ▸ hj)
        rw [Function.update_of_ne hne]
        exact hc j (List.mem_cons_of_mem _ hj) hbj
    · rw [if_neg hb, ih hl fun j hj => hc j (List.mem_cons_of_mem _ hj)]
      refine congrArg (·, true) (funext fun j => ?_)
      by_cases hj : j = i
      · subst hj
        simp [hi, hb]
      · simp [hj]

theorem addRawLoop_throws {h : TopicBloomFilterHash} {l : List (Fin 512)} (hl : l.Nodup) {c : Fin 512 → Nat} {i : Fin 512} (hi : i ∈ l)
    (hb : isBitSet h i = true) (hc : c i = 2 ^ 16 - 1) : (addRawLoop h l c).2 = false := by
  induction l generalizing c with
  | nil => exact absurd hi List.not_mem_nil
  | cons j l ih =>
    obtain ⟨hj, hl⟩ := List.nodup_cons.mp hl
    rw [addRawLoop]
    rcases List.mem_cons.mp hi with rfl | hi
    · rw [if_pos hb, if_neg (not_not_intro hc)]
    · have hne : i ≠ j := fun hij => hj (hij ▸ hi)
      split
      · split
        · exact ih hl hi (by rwa [Function.update_of_ne hne])
        · rfl
      · exact ih hl hi hc

/-- No counter of a bit that is put in is at its end. -/
def Room (f : TopicBloomFilter) (h : TopicBloomFilterHash) : Prop := ∀ b : Fin 512, isBitSet h b = true → f.m_refCounter b ≠ 2 ^ 16 - 1

theorem addRaw_ok_iff (f : TopicBloomFilter) (h : TopicBloomFilterHash) : (f.addRaw h).2 = true ↔ f.Room h := by
  constructor
  · intro hok b hb hc
    have hthrows := addRawLoop_throws (List.nodup_finRange 512) (List.mem_finRange b) hb hc
    dsimp only [addRaw] at hok
    rw [hthrows] at hok
    cases hok
  · intro hroom
    rw [addRaw, addRawLoop_ok (List.nodup_finRange 512) fun i _ => hroom i]

theorem m_refCounter_addRaw {f : TopicBloomFilter} {h : TopicBloomFilterHash} (hroom : f.Room h) (b : Fin 512) :
    (f.addRaw h).1.m_refCounter b = f.m_refCounter b + (isBitSet h b).toNat := by
  rw [addRaw, addRawLoop_ok (List.nodup_finRange 512) fun i _ => hroom i]
  cases hb : isBitSet h b <;> simp [hb]

/-! ## Taking out -/

theorem removeBits_eq (h : TopicBloomFilterHash) {l : List (Fin 512)} (hl : l.Nodup) (f : TopicBloomFilter) (b : Fin 512) :
    (l.foldl (removeBit h) f).m_refCounter b = f.m_refCounter b - (if b ∈ l ∧ isBitSet h b = true then 1 else 0) ∧
      isBitSet (l.foldl (removeBit h) f).bits b =
        (isBitSet f.bits b && !decide (b ∈ l ∧ isBitSet h b = true ∧ f.m_refCounter b - 1 = 0)) := by
  induction l generalizing f with
  | nil => simp
  | cons i l ih =>
    obtain ⟨hi, hl⟩ := List.nodup_cons.mp hl
    have hcounter : (removeBit h f i).m_refCounter b = f.m_refCounter b - if b = i ∧ isBitSet h b = true then 1 else 0 := by
      unfold removeBit
      split
      · rename_i hb
        by_cases hbi : b = i
        · subst hbi
          simp [hb]
        · simp [hbi]
      · rename_i hb
        by_cases hbi : b = i
        · subst hbi
          simp [hb]
        · simp [hbi]
    have hbits : isBitSet (removeBit h f i).bits b =
        (isBitSet f.bits b && !decide (b = i ∧ isBitSet h b = true ∧ f.m_refCounter b - 1 = 0)) := by
      unfold removeBit
      split
      · rename_i hb
        by_cases hbi : b = i
        · subst hbi
          by_cases hc : f.m_refCounter b - 1 = 0
          · simp only [if_pos hc, isBitSet_clear]
            simp [hb, hc]
          · simp [hc]
        · split
          · simp only [isBitSet_clear]
            simp [hbi]
          · simp [hbi]
      · rename_i hb
        by_cases hbi : b = i
        · subst hbi
          simp [hb]
        · simp [hbi]
    rw [List.foldl_cons, (ih hl _).1, (ih hl _).2, hcounter, hbits]
    by_cases hbi : b = i
    · subst hbi
      simp [hi]
    · simp [hbi]

theorem m_refCounter_removeRaw (f : TopicBloomFilter) (h : TopicBloomFilterHash) (b : Fin 512) :
    (f.removeRaw h).m_refCounter b = f.m_refCounter b - (isBitSet h b).toNat := by
  rw [removeRaw, (removeBits_eq h (List.nodup_finRange 512) f b).1]
  cases isBitSet h b <;> simp

theorem isBitSet_removeRaw (f : TopicBloomFilter) (h : TopicBloomFilterHash) (b : Fin 512) :
    isBitSet (f.removeRaw h).bits b = (isBitSet f.bits b && !decide (isBitSet h b = true ∧ f.m_refCounter b - 1 = 0)) := by
  rw [removeRaw, (removeBits_eq h (List.nodup_finRange 512) f b).2]
  simp

/-! ## Counting -/

/-- The counters are these numbers, and the bits that are set are those with a number above zero. -/
def Counts (f : TopicBloomFilter) (n : Fin 512 → Nat) : Prop := ∀ b, f.m_refCounter b = n b ∧ (isBitSet f.bits b = true ↔ 0 < n b)

variable {f : TopicBloomFilter} {n n' : Fin 512 → Nat} {h : TopicBloomFilterHash}

theorem Counts.init : Counts {} fun _ => 0 := fun b =>
  ⟨rfl, by rw [show isBitSet ({} : TopicBloomFilter).bits b = false from isBitSet_zero b]; simp⟩

theorem Counts.addRaw (hf : f.Counts n) (hroom : f.Room h) (hn : ∀ b : Fin 512, n' b = n b + (isBitSet h b).toNat) :
    (f.addRaw h).1.Counts n' := by
  intro b
  refine ⟨by rw [m_refCounter_addRaw hroom, (hf b).1, hn], ?_⟩
  rw [hn, TopicBloomFilter.addRaw, isBitSet_or, Bool.or_eq_true, (hf b).2]
  cases isBitSet h b <;> simp

theorem Counts.removeRaw (hf : f.Counts n) (hn : ∀ b : Fin 512, n b = n' b + (isBitSet h b).toNat) : (f.removeRaw h).Counts n' := by
  intro b
  have hb := hn b
  refine ⟨by rw [m_refCounter_removeRaw, (hf b).1]; omega, ?_⟩
  rw [isBitSet_removeRaw, (hf b).1, Bool.and_eq_true, (hf b).2]
  cases hset : isBitSet h b
  · simp [hset] at hb ⊢
    omega
  · simp [hset] at hb ⊢
    omega

end TopicBloomFilter

/-! ## The bloom of a filter -/

namespace TopicFilter

theorem isBitSet_foldl (l : List (AbridgedTopic × AbridgedTopic)) (ret : TopicBloomFilterHash) (b : Nat) :
    isBitSet (l.foldl (fun ret i => ret ||| TopicBloomFilter.bloom i.1) ret) b = true ↔
      isBitSet ret b = true ∨ ∃ i ∈ l, isBitSet (TopicBloomFilter.bloom i.1) b = true := by
  induction l generalizing ret with
  | nil => simp
  | cons i l ih => rw [List.foldl_cons, ih, isBitSet_or, Bool.or_eq_true, List.exists_mem_cons_iff, or_assoc]

/-- The bloom of each topic of a filter is in the bloom of the filter. -/
theorem bloom_of_topics (sha3 : Bytes → H256) {l : List Topic} {t : Topic} (ht : t ∈ l) {b : Nat}
    (hb : isBitSet (TopicBloomFilter.bloom (abridge sha3 t)) b = true) : isBitSet (ofTopics sha3 l).exportBloom b = true := by
  rw [exportBloom, ofTopics, List.foldl_cons, List.foldl_nil, isBitSet_foldl]
  exact .inr ⟨_, List.mem_map_of_mem ht, hb⟩

/-- An envelope that a filter matches has each topic of the filter that is not null. -/
theorem mem_of_matches {sha3 : Bytes → H256} {l : List Topic} {m : Envelope} (hm : (ofTopics sha3 l).matches m = true) {t : Topic}
    (ht : t ∈ l) (hnull : t.bytes.any (· ≠ 0) = true) : abridge sha3 t ∈ m.m_topic := by
  simp only [ofTopics, «matches», List.any_cons, List.any_nil, Bool.or_false, List.all_map, List.all_eq_true, Function.comp] at hm
  obtain ⟨et, het, heq⟩ := List.any_eq_true.mp (hm t ht)
  rw [if_pos hnull, beq_iff_eq, show (0 : AbridgedTopic) = 0#32 from rfl, BitVec.not_zero, BitVec.and_allOnes,
    BitVec.xor_eq_zero_iff] at heq
  rwa [heq]

end TopicFilter

end Shh

end Webthree
