import Webthree.Lemmas.ChainImport

/-!
# Searching the blooms

Which blocks a search finds: each level crops the range only where a chunk is that of one of its ends, and the last chunk is found
by rounding up.
-/

namespace Webthree

/-! ## Increasing lists -/

/-- A strictly increasing list of the numbers of a set. -/
structure Increasing (S : Nat → Prop) (ns : List Nat) : Prop where
  sorted : ns.Pairwise (· < ·)
  mem_iff : ∀ n, n ∈ ns ↔ S n

theorem Increasing.congr {S S' : Nat → Prop} {ns : List Nat} (h : Increasing S ns) (heq : ∀ n, S n ↔ S' n) : Increasing S' ns :=
  ⟨h.sorted, fun n => (h.mem_iff n).trans (heq n)⟩

/-- What is listed for numbers one after the other is in order, if it is for smaller numbers smaller. -/
theorem Increasing.flatten {S : Nat → Nat → Prop} {is : List Nat} {rs : List (List Nat)} (h : List.Forall₂ (fun i ns => Increasing (S i) ns) is rs)
    (hs : is.Pairwise (· < ·)) (hlt : ∀ i j m n, i < j → S i m → S j n → m < n) : Increasing (fun n => ∃ i ∈ is, S i n) rs.flatten := by
  induction h with
  | nil => exact ⟨List.Pairwise.nil, fun n => by simp⟩
  | @cons i ns is rs hi hrest ih =>
    obtain ⟨his, hs⟩ := List.pairwise_cons.mp hs
    have hrs := ih hs
    rw [List.flatten_cons]
    refine ⟨List.pairwise_append.mpr ⟨hi.sorted, hrs.sorted, fun m hm n hn => ?_⟩, fun n => ?_⟩
    · obtain ⟨j, hj, hn⟩ := (hrs.mem_iff n).mp hn
      exact hlt i j m n (his j hj) ((hi.mem_iff m).mp hm) hn
    · rw [List.mem_append, hi.mem_iff, hrs.mem_iff, List.exists_mem_cons_iff]

namespace BlockChain

variable {E : ChainError → BlockChain → Prop} {c : BlockChain} {b : LogBloom} {earliest latest : Nat}

/-! ## The levels -/

/-- What a search keeps, and what it returns. -/
def Finds (c : BlockChain) (S : Nat → Prop) (ns : List Nat) (c' : BlockChain) : Prop := c'.bloomsOf = c.bloomsOf ∧ Increasing S ns

/-- A search in the finest level finds the blocks of a chunk whose blooms are there. -/
theorem withBlockBloomAt_zero (c : BlockChain) (b : LogBloom) (earliest latest index : Nat) :
    Runs (withBlockBloomAt b earliest latest 0 index) c (Finds c fun n => n / 16 = index ∧ (index = earliest / 16 → earliest ≤ n) ∧
      (index = latest / 16 → n ≤ latest) ∧ (c.bloomsOf (chunkId 0 (n / 16)) (bloomOffset n)).contains b = true) E := by
  rw [withBlockBloomAt, runs_bind]
  refine (blocksBlooms_runs c _).mono ?_ fun _ _ h => h
  rintro bb c' ⟨rfl, hr⟩
  refine ⟨funext hr.bloomsOf, ?_, fun n => ?_⟩
  · exact List.Pairwise.map _ (fun a b h => Nat.add_lt_add_right h _) (List.Pairwise.filter _ List.pairwise_lt_range')
  · rw [List.mem_map]
    constructor
    · rintro ⟨o, ho, rfl⟩
      obtain ⟨hrange, hcontains⟩ := List.mem_filter.mp ho
      rw [List.mem_range'_1] at hrange
      norm_num [upow, c_bloomIndexSize] at hrange ⊢
      have ho16 : o < 16 := by
        split at hrange <;> split at hrange <;> omega
      have hindex : (o + index * 16) / 16 = index := by omega
      have hoff : bloomOffset (o + index * 16) = bloomOffset o := Fin.ext (Nat.add_mul_mod_self_right _ _ _)
      rw [hindex, hoff]
      refine ⟨rfl, fun h => ?_, fun h => ?_, hcontains⟩
      · rw [if_pos h] at hrange
        omega
      · rw [if_pos h] at hrange
        omega
    · rintro ⟨rfl, hearliest, hlatest, hcontains⟩
      refine ⟨n % 16, List.mem_filter.mpr ⟨?_, ?_⟩, Nat.mod_add_div' n 16⟩
      · rw [List.mem_range'_1]
        norm_num [upow, c_bloomIndexSize]
        split <;> split <;> omega
      · have hoff : bloomOffset (n % 16) = bloomOffset n := Fin.ext (Nat.mod_mod _ _)
        rw [hoff]
        exact hcontains

/-- A search from the coarser level on finds the blocks of a chunk that are at both places. -/
theorem withBlockBloomAt_one (c : BlockChain) (b : LogBloom) (earliest latest index : Nat) :
    Runs (withBlockBloomAt b earliest latest 1 index) c (Finds c fun n => n / 16 / 16 = index ∧
      (index = earliest / 256 → earliest ≤ n) ∧ (index = latest / 256 → n ≤ latest) ∧ Covers c n b) E := by
  rw [withBlockBloomAt, runs_bind]
  refine (blocksBlooms_runs c _).mono ?_ fun _ _ h => h
  rintro bb c' ⟨rfl, hr⟩
  have heq : c'.bloomsOf = c.bloomsOf := funext hr.bloomsOf
  dsimp only
  rw [runs_bind]
  refine (runs_mapM_forall₂ (I := fun u => u.bloomsOf = c.bloomsOf)
    (R := fun o ns => Increasing (fun n => n / 16 = o + index * 16 ∧ (n / 16 = earliest / 16 → earliest ≤ n) ∧
      (n / 16 = latest / 16 → n ≤ latest) ∧ (c.bloomsOf (chunkId 0 (n / 16)) (bloomOffset n)).contains b = true) ns) heq ?_).mono ?_
    fun _ _ h => h
  · intro o _ t ht
    refine (withBlockBloomAt_zero t b earliest latest (o + index * 16)).mono ?_ fun _ _ h => h
    rintro ns u ⟨hu, hns⟩
    rw [ht] at hns
    refine ⟨hu.trans ht, hns.congr fun n => and_congr_right fun h => ?_⟩
    rw [h]
  · rintro rs u ⟨hu, hrs⟩
    refine ⟨hu, (Increasing.flatten hrs (List.Pairwise.filter _ List.pairwise_lt_range') fun i j m n h hm hn => ?_).congr fun n => ?_⟩
    · have := hm.1
      have := hn.1
      omega
    · rw [covers_iff]
      constructor
      · rintro ⟨o, ho, hn, hearliest, hlatest, hlow⟩
        obtain ⟨hrange, hcontains⟩ := List.mem_filter.mp ho
        rw [List.mem_range'_1] at hrange
        norm_num [upow, c_bloomIndexSize] at hrange
        have ho16 : o < 16 := by
          split at hrange <;> split at hrange <;> omega
        have hindex : n / 16 / 16 = index := by omega
        have hoff : bloomOffset (n / 16) = bloomOffset o := Fin.ext (by
          change n / 16 % 16 = o % 16
          omega)
        rw [hindex, hoff]
        refine ⟨rfl, fun h => ?_, fun h => ?_, hlow, hcontains⟩
        · rw [if_pos h] at hrange
          omega
        · rw [if_pos h] at hrange
          omega
      · rintro ⟨rfl, hearliest, hlatest, hlow, hhigh⟩
        refine ⟨n / 16 % 16, List.mem_filter.mpr ⟨?_, ?_⟩, by omega, fun h => hearliest (by omega), fun h => hlatest (by omega), hlow⟩
        · rw [List.mem_range'_1]
          norm_num [upow, c_bloomIndexSize]
          split <;> split <;> omega
        · have hoff : bloomOffset (n / 16 % 16) = bloomOffset (n / 16) := Fin.ext (Nat.mod_mod _ _)
          rw [hoff]
          exact hhigh

/-! ## Searches -/

/-- What a search finds: the end of the range counts only in its own chunk. -/
theorem withBlockBloom_finds (c : BlockChain) (b : LogBloom) (earliest latest : Nat) :
    Runs (withBlockBloom b earliest latest) c (Finds c fun n => earliest ≤ n ∧ n / 256 ≤ ceilDiv latest 256 ∧
      (n / 256 = latest / 256 → n ≤ latest) ∧ Covers c n b) E := by
  rw [withBlockBloom, runs_bind]
  have hu : upow c_bloomIndexSize c_bloomIndexLevels = 256 := rfl
  rw [hu]
  refine (runs_mapM_forall₂ (I := fun u => u.bloomsOf = c.bloomsOf)
    (R := fun i ns => Increasing (fun n => n / 256 = i ∧ (n / 256 = earliest / 256 → earliest ≤ n) ∧ (n / 256 = latest / 256 → n ≤ latest) ∧
      Covers c n b) ns) rfl ?_).mono ?_ fun _ _ h => h
  · intro i _ t ht
    refine (withBlockBloomAt_one t b earliest latest i).mono ?_ fun _ _ h => h
    rintro ns u ⟨hu, hns⟩
    refine ⟨hu.trans ht, hns.congr fun n => ?_⟩
    have hcovers : Covers t n b ↔ Covers c n b := ⟨fun h => h.congr ht.symm, fun h => h.congr ht⟩
    rw [hcovers, Nat.div_div_eq_div_mul]
    refine and_congr_right fun h => ?_
    rw [h]
  · rintro rs u ⟨hu, hrs⟩
    refine ⟨hu, (Increasing.flatten hrs (List.pairwise_lt_range') fun i j m n h hm hn => ?_).congr fun n => ?_⟩
    · have := hm.1
      have := hn.1
      omega
    · simp only [List.mem_range'_1]
      constructor
      · rintro ⟨i, hi, rfl, hearliest, hlatest, hcovers⟩
        exact ⟨by omega, by omega, hlatest, hcovers⟩
      · rintro ⟨hearliest, htop, hlatest, hcovers⟩
        exact ⟨n / 256, by omega, rfl, fun _ => hearliest, hlatest, hcovers⟩

/-- A search does not change the index. -/
theorem withBlockBloom_keeps (c : BlockChain) (b : LogBloom) (earliest latest : Nat) :
    Runs (withBlockBloom b earliest latest) c (fun _ c' => c'.bloomsOf = c.bloomsOf) E :=
  (withBlockBloom_finds c b earliest latest).mono (fun _ _ h => h.1) fun _ _ h => h

/-- A search finds every block in its range whose bloom is there, unless the last number is rounded up beyond the range of
`unsigned`. -/
theorem withBlockBloom_runs {n : Nat} (he : earliest ≤ n) (hl : n ≤ latest) (hrange : n < 256 ∨ latest ≤ 2 ^ 32 - 256)
    (hb : Covers c n b) : Runs (withBlockBloom b earliest latest) c (fun ns _ => n ∈ ns) E := by
  refine (withBlockBloom_finds c b earliest latest).mono (fun ns u hu => ?_) fun _ _ h => h
  refine (hu.2.mem_iff n).mpr ⟨he, ?_, fun _ => hl, hb⟩
  rw [ceilDiv]
  omega

end BlockChain

end Webthree
