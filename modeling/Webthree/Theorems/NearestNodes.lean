import Webthree.Lib.Nearest
import Webthree.Net.NodeTable
import Webthree.Theorems.NodeBuckets

/-!
# The nearest nodes

What `nearestNodeEntries` finds, and when that is the nearest there is. The search ends when it has come to the last bucket, whatever
is left in the other direction, and from a distance other than 0 it never comes to the first bucket.
-/

namespace Webthree

namespace NodeTable

open Nearest

variable {P : NodeTableParams} {m : Moment} {s : NodeTable} {target : NodeID}

/-- How far an entry is from a target. -/
def distanceTo (P : NodeTableParams) (s : NodeTable) (target : NodeID) (p : Nat) : Nat := distance P target (s.entry p).id

/-- The entries of a bucket that are still there. -/
def live (m : Moment) (s : NodeTable) (i : Nat) : List Nat := (s.m_state i).filter (s.lock m)

/-- The entries that the table could give. -/
def contents (P : NodeTableParams) (m : Moment) (s : NodeTable) : List Nat :=
  ((List.range s_bins).flatMap (live m s)).filter (usable P s)

/-- The buckets that the search comes to, for the distance of the target. -/
def Searched (head i : Nat) : Prop :=
  if head = 0 then True else if head = s_bins then 0 < i else head ≤ i ∨ 0 < i ∧ 2 * head ≤ i + s_bins

instance (head i : Nat) : Decidable (Searched head i) := by
  unfold Searched
  infer_instance

theorem distance_lt (a b : NodeID) : distance P a b < s_bits := by
  rw [distance]
  by_cases hzero : (P.sha3 a ^^^ P.sha3 b).toNat = 0
  · rw [hzero]
    decide
  · exact (Nat.log2_lt hzero).mpr (P.sha3 a ^^^ P.sha3 b).isLt

/-! ## What is found -/

/-- These entries have been found. -/
def holding (P : NodeTableParams) (s : NodeTable) (target : NodeID) (l : List Nat) : Found :=
  fun d => l.filter fun p => distanceTo P s target p = d

theorem holding_nil : holding P s target [] = fun _ => [] := rfl

theorem holding_push (l : List Nat) (p : Nat) :
    (holding P s target l).push_back (distance P target (s.entry p).id) p = holding P s target (l ++ [p]) := by
  funext d
  by_cases hd : d = distance P target (s.entry p).id
  · rw [Found.push_back, if_pos hd]
    simp [holding, distanceTo, hd]
  · have hd' : ¬ distance P target (s.entry p).id = d := fun h => hd h.symm
    rw [Found.push_back, if_neg hd]
    simp [holding, distanceTo, hd']

theorem gatherNodes_holding (nodes l : List Nat) :
    gatherNodes P m s target 0 nodes (holding P s target l) = holding P s target (l ++ nodes.filter (s.lock m)) := by
  induction nodes generalizing l with
  | nil => simp [gatherNodes]
  | cons p nodes ih =>
    have hroom : 0 < s_bucketSize := by decide
    rw [gatherNodes]
    by_cases hp : s.lock m p = true
    · rw [if_pos hp, if_pos hroom, holding_push, ih, List.filter_cons_of_pos hp, List.append_assoc, List.singleton_append]
    · rw [if_neg hp, ih, List.filter_cons_of_neg hp]

theorem gather_holding (l : List Nat) (i : Nat) :
    gather P m s target 0 i (holding P s target l) = holding P s target (l ++ live m s i) := gatherNodes_holding _ l

/-- The buckets in both directions, turn by turn. -/
def spreadBins : (turns head tail : Nat) → List Nat
  | 0, _, _ => []
  | n + 1, head, tail => head :: ((if tail ≠ 0 then [tail] else []) ++ spreadBins n (head + 1) (tail - 1))

theorem spread_holding (n : Nat) {head tail : Nat} (hlt : tail < head) (hend : head + n = s_bins) (l : List Nat) :
    spread P m s target 0 head tail (holding P s target l) =
      holding P s target (l ++ (spreadBins n head tail).flatMap (live m s)) := by
  have hroom : 0 < s_bucketSize := by decide
  induction n generalizing head tail l with
  | zero =>
    rw [spread, if_neg (by omega), spreadBins, List.flatMap_nil, List.append_nil]
  | succ n ih =>
    rw [spread, if_pos ⟨by omega, by omega, hroom⟩, gather_holding, spreadBins, List.flatMap_cons, List.flatMap_append,
      ← List.append_assoc, ← List.append_assoc]
    dsimp only
    by_cases htail : tail ≠ 0
    · have hboth : 0 < s_bucketSize ∧ tail ≠ 0 := ⟨hroom, htail⟩
      simp only [if_pos hboth, if_pos htail]
      rw [gather_holding, ih (by omega) (by omega), List.flatMap_singleton]
    · have hone : ¬ (0 < s_bucketSize ∧ tail ≠ 0) := fun hboth => htail hboth.2
      have hzero : tail - 1 = tail := by omega
      simp only [if_neg hone, if_neg htail]
      rw [ih (by omega) (by omega), List.flatMap_nil, List.append_nil, hzero]

theorem rollForward_holding (n : Nat) {head : Nat} (hend : head + n = s_bins) (l : List Nat) :
    rollForward P m s target 0 head (holding P s target l) =
      holding P s target (l ++ (List.range' head n).flatMap (live m s)) := by
  have hroom : 0 < s_bucketSize := by decide
  induction n generalizing head l with
  | zero => rw [rollForward, if_neg (by omega), List.range'_zero, List.flatMap_nil, List.append_nil]
  | succ n ih =>
    rw [rollForward, if_pos ⟨by omega, hroom⟩, gather_holding, ih (by omega), List.range'_succ, List.flatMap_cons, List.append_assoc]

theorem reverse_holding (tail : Nat) (l : List Nat) : reverse P m s target 0 tail (holding P s target l) =
    holding P s target (l ++ (List.range' 1 tail).reverse.flatMap (live m s)) := by
  have hroom : 0 < s_bucketSize := by decide
  induction tail generalizing l with
  | zero => simp [reverse]
  | succ tail ih =>
    rw [reverse, if_pos hroom, gather_holding, ih, List.range'_concat, List.reverse_append, List.reverse_singleton,
      List.singleton_append, List.flatMap_cons, List.append_assoc, Nat.one_mul, Nat.add_comm 1 tail]

/-- Where the search goes back from. -/
def tailOf (head : Nat) : Nat := if head = 0 then s_bins - 1 else (head - 1) % s_bins

/-- It spreads from a bucket and the one before, unless it begins at an end. -/
theorem tailOf_cases {head : Nat} (hlt : head < s_bits) :
    head < 2 ∨ head = s_bins ∧ tailOf head = s_bins - 1 ∨ 1 < head ∧ head < s_bins ∧ tailOf head = head - 1 := by
  have hbins : s_bins = 255 := rfl
  have hbits : s_bits = 256 := rfl
  by_cases hfew : head < 2
  · exact .inl hfew
  · have htail : tailOf head = head - 1 := by
      rw [tailOf, if_neg (by omega), Nat.mod_eq_of_lt (by omega)]
    rw [htail]
    omega

/-- The buckets that the search comes to, in its order. -/
def bins (head : Nat) : List Nat :=
  if 1 < head ∧ tailOf head ≠ s_bins - 1 then spreadBins (s_bins - head) head (tailOf head)
  else if head < 2 then List.range' head (s_bins - head)
  else (List.range' 1 (tailOf head)).reverse

theorem search_eq : search P m s target = holding P s target ((bins (distance P P.id target)).flatMap (live m s)) := by
  have hcases := tailOf_cases (distance_lt (P := P) P.id target)
  have hbins : s_bins = 255 := rfl
  unfold search bins
  have hnil : holding P s target [] = _ := holding_nil
  rw [← hnil]
  generalize distance P P.id target = head at hcases ⊢
  change (if 1 < head ∧ tailOf head ≠ s_bins - 1 then _ else _) = _
  by_cases hspread : 1 < head ∧ tailOf head ≠ s_bins - 1
  · rw [if_pos hspread, if_pos hspread]
    have hgo : spread P m s target 0 head (tailOf head) (holding P s target []) =
        holding P s target ([] ++ (spreadBins (s_bins - head) head (tailOf head)).flatMap (live m s)) :=
      spread_holding _ (by omega) (by omega) []
    rwa [List.nil_append] at hgo
  · rw [if_neg hspread, if_neg hspread]
    by_cases hfew : head < 2
    · rw [if_pos hfew, if_pos hfew, rollForward_holding (s_bins - head) (by omega), List.nil_append]
    · rw [if_neg hfew, if_neg hfew]
      have hgo : reverse P m s target 0 (tailOf head) (holding P s target []) =
          holding P s target ([] ++ (List.range' 1 (tailOf head)).reverse.flatMap (live m s)) := reverse_holding _ []
      rwa [List.nil_append] at hgo

/-! ## The buckets -/

theorem mem_spreadBins (n : Nat) {head tail i : Nat} :
    i ∈ spreadBins n head tail ↔ head ≤ i ∧ i < head + n ∨ 0 < i ∧ i ≤ tail ∧ tail < i + n := by
  induction n generalizing head tail with
  | zero =>
    rw [spreadBins]
    simp only [List.not_mem_nil, false_iff]
    omega
  | succ n ih =>
    rw [spreadBins, List.mem_cons, List.mem_append, ih]
    by_cases htail : tail ≠ 0
    · rw [if_pos htail, List.mem_singleton]
      omega
    · rw [if_neg htail]
      simp only [List.not_mem_nil, false_or]
      omega

theorem nodup_spreadBins (n : Nat) {head tail : Nat} (hlt : tail < head) : (spreadBins n head tail).Nodup := by
  induction n generalizing head tail with
  | zero => exact List.nodup_nil
  | succ n ih =>
    have hrest : (spreadBins n (head + 1) (tail - 1)).Nodup := ih (by omega)
    have hhead : head ∉ spreadBins n (head + 1) (tail - 1) := by
      rw [mem_spreadBins]
      omega
    rw [spreadBins]
    by_cases htail : tail ≠ 0
    · have hback : tail ∉ spreadBins n (head + 1) (tail - 1) := by
        rw [mem_spreadBins]
        omega
      have hne : head ≠ tail := by omega
      rw [if_pos htail, List.singleton_append]
      simp [hrest, hhead, hback, hne]
    · rw [if_neg htail, List.nil_append]
      exact List.nodup_cons.mpr ⟨hhead, hrest⟩

/-- The search comes to a bucket once, or not at all. -/
theorem bins_spec {head : Nat} (hlt : head < s_bits) : (bins head).Nodup ∧ ∀ i, i ∈ bins head ↔ i < s_bins ∧ Searched head i := by
  have hbins : s_bins = 255 := rfl
  have hbits : s_bits = 256 := rfl
  unfold bins
  rcases tailOf_cases hlt with hfew | ⟨hlast, htail⟩ | ⟨hhead, hlast, htail⟩
  · rw [if_neg (by omega), if_pos hfew]
    refine ⟨List.nodup_range', fun i => ?_⟩
    rw [List.mem_range'_1, Searched]
    by_cases hzero : head = 0
    · rw [if_pos hzero, and_true]
      omega
    · rw [if_neg hzero, if_neg (by omega)]
      omega
  · rw [if_neg (by omega), if_neg (by omega), htail]
    refine ⟨List.nodup_reverse.mpr List.nodup_range', fun i => ?_⟩
    rw [List.mem_reverse, List.mem_range'_1, Searched, if_neg (by omega), if_pos hlast]
    omega
  · rw [if_pos (by omega), htail]
    refine ⟨nodup_spreadBins _ (by omega), fun i => ?_⟩
    rw [mem_spreadBins, Searched, if_neg (by omega), if_neg (by omega)]
    omega

/-- The entries of buckets are all different. -/
theorem nodup_live (h : Ordered s) {is : List Nat} (his : is.Nodup) : (is.flatMap (live m s)).Nodup := by
  refine List.nodup_flatMap.mpr ⟨fun i _ => (h.nodup i).filter _, ?_⟩
  refine his.imp fun hij => ?_
  intro p hp hq
  have hi := (h.place _ p (List.mem_of_mem_filter hp)).2
  have hj := (h.place _ p (List.mem_of_mem_filter hq)).2
  exact hij (hi.symm.trans hj)

theorem mem_live_flatMap (h : Ordered s) {is : List Nat} {p : Nat} : p ∈ is.flatMap (live m s) ↔
    bucket_UNSAFE (s.entry p) ∈ is ∧ p ∈ live m s (bucket_UNSAFE (s.entry p)) := by
  rw [List.mem_flatMap]
  constructor
  · rintro ⟨i, hi, hp⟩
    obtain rfl := (h.place i p (List.mem_of_mem_filter hp)).2
    exact ⟨hi, hp⟩
  · rintro ⟨hi, hp⟩
    exact ⟨_, hi, hp⟩

/-- The loop over what was found keeps the first entries that may be given. -/
theorem foldl_take (l ret : List Nat) (hret : ret.length ≤ s_bucketSize) :
    l.foldl (fun ret p => if ret.length < s_bucketSize ∧ usable P s p then ret ++ [p] else ret) ret =
      ret ++ (l.filter (usable P s)).take (s_bucketSize - ret.length) := by
  induction l generalizing ret with
  | nil => simp
  | cons p l ih =>
    rw [List.foldl_cons]
    by_cases hp : usable P s p = true
    · rw [List.filter_cons_of_pos hp]
      by_cases hroom : ret.length < s_bucketSize
      · rw [if_pos ⟨hroom, hp⟩, ih _ (by rw [List.length_append]; exact hroom)]
        obtain ⟨k, hk⟩ : ∃ k, s_bucketSize - ret.length = k + 1 := ⟨s_bucketSize - ret.length - 1, by omega⟩
        have hk' : s_bucketSize - (ret ++ [p]).length = k := by
          rw [List.length_append, List.length_singleton]
          omega
        rw [hk, hk', List.take_succ_cons, List.append_assoc, List.singleton_append]
      · have hfull : s_bucketSize - ret.length = 0 := by omega
        rw [if_neg fun h => hroom h.1, ih _ hret, hfull, List.take_zero, List.take_zero]
    · rw [List.filter_cons_of_neg hp, if_neg fun h => hp h.2, ih _ hret]

theorem nearestNodeEntries_eq : nearestNodeEntries P m s target =
    ((shelves (distanceTo P s target) s_bits ((bins (distance P P.id target)).flatMap (live m s))).filter (usable P s)).take
      s_bucketSize := by
  rw [nearestNodeEntries, foldl_take _ [] (Nat.zero_le _), List.nil_append, List.length_nil, Nat.sub_zero, search_eq]
  rfl

/-- In buckets that are in order, the nearest entries are given exactly if each in a bucket that the search does not come to has enough
before it in the others. -/
theorem chosen_iff_of_ordered (h : Ordered s) :
    Chosen s_bucketSize (distanceTo P s target) (contents P m s) (nearestNodeEntries P m s target) ↔
      ∀ p ∈ contents P m s, ¬ Searched (distance P P.id target) (bucket_UNSAFE (s.entry p)) →
        s_bucketSize ≤ (within (distanceTo P s target) (distanceTo P s target p)
          ((contents P m s).filter fun q => Searched (distance P P.id target) (bucket_UNSAFE (s.entry q)))).length := by
  obtain ⟨hnodup, hmem⟩ := bins_spec (distance_lt (P := P) P.id target)
  have hfound := nodup_live (m := m) h hnodup
  have hall : (contents P m s).Nodup := (nodup_live h List.nodup_range).filter _
  have hseen : (((bins (distance P P.id target)).flatMap (live m s)).filter (usable P s)).Nodup := hfound.filter _
  have hmemAll : ∀ p, p ∈ contents P m s ↔ (bucket_UNSAFE (s.entry p) < s_bins ∧ p ∈ live m s (bucket_UNSAFE (s.entry p))) ∧
      usable P s p = true := by
    intro p
    rw [contents, List.mem_filter, mem_live_flatMap h, List.mem_range]
  -- what is seen is what there is in the buckets that the search comes to
  have hmemSeen : ∀ p, p ∈ ((bins (distance P P.id target)).flatMap (live m s)).filter (usable P s) ↔
      p ∈ contents P m s ∧ Searched (distance P P.id target) (bucket_UNSAFE (s.entry p)) := by
    intro p
    rw [hmemAll, List.mem_filter, mem_live_flatMap h, hmem]
    constructor
    · rintro ⟨⟨⟨hlt, hsearched⟩, hlive⟩, husable⟩
      exact ⟨⟨⟨hlt, hlive⟩, husable⟩, hsearched⟩
    · rintro ⟨⟨⟨hlt, hlive⟩, husable⟩, hsearched⟩
      exact ⟨⟨⟨hlt, hsearched⟩, hlive⟩, husable⟩
  have hsorted := (shelves_sorted (distanceTo P s target) s_bits
    ((bins (distance P P.id target)).flatMap (live m s))).filter (usable P s)
  have hperm := (shelves_perm (distanceTo P s target) s_bits
    ((bins (distance P P.id target)).flatMap (live m s))).filter (usable P s)
  have hevery : (((bins (distance P P.id target)).flatMap (live m s)).filter fun p => distanceTo P s target p < s_bits) =
      (bins (distance P P.id target)).flatMap (live m s) :=
    List.filter_eq_self.mpr fun p _ => decide_eq_true (distance_lt _ _)
  rw [hevery] at hperm
  have hsame : (((bins (distance P P.id target)).flatMap (live m s)).filter (usable P s)).Perm
      ((contents P m s).filter fun q => Searched (distance P P.id target) (bucket_UNSAFE (s.entry q))) := by
    refine (List.perm_ext_iff_of_nodup hseen (hall.filter _)).mpr fun p => ?_
    rw [hmemSeen, List.mem_filter, decide_eq_true_iff]
  rw [nearestNodeEntries_eq, chosen_take_iff hall hseen (fun p hp => ((hmemSeen p).mp hp).1) hperm hsorted]
  refine forall₂_congr fun p hp => ?_
  rw [hmemSeen, not_and, length_within_perm hsame]
  exact ⟨fun hnear hnot => hnear fun _ => hnot, fun hnear hnot => hnear (hnot hp)⟩

/-- After any calls, the nearest entries are given exactly if each in a bucket that the search does not come to has enough before it in
the others. -/
theorem nearestNodeEntries_chosen_iff (P : NodeTableParams) (m : Moment) (calls : List TableCall) (target : NodeID) :
    let s := after P calls
    let searched := fun p => Searched (distance P P.id target) (bucket_UNSAFE (s.entry p))
    Chosen s_bucketSize (distanceTo P s target) (contents P m s) (nearestNodeEntries P m s target) ↔
      ∀ p ∈ contents P m s, ¬ searched p → s_bucketSize ≤
        (within (distanceTo P s target) (distanceTo P s target p) ((contents P m s).filter fun q => searched q)).length :=
  chosen_iff_of_ordered (ordered_after calls)

open EvictionSample

/-- A table of three nodes gives none of them for a target far away from all. -/
theorem nearestNodeEntries_not_chosen : ¬ ∀ (P : NodeTableParams) (m : Moment) (calls : List TableCall) (target : NodeID),
    Chosen s_bucketSize (distanceTo P (after P calls) target) (contents P m (after P calls))
      (nearestNodeEntries P m (after P calls) target) := by
  intro h
  have hchosen := (chosen_iff_of_ordered (ordered_after three)).mp (h params ⟨0, []⟩ three (1 <<< 254))
  have hcount := hchosen 0 (by decide +kernel) (by decide +kernel)
  exact absurd hcount (by decide +kernel)

end NodeTable

end Webthree
