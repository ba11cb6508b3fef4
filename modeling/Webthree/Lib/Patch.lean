import Webthree.Lib.BigEndian

/-!
# Writing into bytes

Parts of a byte string, what writing over a part leaves, and numbers in so many bytes.
-/

namespace Webthree

/-! ## Numbers of fixed length -/

/-- The last bytes of a number, so many of them. -/
def toBigEndianIn : Nat → Nat → Bytes
  | 0, _ => []
  | n + 1, v => toBigEndianIn n (v / 256) ++ [UInt8.ofNat v]

/-- A number in so many bytes has so many bytes. -/
@[simp]
theorem length_toBigEndianIn (n v : Nat) : (toBigEndianIn n v).length = n := by
  induction n generalizing v with
  | zero => rfl
  | succ n ih => rw [toBigEndianIn, List.length_append, ih, List.length_singleton]

/-- Of a number in so many bytes, what does not fit is lost. -/
theorem fromBigEndian_toBigEndianIn (n v : Nat) : fromBigEndian (toBigEndianIn n v) = v % 256 ^ n := by
  induction n generalizing v with
  | zero =>
    rw [Nat.pow_zero, Nat.mod_one]
    rfl
  | succ n ih =>
    have hbyte : (UInt8.ofNat v).toNat = v % 256 := UInt8.toNat_ofNat'
    rw [toBigEndianIn, fromBigEndian_concat, ih, hbyte, pow_succ', Nat.mod_mul, Nat.add_comm]

/-- A number is read back if it fits. -/
theorem fromBigEndian_toBigEndianIn_iff {n v : Nat} : fromBigEndian (toBigEndianIn n v) = v ↔ v < 256 ^ n := by
  rw [fromBigEndian_toBigEndianIn]
  exact ⟨fun h => h ▸ Nat.mod_lt _ (by positivity), Nat.mod_eq_of_lt⟩

/-! ## Parts -/

variable {α : Type}

/-- So many elements from a position on. -/
def slice (l : List α) (p n : Nat) : List α := (l.drop p).take n

/-- Write elements over those from a position on. -/
def store (l : List α) (p : Nat) (v : List α) : List α := l.take p ++ v ++ l.drop (p + v.length)

/-- To store changes no length. -/
theorem length_store {l : List α} {p : Nat} {v : List α} (h : p + v.length ≤ l.length) : (store l p v).length = l.length := by
  simp only [store, List.length_append, List.length_take, List.length_drop]
  omega

/-- Where something is stored it is found, and elsewhere what was there. -/
theorem getElem?_store {l : List α} {p : Nat} {v : List α} (h : p + v.length ≤ l.length) (k : Nat) :
    (store l p v)[k]? = if p ≤ k ∧ k < p + v.length then v[k - p]? else l[k]? := by
  have htake : (l.take p).length = p := by
    rw [List.length_take]
    omega
  unfold store
  by_cases hk : k < p
  · rw [if_neg (by omega), List.append_assoc, List.getElem?_append_left (by omega), List.getElem?_take_of_lt hk]
  · by_cases hk' : k < p + v.length
    · rw [if_pos ⟨by omega, hk'⟩, List.append_assoc, List.getElem?_append_right (by omega), htake,
        List.getElem?_append_left (by omega)]
    · rw [if_neg (by omega), List.getElem?_append_right (by rw [List.length_append]; omega), List.getElem?_drop, List.length_append,
        htake]
      congr 1
      omega

/-- A slice is what lies from its start on. -/
theorem getElem?_slice (l : List α) (p n k : Nat) : (slice l p n)[k]? = if k < n then l[p + k]? else none := by
  unfold slice
  rw [List.getElem?_take, List.getElem?_drop]

/-- What is stored is found there. -/
theorem slice_store_same {l : List α} {p : Nat} {v : List α} (h : p + v.length ≤ l.length) :
    slice (store l p v) p v.length = v := by
  refine List.ext_getElem? fun k => ?_
  rw [getElem?_slice, getElem?_store h]
  by_cases hk : k < v.length
  · rw [if_pos hk, if_pos ⟨by omega, by omega⟩, Nat.add_sub_cancel_left]
  · rw [if_neg hk, List.getElem?_eq_none (by omega)]

/-- Apart from it, nothing changes. -/
theorem slice_store_of_disjoint {l : List α} {p : Nat} {v : List α} (h : p + v.length ≤ l.length) {q n : Nat}
    (hd : q + n ≤ p ∨ p + v.length ≤ q) : slice (store l p v) q n = slice l q n := by
  refine List.ext_getElem? fun k => ?_
  rw [getElem?_slice, getElem?_slice, getElem?_store h]
  by_cases hk : k < n
  · rw [if_pos hk, if_pos hk, if_neg (by omega)]
  · rw [if_neg hk, if_neg hk]

/-- A slice that ends before what is added is one of the first part. -/
theorem slice_append_left {l l' : List α} {p n : Nat} (h : p + n ≤ l.length) : slice (l ++ l') p n = slice l p n := by
  unfold slice
  rw [List.drop_append_of_le_length (by omega), List.take_append_of_le_length (by rw [List.length_drop]; omega)]

/-- A slice that begins behind the first part is one of the second. -/
theorem slice_append_right (l l' : List α) (p n : Nat) : slice (l ++ l') (l.length + p) n = slice l' p n := by
  unfold slice
  rw [List.drop_append, List.drop_eq_nil_of_le (Nat.le_add_right _ _), List.nil_append, Nat.add_sub_cancel_left]

/-- Two lists with one slice agree there. -/
theorem getElem?_eq_of_slice_eq {l l' : List α} {p n : Nat} (h : slice l p n = l') {k : Nat} (hk : k < n) : l[p + k]? = l'[k]? := by
  rw [← h, getElem?_slice, if_pos hk]

/-- A slice goes on behind its first element. -/
theorem slice_of_cons {l cs : List α} {p n : Nat} {c : α} (h : slice l p (1 + n) = c :: cs) : slice l (p + 1) n = cs := by
  unfold slice at *
  rw [← List.tail_drop]
  cases hd : l.drop p with
  | nil =>
    rw [hd, List.take_nil] at h
    cases h
  | cons d ds =>
    rw [hd, Nat.add_comm, List.take_succ_cons] at h
    exact (List.cons.inj h).2

/-- What lies before an element, and the element, fit in the whole. -/
theorem length_take_flatMap_le {β : Type} {f : β → List α} {xs : List β} {k : Nat} {x : β} (h : xs[k]? = some x) :
    ((xs.take k).flatMap f).length + (f x).length ≤ (xs.flatMap f).length := by
  obtain ⟨hk, hx⟩ := List.getElem?_eq_some_iff.mp h
  have hsplit := congrArg (fun ys => (ys.flatMap f).length) (List.take_append_drop k xs)
  rw [← List.getElem_cons_drop hk, hx, List.flatMap_append, List.flatMap_cons, List.length_append, List.length_append] at hsplit
  omega

/-- In a concatenation, each part is found after those before it. -/
theorem slice_flatMap {β : Type} {f : β → List α} {xs : List β} {k : Nat} {x : β} (h : xs[k]? = some x) :
    slice (xs.flatMap f) ((xs.take k).flatMap f).length (f x).length = f x := by
  obtain ⟨hk, hx⟩ := List.getElem?_eq_some_iff.mp h
  have hsplit : xs.flatMap f = (xs.take k).flatMap f ++ (f x ++ (xs.drop (k + 1)).flatMap f) := by
    rw [← hx, ← List.flatMap_cons, ← List.flatMap_append, List.getElem_cons_drop, List.take_append_drop]
  rw [hsplit, ← Nat.add_zero ((xs.take k).flatMap f).length, slice_append_right, slice_append_left (by omega), slice, List.drop_zero, List.take_length]

/-- What is stored in the first part stays there. -/
theorem store_append {l l' : List α} {p : Nat} {v : List α} (h : p + v.length ≤ l.length) :
    store (l ++ l') p v = store l p v ++ l' := by
  unfold store
  rw [List.take_append_of_le_length (by omega), List.drop_append_of_le_length h]
  simp only [List.append_assoc]

/-! ## Many of them -/

/-- Write one after the other. -/
def storeAll (l : List α) (ps : List (Nat × List α)) : List α := ps.foldl (fun l p => store l p.1 p.2) l

theorem storeAll_cons (l : List α) (p : Nat × List α) (ps : List (Nat × List α)) :
    storeAll l (p :: ps) = storeAll (store l p.1 p.2) ps := rfl

/-- Patches are stored one after the other. -/
theorem storeAll_append (l : List α) (ps ps' : List (Nat × List α)) : storeAll l (ps ++ ps') = storeAll (storeAll l ps) ps' :=
  List.foldl_append

/-- All that is written is within. -/
def Within (ps : List (Nat × List α)) (n : Nat) : Prop := ∀ p ∈ ps, p.1 + p.2.length ≤ n

theorem Within.tail {p : Nat × List α} {ps : List (Nat × List α)} {n : Nat} (h : Within (p :: ps) n) : Within ps n :=
  fun q hq => h q (List.mem_cons_of_mem p hq)

/-- To store any patches changes no length. -/
theorem length_storeAll {l : List α} {ps : List (Nat × List α)} (h : Within ps l.length) : (storeAll l ps).length = l.length := by
  induction ps generalizing l with
  | nil => rfl
  | cons p ps ih =>
    have hp := length_store (h p List.mem_cons_self)
    rw [storeAll_cons, ih (by rw [hp]; exact h.tail), hp]

/-- What is stored in the first part leaves the second one alone. -/
theorem storeAll_append_right {l l' : List α} {ps : List (Nat × List α)} (h : Within ps l.length) :
    storeAll (l ++ l') ps = storeAll l ps ++ l' := by
  induction ps generalizing l with
  | nil => rfl
  | cons p ps ih =>
    have hp := h p List.mem_cons_self
    rw [storeAll_cons, storeAll_cons, store_append hp, ih (by rw [length_store hp]; exact h.tail)]

/-- Patches that are elsewhere leave a slice alone. -/
theorem slice_storeAll_of_disjoint {l : List α} {ps : List (Nat × List α)} (h : Within ps l.length) {q n : Nat}
    (hd : ∀ p ∈ ps, q + n ≤ p.1 ∨ p.1 + p.2.length ≤ q) : slice (storeAll l ps) q n = slice l q n := by
  induction ps generalizing l with
  | nil => rfl
  | cons p ps ih =>
    have hp := h p List.mem_cons_self
    rw [storeAll_cons, ih (by rw [length_store hp]; exact h.tail) fun p hp => hd p (List.mem_cons_of_mem _ hp),
      slice_store_of_disjoint hp (hd p List.mem_cons_self)]

/-- What is stored is found, if all the others are stored elsewhere, or are the same. -/
theorem slice_storeAll_of_mem {l : List α} {ps : List (Nat × List α)} (h : Within ps l.length) {q : Nat} {v : List α}
    (hm : (q, v) ∈ ps) (hd : ∀ p ∈ ps, p = (q, v) ∨ q + v.length ≤ p.1 ∨ p.1 + p.2.length ≤ q) :
    slice (storeAll l ps) q v.length = v := by
  induction ps using List.reverseRecOn with
  | nil => cases hm
  | append_singleton ps p ih =>
    have hps : Within ps l.length := fun q hq => h q (List.mem_append_left _ hq)
    have hp : p.1 + p.2.length ≤ (storeAll l ps).length := by
      rw [length_storeAll hps]
      exact h p (List.mem_append_right _ List.mem_cons_self)
    rw [storeAll_append]
    show slice (store (storeAll l ps) p.1 p.2) q v.length = v
    rcases hd p (List.mem_append_right _ List.mem_cons_self) with rfl | hne
    · exact slice_store_same hp
    · rw [slice_store_of_disjoint hp hne]
      rcases List.mem_append.mp hm with hm | hm
      · exact ih hps hm fun p hp => hd p (List.mem_append_left _ hp)
      · rw [← List.mem_singleton.mp hm] at hne
        -- a value stored beside itself is empty
        have hv : v.length = 0 := by dsimp only at hne; omega
        rw [List.eq_nil_of_length_eq_zero hv]
        rfl

end Webthree
