import Webthree.Lib.BigEndian

/-!
# RLP items

What an RLP byte string denotes: a finite tree of byte strings and lists, and the one byte string that encodes it. This is the
statement of what the reader (`Rlp.Reader`) and the writer (`Rlp.Stream`) are for; both are compared with it.
-/

namespace Webthree

/-- `c_rlpMaxLengthBytes` -/
def c_rlpMaxLengthBytes : Nat := 8
/-- `c_rlpDataImmLenStart` -/
def c_rlpDataImmLenStart : Nat := 0x80
/-- `c_rlpListStart` -/
def c_rlpListStart : Nat := 0xc0
/-- `c_rlpDataImmLenCount` -/
def c_rlpDataImmLenCount : Nat := c_rlpListStart - c_rlpDataImmLenStart - c_rlpMaxLengthBytes
/-- `c_rlpDataIndLenZero` -/
def c_rlpDataIndLenZero : Nat := c_rlpDataImmLenStart + c_rlpDataImmLenCount - 1
/-- `c_rlpListImmLenCount` -/
def c_rlpListImmLenCount : Nat := 256 - c_rlpListStart - c_rlpMaxLengthBytes
/-- `c_rlpListIndLenZero` -/
def c_rlpListIndLenZero : Nat := c_rlpListStart + c_rlpListImmLenCount - 1

theorem c_rlpDataImmLenStart_eq : c_rlpDataImmLenStart = 0x80 := by decide
theorem c_rlpListStart_eq : c_rlpListStart = 0xc0 := by decide
theorem c_rlpDataImmLenCount_eq : c_rlpDataImmLenCount = 56 := by decide
theorem c_rlpDataIndLenZero_eq : c_rlpDataIndLenZero = 0xb7 := by decide
theorem c_rlpListImmLenCount_eq : c_rlpListImmLenCount = 56 := by decide
theorem c_rlpListIndLenZero_eq : c_rlpListIndLenZero = 0xf7 := by decide

/-- A finite tree of byte strings and lists. -/
inductive Item where
  | data (b : Bytes)
  | list (l : List Item)

namespace Item

/-- The bytes in front of a payload of `len` bytes: one byte from `start` on for fewer than 56 bytes, and otherwise the number
of bytes of the length, counted from `start + 55`, and the length itself. -/
def header (start len : Nat) : Bytes :=
  if len < 56 then [UInt8.ofNat (start + len)] else UInt8.ofNat (start + 55 + bytesRequired len) :: toBigEndian len

/-- A byte string as an item: a byte below `0x80` is its own encoding. -/
def encodeData (b : Bytes) : Bytes :=
  match b with
  | [x] => if x.toNat < c_rlpDataImmLenStart then [x] else header c_rlpDataImmLenStart 1 ++ [x]
  | b => header c_rlpDataImmLenStart b.length ++ b

mutual
/-- The encoding of an item. -/
def encode : Item → Bytes
  | .data b => encodeData b
  | .list l => header c_rlpListStart (encodeAll l).length ++ encodeAll l
/-- The encodings of the items of a list, one after the other. -/
def encodeAll : List Item → Bytes
  | [] => []
  | x :: xs => x.encode ++ encodeAll xs
end

@[simp] theorem encode_data (b : Bytes) : (data b).encode = encodeData b := by rw [encode]

@[simp] theorem encode_list (l : List Item) :
    (list l).encode = header c_rlpListStart (encodeAll l).length ++ encodeAll l := by rw [encode]

@[simp] theorem encodeAll_nil : encodeAll [] = [] := by rw [encodeAll]

@[simp] theorem encodeAll_cons (x : Item) (xs : List Item) : encodeAll (x :: xs) = x.encode ++ encodeAll xs := by
  rw [encodeAll]

/-- A property of every item, from the byte strings up: what holds of the members of a list holds of the list. -/
@[elab_as_elim] theorem induction {motive : Item → Prop} (hdata : ∀ b, motive (data b))
    (hlist : ∀ l, (∀ x ∈ l, motive x) → motive (list l)) (x : Item) : motive x := by
  refine Item.rec (motive_1 := motive) (motive_2 := fun l => ∀ x ∈ l, motive x) hdata (fun l ih => hlist l ih) ?_ ?_ x
  · intro y hy
    exact absurd hy List.not_mem_nil
  · intro y ys hy hys z hz
    rcases List.mem_cons.mp hz with rfl | hz
    · exact hy
    · exact hys z hz

/-- A header is never empty. -/
theorem header_length_pos (start len : Nat) : 0 < (header start len).length := by
  unfold header
  split <;> simp

theorem encodeData_length_pos (b : Bytes) : 0 < (encodeData b).length := by
  unfold encodeData
  split
  · split
    · simp
    · simp
  · have := header_length_pos c_rlpDataImmLenStart b.length
    simp only [List.length_append]
    omega

/-- A byte string is no longer than its encoding. -/
theorem length_le_encodeData (b : Bytes) : b.length ≤ (encodeData b).length := by
  unfold encodeData
  split
  · split
    · simp
    · simp
  · simp

/-- The encoding of an item is never empty. -/
theorem encode_length_pos (x : Item) : 0 < x.encode.length := by
  cases x with
  | data b => rw [encode_data]; exact encodeData_length_pos b
  | list l =>
    have := header_length_pos c_rlpListStart (encodeAll l).length
    rw [encode_list, List.length_append]
    omega

/-- A member of a list is encoded in fewer bytes than the list. -/
theorem encode_length_le_encodeAll {x : Item} {l : List Item} (h : x ∈ l) : x.encode.length ≤ (encodeAll l).length := by
  induction l with
  | nil => exact absurd h List.not_mem_nil
  | cons y ys ih =>
    rw [encodeAll_cons, List.length_append]
    rcases List.mem_cons.mp h with rfl | h
    · omega
    · have := ih h
      omega

end Item

end Webthree
