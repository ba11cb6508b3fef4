import Webthree.Asm.Assembly

/-!
# What is where in an assembly

The layout of an assembled assembly: the items, a separator, the parts that are referred to, and the data that is referred to. It is
known from the widths of the references and the sizes of the parts alone, before anything is assembled.
-/

namespace Webthree

/-- What the layout depends on. -/
structure Layout where
  items : List AssemblyItem
  data : List (U256 × Bytes)
  /-- The sizes of the parts. -/
  sizes : List Nat
  bytesPerTag : Nat
  bytesPerDataRef : Nat

namespace Layout

variable (l : Layout)

/-- The bytes that an item is assembled to. -/
def itemSize (i : AssemblyItem) : Nat :=
  match i.type with
  | .Operation | .Tag => 1
  | .PushString => 33
  | .Push => 1 + max 1 (bytesRequired i.data.toNat)
  | .PushTag => 1 + l.bytesPerTag
  | .PushData | .PushSub | .PushProgramSize => 1 + l.bytesPerDataRef
  | .PushSubSize => 1 + max 1 (bytesRequired (l.sizes[size_t i.data.toNat]?.getD 0))
  | .PushLibraryAddress => 21
  | .UndefinedItem => 0

/-- Where the item with an index is. -/
def position (k : Nat) : Nat := ((l.items.take k).map l.itemSize).sum

/-- The bytes of all the items. -/
def codeSize : Nat := (l.items.map l.itemSize).sum

/-- The part with an index is pushed. -/
def subReferred (i : Nat) : Bool := l.items.any fun x => x.type = .PushSub ∧ size_t x.data.toNat = i

/-- The data with a key is pushed. -/
def dataReferred (k : U256) : Bool := l.items.any fun x => x.type = .PushData ∧ x.data = k

/-- Between the items and the parts. -/
def separator : Nat :=
  if (l.items.any fun x => x.type = .PushData) ∧ (l.items.any fun x => x.type = .PushSub) then 1 else 0

/-- The bytes that the parts take, each as many as its size if it is pushed. -/
def subSizes : List Nat := l.sizes.zipIdx.map fun n => if l.subReferred n.2 then n.1 else 0

/-- The bytes that the data takes. -/
def dataSizes : List Nat := l.data.map fun d => if l.dataReferred d.1 then d.2.length else 0

/-- Where the part with an index is. -/
def subOffset (i : Nat) : Nat := l.codeSize + l.separator + (l.subSizes.take i).sum

/-- Where the data with an index is. -/
def dataOffset (j : Nat) : Nat := l.codeSize + l.separator + l.subSizes.sum + (l.dataSizes.take j).sum

/-- The bytes of all. -/
def size : Nat := l.codeSize + l.separator + l.subSizes.sum + l.dataSizes.sum

/-- The number by which a tag is known. -/
def tagNumber (i : AssemblyItem) : Nat := unsigned i.data.toNat

/-- The item with index `j` is the last one to define the tag with a number. -/
def Defines (n j : Nat) : Prop :=
  (∃ x, l.items[j]? = some x ∧ x.type = .Tag ∧ tagNumber x = n) ∧
    ∀ k x, j < k → l.items[k]? = some x → x.type = .Tag → tagNumber x ≠ n

end Layout

namespace Assembly

/-- The layout, where the parts have these sizes. -/
def layoutWith (a : Assembly) (sizes : List Nat) : Layout where
  items := a.m_items
  data := a.m_data
  sizes
  bytesPerTag := Webthree.bytesRequired (a.bytesRequired.toOption.getD 0)
  bytesPerDataRef := Webthree.bytesRequired (unsigned (a.bytesRequired.toOption.getD 0 + sizes.sum))

mutual

/-- The size of an assembly. -/
def size : Assembly → Nat
  | ⟨usedTags, items, data, sorted, subs, strings, libraries⟩ =>
    (layoutWith ⟨usedTags, items, data, sorted, subs, strings, libraries⟩ (sizes subs)).size

/-- The sizes of parts. -/
def sizes : List Assembly → List Nat
  | [] => []
  | sub :: subs => sub.size :: sizes subs

end

def layout (a : Assembly) : Layout := a.layoutWith (sizes a.m_subs)

/-- No operand is truncated: what is pushed fits into the bytes that references have. -/
structure Fits (a : Assembly) : Prop where
  tags : ∀ x ∈ a.m_items, x.type = .PushTag → Layout.tagNumber x ≠ 0 → ∀ j, a.layout.Defines (Layout.tagNumber x) j →
    a.layout.position j < 256 ^ a.layout.bytesPerTag
  data : ∀ x ∈ a.m_items, x.type = .PushData → ∀ j d, a.m_data[j]? = some d → d.1 = x.data →
    a.layout.dataOffset j < 256 ^ a.layout.bytesPerDataRef
  subs : ∀ x ∈ a.m_items, x.type = .PushSub → size_t x.data.toNat < a.m_subs.length →
    a.layout.subOffset (size_t x.data.toNat) < 256 ^ a.layout.bytesPerDataRef
  programSize : ∀ x ∈ a.m_items, x.type = .PushProgramSize → a.layout.size < 256 ^ a.layout.bytesPerDataRef

/-- Every position in the code of the items fits into an `unsigned`, and the size of every part into a `size_t`. -/
def InRange (a : Assembly) : Prop := a.layout.codeSize < 2 ^ 32 ∧ ∀ n ∈ a.layout.sizes, n < 2 ^ 64

/-- The operand of the push instruction at a position. -/
def operand (code : Bytes) (p : Nat) : Nat := fromBigEndian (slice code (p + 1) ((code[p]?.getD 0).toNat - 0x5f))

/-- Every reference has what it refers to for its operand. The tag zero is the one that leads nowhere. -/
structure Resolved (a : Assembly) (code : Bytes) : Prop where
  tags : ∀ k x, a.m_items[k]? = some x → x.type = .PushTag → Layout.tagNumber x ≠ 0 → ∀ j, a.layout.Defines (Layout.tagNumber x) j →
    operand code (a.layout.position k) = a.layout.position j ∧ code[a.layout.position j]? = some 0x5b
  data : ∀ k x, a.m_items[k]? = some x → x.type = .PushData → ∀ j d, a.m_data[j]? = some d → d.1 = x.data →
    operand code (a.layout.position k) = a.layout.dataOffset j ∧ slice code (a.layout.dataOffset j) d.2.length = d.2
  subs : ∀ k x, a.m_items[k]? = some x → x.type = .PushSub → ∀ sub, a.m_subs[size_t x.data.toNat]? = some sub →
    operand code (a.layout.position k) = a.layout.subOffset (size_t x.data.toNat) ∧
      ∃ object, sub.assemble = .ok object ∧ slice code (a.layout.subOffset (size_t x.data.toNat)) object.bytecode.length = object.bytecode
  subSizes : ∀ k x, a.m_items[k]? = some x → x.type = .PushSubSize →
    ∃ sub object, a.m_subs[size_t x.data.toNat]? = some sub ∧ sub.assemble = .ok object ∧
      operand code (a.layout.position k) = object.bytecode.length
  programSize : ∀ k x, a.m_items[k]? = some x → x.type = .PushProgramSize → operand code (a.layout.position k) = code.length

end Assembly

end Webthree
