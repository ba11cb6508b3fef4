import Webthree.Asm.Assembly
import Mathlib.Data.List.Basic

/-!
# Putting assemblies together

`Assembly::append` and what an assembly is built with: the members that make items, and the height of the stack that is kept along.
The source locations of items are left out, as they are elsewhere. Nothing reads the height of a part's stack.

A tag that is pushed stands for the places where it is defined, a hash for what is kept under it, and a number of a part for that
part. An assembly is well formed when it gave out what its items refer to, which the members that make items and append them see to.
-/

namespace Webthree

instance : IsStrictTotalOrder U256 (· < ·) where
  trichotomous _ _ hab hba := BitVec.le_antisymm (BitVec.not_lt.mp hba) (BitVec.not_lt.mp hab)
  irrefl a := BitVec.lt_irrefl a
  trans _ _ _ hab hbc := BitVec.lt_trans hab hbc

namespace AssemblyItem

/-- `errorTag()`: the tag `0` is reserved for the exception. -/
def errorTag : AssemblyItem := .pushTag 0

/-- An item that is no operation, with other data. -/
def setData (i : AssemblyItem) (d : U256) (h : i.type ≠ .Operation) : AssemblyItem := ⟨i.type, d, fun ho => absurd ho h⟩

end AssemblyItem

/-- An assembly, with the height of the stack. -/
structure OpenAssembly extends Assembly where
  m_deposit : Int
  m_baseDeposit : Int
  m_totalDeposit : Int

namespace OpenAssembly

open AssemblyItem

def empty : OpenAssembly where
  m_usedTags := 1
  m_items := []
  m_data := []
  m_data_sorted := List.Pairwise.nil
  m_subs := []
  m_strings := []
  m_libraries := []
  m_deposit := 0
  m_baseDeposit := 0
  m_totalDeposit := 0

/-- `append(AssemblyItem const&)` -/
def appendItem (a : OpenAssembly) (i : AssemblyItem) : OpenAssembly :=
  { a with m_deposit := a.m_deposit + i.deposit, m_items := a.m_items ++ [i] }

def newTag (a : OpenAssembly) : AssemblyItem × OpenAssembly :=
  (.tag (BitVec.ofNat 256 a.m_usedTags.toNat), { a with m_usedTags := a.m_usedTags + 1 })

def newPushTag (a : OpenAssembly) : AssemblyItem × OpenAssembly :=
  (.pushTag (BitVec.ofNat 256 a.m_usedTags.toNat), { a with m_usedTags := a.m_usedTags + 1 })

/-- An entry that stands there is replaced. -/
def newData (a : OpenAssembly) (sha3 : Bytes → U256) (data : Bytes) : AssemblyItem × OpenAssembly :=
  let h := sha3 data
  (⟨.PushData, h, nofun⟩, { a with
    m_data := Assoc.insertSorted (a.m_data.filter fun d => d.1 ≠ h) (h, data)
    m_data_sorted := Assoc.pairwise_insertSorted (a.m_data_sorted.filter _) (h, data) })

def newSub (a : OpenAssembly) (sub : Assembly) : AssemblyItem × OpenAssembly :=
  (⟨.PushSub, BitVec.ofNat 256 a.m_subs.length, nofun⟩, { a with m_subs := a.m_subs ++ [sub] })

def newPushSubSize (subId : U256) : AssemblyItem := ⟨.PushSubSize, subId, nofun⟩

def newPushString (a : OpenAssembly) (sha3 : Bytes → U256) (data : Bytes) : AssemblyItem × OpenAssembly :=
  let h := sha3 data
  (⟨.PushString, h, nofun⟩, { a with m_strings := a.m_strings.set h data })

def newPushLibraryAddress (a : OpenAssembly) (sha3 : Bytes → U256) (identifier : String) : AssemblyItem × OpenAssembly :=
  let h := sha3 identifier.toUTF8.toList
  (⟨.PushLibraryAddress, h, nofun⟩, { a with m_libraries := a.m_libraries.set h identifier })

/-- An item of another assembly as it is appended: the numbers of tags and of parts are moved up. -/
def renamed (a : OpenAssembly) (i : AssemblyItem) : AssemblyItem :=
  if h : i.type = .Tag ∨ i.type = .PushTag then
    i.setData (i.data + BitVec.ofNat 256 a.m_usedTags.toNat) (by rcases h with h | h <;> simp [h])
  else if h : i.type = .PushSub ∨ i.type = .PushSubSize then
    i.setData (i.data + BitVec.ofNat 256 a.m_subs.length) (by rcases h with h | h <;> simp [h])
  else i

/-- The loop over the data. -/
def insertData (a : OpenAssembly) (d : U256 × Bytes) : OpenAssembly :=
  { a with m_data := Assoc.insertSorted a.m_data d, m_data_sorted := Assoc.pairwise_insertSorted a.m_data_sorted d }

/-- `append(Assembly const&)`, where there is no result when an assertion at the end fails. -/
def append (a other : OpenAssembly) : Option OpenAssembly :=
  let newDeposit := a.m_deposit + other.m_deposit
  let s := other.m_items.foldl (fun s i => s.appendItem (a.renamed i)) a
  let s := { s with m_deposit := newDeposit, m_usedTags := s.m_usedTags + other.m_usedTags }
  let s := other.m_data.foldl insertData s
  let s := { s with
    m_strings := other.m_strings.foldl Assoc.insert s.m_strings
    m_subs := s.m_subs ++ other.m_subs
    m_libraries := other.m_libraries.foldl Assoc.insert s.m_libraries }
  if other.m_baseDeposit = 0 ∧ other.m_totalDeposit = 0 then some s else none

/-- `append(Assembly const&, int)`, where there is no result when the deposit is invalid either. -/
def appendTo (a other : OpenAssembly) (deposit : Int) : Option OpenAssembly :=
  if other.m_deposit < deposit then none
  else (a.append other).map fun s =>
    (List.replicate (other.m_deposit - deposit).toNat (ofInstruction .POP)).foldl appendItem s

end OpenAssembly

/-! ## What items refer to -/

/-- What an item can refer to. -/
inductive Referent where
  /-- Where the code ends with an exception. -/
  | errorTag
  /-- The item with this index. -/
  | place (k : Nat)
  | data (d : Bytes)
  | string (s : Bytes)
  | library (identifier : String)
  | sub (a : Assembly)

/-- The same in code that `n` items have been put before. -/
def Referent.moved (n : Nat) : Referent → Referent
  | .place k => .place (k + n)
  | r => r

namespace Assembly

/-- Where a tag is defined. -/
def places (a : Assembly) (t : U256) : List Nat := a.m_items.findIdxs fun i => i.type = .Tag ∧ i.data = t

/-- What is kept under the hash that an item pushes or stands for. -/
def kept (a : Assembly) (i : AssemblyItem) : Option Referent :=
  match i.type with
  | .PushData => (Assoc.find a.m_data i.data).map .data
  | .PushString => (a.m_strings.find i.data).map .string
  | .PushLibraryAddress => (a.m_libraries.find i.data).map .library
  | _ => none

def referents (a : Assembly) (i : AssemblyItem) : List Referent :=
  match i.type with
  | .PushTag => if i.data = 0 then [.errorTag] else (a.places i.data).map .place
  | .PushSub | .PushSubSize => (a.m_subs[size_t i.data.toNat]?).toList.map .sub
  | _ => (a.kept i).toList

/-- A tag that was given out, which is never the one of the exception. -/
def HasTag (a : Assembly) (t : U256) : Prop := 0 < t.toNat ∧ t.toNat < a.m_usedTags.toNat

/-- The item is one of this assembly: what it refers to was made before. -/
structure Knows (a : Assembly) (i : AssemblyItem) : Prop where
  tag : i.type = .Tag → a.HasTag i.data
  pushTag : i.type = .PushTag → i.data = 0 ∨ a.HasTag i.data
  sub : i.type = .PushSub ∨ i.type = .PushSubSize → i.data.toNat < a.m_subs.length
  kept : i.type = .PushData ∨ i.type = .PushString ∨ i.type = .PushLibraryAddress → (a.kept i).isSome

/-- No count has gone round, and the items are those of the assembly. -/
structure WellFormed (a : Assembly) : Prop where
  usedTags : 0 < a.m_usedTags.toNat
  subs : a.m_subs.length < 2 ^ 63
  items : ∀ i ∈ a.m_items, a.Knows i

/-- `r` is `a` with a copy of `other` behind it: every item of `other` refers to the copy of what it referred to, its tags are none
of `a`'s, the error tag is the error tag, and nothing is changed for `a`. -/
structure Appended (a other r : Assembly) : Prop where
  length : r.m_items.length = a.m_items.length + other.m_items.length
  own : ∀ (k : Nat) (i : AssemblyItem), a.m_items[k]? = some i → r.m_items[k]? = some i ∧ r.referents i = a.referents i
  copy : ∀ (k : Nat) (i : AssemblyItem), other.m_items[k]? = some i → ∃ j, r.m_items[a.m_items.length + k]? = some j ∧ j.type = i.type ∧
    r.referents j = (other.referents i).map (Referent.moved a.m_items.length)
  tags : ∀ (k : Nat) (i j : AssemblyItem), other.m_items[k]? = some i → r.m_items[a.m_items.length + k]? = some j →
    i.type = .Tag ∨ i.type = .PushTag → ¬ a.HasTag j.data
  errorTag : ∀ k : Nat, other.m_items[k]? = some .errorTag → r.m_items[a.m_items.length + k]? = some .errorTag

end Assembly

namespace OpenAssembly

/-- What the members of the class make, as long as no count goes round and the items that are appended are the assembly's own. -/
inductive Built (sha3 : Bytes → U256) : OpenAssembly → Prop
  | empty : Built sha3 empty
  | deposits {a : OpenAssembly} (d b t : Int) (h : Built sha3 a) :
      Built sha3 { a with m_deposit := d, m_baseDeposit := b, m_totalDeposit := t }
  | appendItem {a : OpenAssembly} {i : AssemblyItem} (h : Built sha3 a) (hi : a.Knows i) : Built sha3 (a.appendItem i)
  | newTag {a : OpenAssembly} (h : Built sha3 a) (hroom : a.m_usedTags.toNat + 1 < 2 ^ 32) : Built sha3 a.newTag.2
  | newPushTag {a : OpenAssembly} (h : Built sha3 a) (hroom : a.m_usedTags.toNat + 1 < 2 ^ 32) : Built sha3 a.newPushTag.2
  | newData {a : OpenAssembly} (data : Bytes) (h : Built sha3 a) : Built sha3 (a.newData sha3 data).2
  | newSub {a sub : OpenAssembly} (h : Built sha3 a) (hsub : Built sha3 sub) (hroom : a.m_subs.length + 1 < 2 ^ 63) :
      Built sha3 (a.newSub sub.toAssembly).2
  | newPushString {a : OpenAssembly} (data : Bytes) (h : Built sha3 a) : Built sha3 (a.newPushString sha3 data).2
  | newPushLibraryAddress {a : OpenAssembly} (identifier : String) (h : Built sha3 a) :
      Built sha3 (a.newPushLibraryAddress sha3 identifier).2
  | append {a other r : OpenAssembly} (h : Built sha3 a) (ho : Built sha3 other)
      (htags : a.m_usedTags.toNat + other.m_usedTags.toNat < 2 ^ 32)
      (hsubs : a.m_subs.length + other.m_subs.length < 2 ^ 63) (hr : a.append other = some r) : Built sha3 r

end OpenAssembly

end Webthree
