import Webthree.Asm.AssemblyItem

/-!
# Running items

What a list of items does before it is assembled. A pushed tag is not a word yet: it may be moved about on the stack and jumped to,
and anything else is a misuse. Where items are in the code, what is pushed that only assembling knows, and what the instructions do
besides moving the stack, is given by a `Machine`. A tag does nothing, and a step is one of the other items.
-/

namespace Webthree

/-- An element of the stack. -/
inductive StackValue where
  | word (w : U256)
  | tag (t : U256)
deriving DecidableEq, Repr

/-- What the items are run with; `ω` is all of the state but the stack and the position. -/
structure Machine (ω : Type) where
  /-- The results of an instruction on its arguments, unless it fails. -/
  exec : Instruction → List U256 → ω → Option (List U256 × ω)
  /-- What an item pushes that is not a tag. -/
  pushed : AssemblyItem → U256
  /-- Where the item with this index is in the code. -/
  offset : Nat → U256

structure MachineState (ω : Type) where
  position : Nat
  stack : List StackValue
  world : ω

/-- What a step ends with. -/
inductive Outcome (ω : Type) where
  | running (s : MachineState ω)
  | stopped (world : ω)
  | failed
  /-- A tag is used for something else than a jump. -/
  | misused

namespace Machine

open SemanticInformation

variable {ω : Type} (M : Machine ω)

/-- The first item that is no tag, with its index, where the first item has index `k`. -/
def fetch : List AssemblyItem → Nat → Option (Nat × AssemblyItem)
  | [], _ => none
  | item :: rest, k => if item.type = .Tag then fetch rest (k + 1) else some (k, item)

/-- Where a value leads if it is jumped to. -/
def target (items : List AssemblyItem) : StackValue → Option Nat
  | .tag t => items.findIdx? fun item => item.type = .Tag ∧ item.data = t
  | .word w => (List.range items.length).find? fun k =>
      M.offset k = w ∧ (items[k]?.any fun item => item.type = .Tag ∨ item = .ofInstruction .JUMPDEST) = true

def jump (items : List AssemblyItem) (d : StackValue) (stack : List StackValue) (world : ω) : Outcome ω :=
  match M.target items d with
  | none => .failed
  | some p => .running ⟨p, stack, world⟩

/-- The words among values, if they all are words. -/
def words : List StackValue → Option (List U256)
  | [] => some []
  | .tag _ :: _ => none
  | .word w :: vs => (words vs).map (w :: ·)

/-- An instruction at index `k` that takes its arguments from the stack and puts its results there. -/
def ordinary (k : Nat) (i : Instruction) (stack : List StackValue) (world : ω) : Outcome ω :=
  if stack.length < (instructionInfo i).args then .failed
  else
    match words (stack.take (instructionInfo i).args) with
    | none => .misused
    | some args =>
      match M.exec i args world with
      | none => .failed
      | some (results, world) =>
        if i = .STOP ∨ i = .RETURN ∨ i = .SUICIDE then .stopped world
        else .running ⟨k + 1, results.map .word ++ stack.drop (instructionInfo i).args, world⟩

/-- The instruction at index `k`. -/
def operate (items : List AssemblyItem) (k : Nat) (i : Instruction) (stack : List StackValue) (world : ω) : Outcome ω :=
  match i, stack with
  | .JUMP, d :: stack => M.jump items d stack world
  | .JUMPI, d :: .word c :: stack => if c = 0 then .running ⟨k + 1, stack, world⟩ else M.jump items d stack world
  | .JUMPI, _ :: .tag _ :: _ => .misused
  | .JUMP, [] | .JUMPI, [] | .JUMPI, [_] => .failed
  | .POP, _ :: stack => .running ⟨k + 1, stack, world⟩
  | .POP, [] => .failed
  | .DUP n, stack =>
    match stack[n.val]? with
    | none => .failed
    | some v => .running ⟨k + 1, v :: stack, world⟩
  | .SWAP n, top :: stack =>
    match stack[n.val]? with
    | none => .failed
    | some v => .running ⟨k + 1, v :: stack.set n top, world⟩
  | .SWAP _, [] => .failed
  | .PC, stack => .running ⟨k + 1, .word (M.offset k) :: stack, world⟩
  | i, stack => M.ordinary k i stack world

/-- The item at index `k`, which is no tag. -/
def perform (items : List AssemblyItem) (k : Nat) (item : AssemblyItem) (stack : List StackValue) (world : ω) : Outcome ω :=
  match item.type with
  | .UndefinedItem | .Tag => .failed
  | .Operation => M.operate items k item.instruction stack world
  | .PushTag => .running ⟨k + 1, .tag item.data :: stack, world⟩
  | .Push => .running ⟨k + 1, .word item.data :: stack, world⟩
  | _ => .running ⟨k + 1, .word (M.pushed item) :: stack, world⟩

def step (items : List AssemblyItem) (s : MachineState ω) : Outcome ω :=
  match fetch (items.drop s.position) s.position with
  | none => .stopped s.world
  | some (k, item) => M.perform items k item s.stack s.world

/-- So many steps. -/
def run (items : List AssemblyItem) : Nat → MachineState ω → Outcome ω
  | 0, s => .running s
  | n + 1, s =>
    match M.step items s with
    | .running s => run items n s
    | o => o

end Machine

end Webthree
