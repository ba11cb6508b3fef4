import Webthree.Asm.Assembly

/-!
# Computing constants

`ComputeMethod::findRepresentation`: a routine that computes a constant, where that is estimated to cost less than pushing it. The
recursion is given so many levels.
-/

namespace Webthree

namespace GasCosts

def tierGas : Tier → Nat
  | .ZeroTier => 0
  | .BaseTier => 2
  | .VeryLowTier => 3
  | .LowTier => 5
  | .MidTier => 8
  | .HighTier => 10
  | .ExtTier => 20
  | .SpecialTier => 0
  -- an exception, but no routine has such an instruction
  | .InvalidTier => 0

def expGas : Nat := 10
def expByteGas : Nat := 10
def createDataGas : Nat := 200
def txDataNonZeroGas : Nat := 68

end GasCosts

open GasCosts

/-- `GasMeter::runGas` -/
def runGas (i : Instruction) : Nat := if i = .JUMPDEST then 1 else tierGas (instructionInfo i).gasPriceTier

/-- `ConstantOptimisationMethod::Params` -/
structure ConstantParams where
  isCreation : Bool
  runs : UInt64
  multiplicity : UInt64

namespace ComputeMethod

/-- The run gas of an item, without special gas costs. -/
def simpleRunGas (item : AssemblyItem) : Nat :=
  match item.type with
  | .Push => runGas (.PUSH 0)
  | .Operation => runGas item.instruction
  | _ => 0

/-- The bytes of an item, where an address takes 3 bytes. -/
def itemBytes (item : AssemblyItem) : Nat :=
  match item.bytesRequired 3 with
  | .ok n => n
  -- an exception, but no routine has such an item
  | .error _ => 0

/-- `combineGas` -/
def combineGas (P : ConstantParams) (runGas repeatedDataGas uniqueDataGas : Nat) : Nat :=
  P.runs.toNat * runGas + P.multiplicity.toNat * repeatedDataGas + uniqueDataGas

/-- `gasNeeded` -/
def gasNeeded (P : ConstantParams) (routine : List AssemblyItem) : Nat :=
  let numExps := routine.count (.ofInstruction .EXP)
  combineGas P ((routine.map simpleRunGas).sum + numExps * (expGas + expByteGas))
    ((routine.map itemBytes).sum * if P.isCreation then txDataNonZeroGas else createDataGas) 0

/-- A value taken apart at a position. -/
structure Parts where
  bits : Nat
  upperPart : U256
  lowerPart : Int
deriving DecidableEq, Repr

/-- The parts at a position, unless the turn of the loop ends with `continue`. -/
def partsAt (value : U256) (bits : Nat) : Option Parts :=
  let gapDetector := unsigned (value >>> (bits - 8)).toNat &&& 0x1ff
  if gapDetector ≠ 0xff ∧ gapDetector ≠ 0x100 then none
  else
    let powerOfTwo := (1 : U256) <<< bits
    let upperPart := value >>> bits
    let lowerPart : Int := (value &&& (powerOfTwo - 1)).toNat
    let lowerPart := if |(powerOfTwo.toNat : Int) - lowerPart| < lowerPart then
        lowerPart - powerOfTwo.toNat -- make it negative
      else lowerPart
    if |lowerPart| ≥ (powerOfTwo >>> 8).toNat then none else some ⟨bits, upperPart, lowerPart⟩

/-- What pushes the low part. -/
def lowerRoutine (find : U256 → Option (List AssemblyItem)) (p : Parts) : Option (List AssemblyItem) :=
  if p.lowerPart ≠ 0 then find (BitVec.ofInt 256 |p.lowerPart|) else some []

/-- What multiplies by the high part. -/
def upperRoutine (find : U256 → Option (List AssemblyItem)) (p : Parts) : Option (List AssemblyItem) :=
  if p.upperPart ≠ 1 ∧ p.upperPart ≠ 0 then (find p.upperPart).map (· ++ [.ofInstruction .MUL]) else some []

/-- The routine for the parts, where routines for them are found with `find`. -/
def newRoutine (find : U256 → Option (List AssemblyItem)) (p : Parts) : Option (List AssemblyItem) := do
  let lower ← lowerRoutine find p
  let upper ← upperRoutine find p
  let power := [AssemblyItem.push (BitVec.ofNat 256 p.bits), .push 2, .ofInstruction .EXP]
  let last := if 0 < p.lowerPart then [AssemblyItem.ofInstruction .ADD] else if p.lowerPart < 0 then [.ofInstruction .SUB] else []
  return lower ++ power ++ upper ++ last

/-- The best routine up to now, and its gas. -/
structure Best where
  routine : List AssemblyItem
  gas : Nat

/-- One turn of the loop. -/
def tryAt (P : ConstantParams) (find : U256 → Option (List AssemblyItem)) (value : U256) (best : Best) (bits : Nat) : Option Best :=
  match partsAt value bits with
  | none => return best
  | some p => do
    let routine ← newRoutine find p
    let newGas := gasNeeded P routine
    return if newGas < best.gas then ⟨routine, newGas⟩ else best

/-- The positions, from the highest one. -/
def positions : List Nat := (List.range' 9 247).reverse

/-- `findRepresentation`, which may recurse as often. -/
def findRepresentation (P : ConstantParams) : Nat → U256 → Option (List AssemblyItem)
  | 0, _ => none
  | n + 1, value =>
    -- Very small value, not worth computing
    if value < 0x10000 then some [.push value]
    -- Negated is shorter to represent
    else if bytesRequired (~~~value).toNat < bytesRequired value.toNat then
      (findRepresentation P n (~~~value)).map (· ++ [.ofInstruction .NOT])
    else
      -- Is not always better, try literal and decomposition method.
      let routine := [AssemblyItem.push value]
      (positions.foldlM (tryAt P (findRepresentation P n) value) ⟨routine, gasNeeded P routine⟩).map Best.routine

end ComputeMethod

end Webthree
