import Classmith.ClassFile.Instruction
import Classmith.Simulation.State

/-!
# Stack map frames

A frame overrides what the simulation has found out: it declares the locals, as a change to what the
frame before it declared, and the whole stack.
-/
namespace Classmith.Simulation

/-- The method body a simulation runs through: its class and its instructions. -/
structure Body where
  owner : String
  instructions : List Instruction

namespace Body

/-- What follows the last occurrence of a label. -/
def after? (label : Label) : List Instruction → Option (List Instruction)
  | [] => none
  | i :: rest =>
    match after? label rest with
    | some found => some found
    | none =>
      match i with
      | .label id => if id = label then some rest else none
      | _ => none

/-- Whether an entry only stands between instructions. -/
def isMarker : Instruction → Bool
  | .label _ => true
  | .line _ _ => true
  | .frame _ => true
  | _ => false

/-- The field type of what the instruction at a label allocates. -/
def allocated (b : Body) (label : Label) : Except Malformation String :=
  match after? label b.instructions with
  | none => .error (.unknownLabel label)
  | some rest =>
    match rest.find? fun i => !isMarker i with
    | some (.type 0xbb operand) => .ok (Descriptor.ofName operand)
    | _ => .error (.notAllocated label)

end Body

namespace Sim

/-- The value a frame declares and the slots it takes as a local. -/
def frameValue (b : Body) (position : Nat) : FrameValue → Sim (Value × Nat)
  | .top => return (← invalid, 1)
  | .null => return (← fresh none true true (.frame position), 1)
  | .integer => return (← value "I" (.frame position), 1)
  | .float => return (← value "F" (.frame position), 1)
  | .long => return (← value "J" (.frame position), 2)
  | .double => return (← value "D" (.frame position), 2)
  | .uninitializedThis => return (← value (Descriptor.ofName b.owner) (.frame position), 1)
  | .object name => return (← value (Descriptor.ofName name) (.frame position), 1)
  | .uninitialized label =>
    match b.allocated label with
    | .ok descriptor => return (← value descriptor (.frame position), 1)
    | .error cause => malformed cause

/-- Declares one more local after those declared so far. -/
def declareLocal (b : Body) (position : Nat) (entry : FrameValue) : Sim Unit := do
  let slot := (← get).declaredSlots
  let (v, width) ← frameValue b position entry
  ensureLocals (slot + width)
  setLocal slot v
  if width = 2 then setLocal (slot + 1) (← invalid)
  modify fun s => { s with widths := width :: s.widths }

/-- Takes back the declaration of the last locals. -/
def chop : (count : Nat) → Sim Unit
  | 0 => pure ()
  | count + 1 => do
    let s ← get
    match s.widths with
    | [] => malformed .chopsTooMany
    | width :: rest =>
      set { s with widths := rest }
      invalidate rest.sum width
      chop count

def declareLocals (b : Body) (position : Nat) : List FrameValue → Sim Unit
  | [] => pure ()
  | entry :: rest => do
    declareLocal b position entry
    declareLocals b position rest

def pushEntries (b : Body) (position : Nat) : List FrameValue → Sim Unit
  | [] => pure ()
  | entry :: rest => do
    let (v, _) ← frameValue b position entry
    push v
    pushEntries b position rest

def applyFrame (b : Body) (position : Nat) : Frame → Sim Unit
  | .same => clearStack
  | .same1 entry => do
    let (v, _) ← frameValue b position entry
    clearStack
    push v
  | .append locals => do
    declareLocals b position locals
    clearStack
  | .chop count => do
    chop count.toNat
    clearStack
  | .full locals stack => do
    modify fun s => { s with widths := [] }
    let before := (← get).locals.length
    declareLocals b position locals
    let slot := (← get).declaredSlots
    invalidate slot (before - slot)
    clearStack
    pushEntries b position stack

end Sim

end Classmith.Simulation
