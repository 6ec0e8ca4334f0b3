import Classmith.ClassFile.Basic
import Classmith.Error
import Classmith.Simulation.Step

/-!
# Walks

A walk replays the instructions of a method once, in order, and records the state before and after
each. Classes of old versions have no frames to tell the state at merge points and are not walked.
-/
namespace Classmith.Simulation

/-- The last class file version without stack map frames. -/
def lastWithoutFrames : UInt16 := 49

namespace Sim

/-- Gives the parameters from one on their slots. -/
def declareParameters (index : Nat) : List String → Sim Unit
  | [] => pure ()
  | descriptor :: rest => do
    let slot := (← get).locals.length
    pushLocal (← value descriptor (.parameter index slot))
    if Descriptor.category descriptor = .two then pushLocal (← invalid)
    let width := (Descriptor.category descriptor).words
    modify fun s => { s with widths := width :: s.widths }
    declareParameters (index + 1) rest

/-- The locals at the start of a method: the receiver, the parameters and undefined slots. -/
def enter (owner : String) (m : Method) : Sim Unit :=
  match Descriptor.split m.descriptor with
  | .error defect => malformed (.badDescriptor m.descriptor defect)
  | .ok type => do
    if !m.isStatic then
      pushLocal (← value (Descriptor.ofName owner) .this)
      modify fun s => { s with widths := [1] }
    declareParameters 0 type.parameters
    ensureLocals m.maxLocals.toNat

end Sim

/-- The state before an instruction and, unless the instruction fails, after it. -/
structure Visit where
  position : Nat
  instruction : Instruction
  before : State
  after : Option State

/-- How a walk that meets no fault ends. -/
inductive Outcome where
  | walked
  | skipped
deriving DecidableEq, Repr

structure Walk where
  visits : List Visit
  outcome : Except Error Outcome

/-- Runs instructions from a position on. -/
def run (b : Body) : (position : Nat) → List Instruction → State → List Visit × Option (Nat × Fault)
  | _, [], _ => ([], none)
  | position, i :: rest, s =>
    match Sim.step b position i s with
    | .error fault => ([⟨position, i, s, none⟩], some (position, fault))
    | .ok ((), next) =>
      let (visits, fault) := run b (position + 1) rest next
      (⟨position, i, s, some next⟩ :: visits, fault)

/-- The error for a fault at a position of a method. -/
def Fault.toError (owner : String) (m : Method) (position : Nat) : Fault → Error
  | .malformed cause => .malformed ⟨owner, m.name, m.descriptor, position⟩ cause
  | .unsupported cause => .unsupported ⟨owner, m.name, m.descriptor, position⟩ cause

/-- Walks a method of a class. -/
def walk (c : Class) (m : Method) : Walk :=
  if c.version ≤ lastWithoutFrames then ⟨[], .ok .skipped⟩
  else
    match Sim.enter c.name m State.start with
    | .error fault => ⟨[], .error (fault.toError c.name m 0)⟩
    | .ok ((), start) =>
      let (visits, fault) := run ⟨c.name, m.instructions⟩ 0 m.instructions start
      ⟨visits, match fault with
        | none => .ok .walked
        | some (position, fault) => .error (fault.toError c.name m position)⟩

end Classmith.Simulation
