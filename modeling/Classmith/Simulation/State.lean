import Classmith.Simulation.Fault
import Classmith.Simulation.Value

/-!
# States of a simulation

The operand stack and the local slots of one activation, with what is needed to continue: the widths
of the locals that the last frame declared and the number of values made so far.
-/
namespace Classmith.Simulation

structure State where
  /-- The operand stack, top first. -/
  stack : List Value
  locals : List Value
  /-- The widths of the declared frame locals, last first. -/
  widths : List Nat
  /-- How many values have been made; the next one gets the next number. -/
  created : Nat

/-- A step of a simulation: a new state and a result, or a fault. -/
abbrev Sim := StateT State (Except Fault)

namespace State

def start : State := ⟨[], [], [], 0⟩

/-- The entry so many positions below the top. -/
def peek? (s : State) (depth : Nat) : Option Value := s.stack[depth]?

def categoryAt (s : State) (depth : Nat) : Option Category := (s.peek? depth).bind Value.category

/-- The stack with the bottom first. -/
def stackValues (s : State) : List Value := s.stack.reverse

/-- The slots that the declared frame locals take. -/
def declaredSlots (s : State) : Nat := s.widths.foldl (· + ·) 0

end State

namespace Sim

def malformed {α : Type} (cause : Malformation) : Sim α := throw (.malformed cause)

def unsupported {α : Type} (cause : Unmodelled) : Sim α := throw (.unsupported cause)

/-- Makes a value with the next number. -/
def fresh (descriptor : Option String) (isValid isNull : Bool) (origin : Origin) : Sim Value := do
  let s ← get
  set { s with created := s.created + 1 }
  return .mk (s.created + 1) descriptor isValid isNull origin

/-- Makes a usable value. -/
def value (descriptor : String) (origin : Origin) : Sim Value :=
  fresh (some descriptor) true false origin

def invalid : Sim Value := fresh none false false .invalid

def push (v : Value) : Sim Unit := modify fun s => { s with stack := v :: s.stack }

def pop : Sim Value := do
  let s ← get
  match s.stack with
  | [] => malformed .underflow
  | v :: rest =>
    set { s with stack := rest }
    return v

/-- Removes entries and gives them in the order in which they were pushed. -/
def popN (count : Nat) : Sim (List Value) := do
  let s ← get
  if count ≤ s.stack.length then
    set { s with stack := s.stack.drop count }
    return (s.stack.take count).reverse
  else malformed .underflow

/-- Removes an entry of one word. -/
def popOneWord : Sim Value := do
  let v ← pop
  if v.category = some .one then return v else malformed (.notOneWord v.text)

def clearStack : Sim Unit := modify fun s => { s with stack := [] }

/-- Overwrites a slot; there is nothing to do for a slot that does not exist. -/
def setLocal (slot : Nat) (v : Value) : Sim Unit :=
  modify fun s => { s with locals := s.locals.set slot v }

def pushLocal (v : Value) : Sim Unit := modify fun s => { s with locals := s.locals ++ [v] }

/-- Adds undefined slots, each with a value of its own. -/
def fill (count : Nat) : Sim Unit :=
  modify fun s => { s with
    locals := s.locals ++ (List.range count).map fun i =>
      .mk (s.created + 1 + i) none false false .undefined
    created := s.created + count }

/-- Adds undefined slots up to a number of slots. -/
def ensureLocals (count : Nat) : Sim Unit := do
  fill (count - (← get).locals.length)

/-- Overwrites slots from one on with unusable values, each of its own. -/
def invalidate (slot count : Nat) : Sim Unit :=
  modify fun s => { s with
    locals := s.locals.mapIdx fun i v =>
      if slot ≤ i ∧ i < slot + count then
        .mk (s.created + 1 + (i - slot)) none false false .invalid
      else v
    created := s.created + count }

/-- Stores a value. A two-word value also takes the next slot, and one whose second slot is
overwritten is lost. -/
def storeLocal (slot : Nat) (v : Value) : Sim Unit := do
  let wide := v.category = some .two
  ensureLocals (slot + if wide then 2 else 1)
  if 0 < slot ∧ (((← get).locals[slot - 1]?).bind Value.category) = some .two then
    setLocal (slot - 1) (← invalid)
  setLocal slot v
  if wide then setLocal (slot + 1) (← invalid)

end Sim

end Classmith.Simulation
