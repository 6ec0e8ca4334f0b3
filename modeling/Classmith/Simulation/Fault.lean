import Classmith.Descriptor

/-!
# What can go wrong in a simulation

A method body is malformed when the state contradicts what an instruction needs, and unsupported when
an instruction has no modelled effect.
-/
namespace Classmith.Simulation

/-- The ways in which the top of the stack is duplicated. -/
inductive DupForm where
  | dup
  | dupX1
  | dupX2
  | dup2
  | dup2X1
  | dup2X2
deriving DecidableEq, Repr, Inhabited

def DupForm.name : DupForm → String
  | dup => "Dup"
  | dupX1 => "DupX1"
  | dupX2 => "DupX2"
  | dup2 => "Dup2"
  | dup2X1 => "Dup2X1"
  | dup2X2 => "Dup2X2"

/-- The name of the category of a stack entry, if it is there and has one. -/
def categoryName : Option Category → String
  | none => "None"
  | some .one => "Some(One)"
  | some .two => "Some(Two)"

/-- How a state contradicts an instruction. Values are given by their text. -/
inductive Malformation where
  | badDescriptor (descriptor : String) (defect : Descriptor.Defect)
  | underflow
  | notOneWord (found : String)
  | unknownArrayType (code : Int32)
  | missingLocal (slot : Nat)
  | notAnArray (found : String)
  | notPoppable (found : String)
  | notSwappable
  | noDupForm (form : DupForm) (categories : List (Option Category))
  | chopsTooMany
  | unknownLabel (label : UInt32)
  | notAllocated (label : UInt32)
deriving DecidableEq, Repr

def Malformation.message : Malformation → String
  | badDescriptor descriptor defect => Descriptor.failure descriptor defect
  | underflow => "operand stack underflow"
  | notOneWord found => s!"expected a one-word value, found {found}"
  | unknownArrayType code => s!"unknown newarray type {code.toInt}"
  | missingLocal slot => s!"load from missing local {slot}"
  | notAnArray found => s!"aaload from non-array {found}"
  | notPoppable found => s!"pop2 of {found}"
  | notSwappable => "swap requires two one-word values"
  | noDupForm form categories =>
    let list := ", ".intercalate (categories.map categoryName)
    s!"no {form.name} form for top-of-stack categories [{list}]"
  | chopsTooMany => "chop frame removes more locals than declared"
  | unknownLabel label => s!"frame refers to unknown label {label.toNat}"
  | notAllocated label =>
    s!"uninitialized frame value at label {label.toNat} is not followed by new"

/-- An instruction without modelled effect, by its group. -/
inductive Unmodelled where
  | insn (opcode : UInt8)
  | int (opcode : UInt8)
  | var (opcode : UInt8)
  | type (opcode : UInt8)
  | field (opcode : UInt8)
  | method (opcode : UInt8)
  | jump (opcode : UInt8)
  | subroutine
deriving DecidableEq, Repr

/-- An opcode in two hexadecimal digits. -/
def hexOpcode (opcode : UInt8) : String :=
  let n := opcode.toNat
  "0x" ++ String.ofList [Nat.digitChar (n / 16), Nat.digitChar (n % 16)]

def Unmodelled.message : Unmodelled → String
  | insn opcode => s!"opcode {hexOpcode opcode}"
  | int opcode => s!"int instruction opcode {hexOpcode opcode}"
  | var opcode => s!"variable instruction opcode {hexOpcode opcode}"
  | type opcode => s!"type instruction opcode {hexOpcode opcode}"
  | field opcode => s!"field instruction opcode {hexOpcode opcode}"
  | method opcode => s!"method instruction opcode {hexOpcode opcode}"
  | jump opcode => s!"jump opcode {hexOpcode opcode}"
  | subroutine => "subroutine jump"

/-- Why a step has no result. -/
inductive Fault where
  | malformed (cause : Malformation)
  | unsupported (cause : Unmodelled)
deriving DecidableEq, Repr

end Classmith.Simulation
