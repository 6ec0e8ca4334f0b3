import Classmith.ClassFile.Constant
import Classmith.Simulation.Fault

/-!
# Effects of instructions without operands
-/
namespace Classmith.Simulation

open Number (Single Double)

/-- What an instruction without operands does to the stack. -/
inductive Effect where
  | noop
  | push (constant : Constant)
  | pushNull
  /-- Replaces an array and an index by the element; without a type the array tells it. -/
  | arrayLoad (element : Option String)
  | arrayLength
  /-- Removes entries, whatever they are. -/
  | consume (count : Nat)
  | pop
  | pop2
  | dup (form : DupForm)
  | swap
  | binary (result : String)
  | negate (result : String)
  | convert (result : String)
  | compare

/-- The types of the arithmetic instructions, in the order of their opcodes. -/
def lane : Nat → String
  | 0 => "I"
  | 1 => "J"
  | 2 => "F"
  | _ => "D"

/-- The effect of an opcode, if it is modelled. -/
def Effect.ofOpcode? (opcode : UInt8) : Option Effect :=
  match opcode.toNat with
  | 0x00 => some .noop
  | 0x01 => some .pushNull
  | 0x02 => some (.push (.int (-1)))
  | 0x03 => some (.push (.int 0))
  | 0x04 => some (.push (.int 1))
  | 0x05 => some (.push (.int 2))
  | 0x06 => some (.push (.int 3))
  | 0x07 => some (.push (.int 4))
  | 0x08 => some (.push (.int 5))
  | 0x09 => some (.push (.long 0))
  | 0x0a => some (.push (.long 1))
  | 0x0b => some (.push (.float (Single.ofNat 0)))
  | 0x0c => some (.push (.float (Single.ofNat 1)))
  | 0x0d => some (.push (.float (Single.ofNat 2)))
  | 0x0e => some (.push (.double (Double.ofNat 0)))
  | 0x0f => some (.push (.double (Double.ofNat 1)))
  | 0x2e => some (.arrayLoad (some "I"))
  | 0x2f => some (.arrayLoad (some "J"))
  | 0x30 => some (.arrayLoad (some "F"))
  | 0x31 => some (.arrayLoad (some "D"))
  | 0x32 => some (.arrayLoad none)
  -- bytes and booleans share an opcode
  | 0x33 => some (.arrayLoad (some "B"))
  | 0x34 => some (.arrayLoad (some "C"))
  | 0x35 => some (.arrayLoad (some "S"))
  | 0x57 => some .pop
  | 0x58 => some .pop2
  | 0x59 => some (.dup .dup)
  | 0x5a => some (.dup .dupX1)
  | 0x5b => some (.dup .dupX2)
  | 0x5c => some (.dup .dup2)
  | 0x5d => some (.dup .dup2X1)
  | 0x5e => some (.dup .dup2X2)
  | 0x5f => some .swap
  | 0x74 => some (.negate "I")
  | 0x75 => some (.negate "J")
  | 0x76 => some (.negate "F")
  | 0x77 => some (.negate "D")
  | 0x85 | 0x8c | 0x8f => some (.convert "J")
  | 0x86 | 0x89 | 0x90 => some (.convert "F")
  | 0x87 | 0x8a | 0x8d => some (.convert "D")
  | 0x88 | 0x8b | 0x8e => some (.convert "I")
  | 0x91 => some (.convert "B")
  | 0x92 => some (.convert "C")
  | 0x93 => some (.convert "S")
  | 0xb1 => some .noop
  | 0xbe => some .arrayLength
  | 0xbf | 0xc2 | 0xc3 => some (.consume 1)
  | n =>
    if 0x4f ≤ n ∧ n ≤ 0x56 then some (.consume 3)
    else if 0x60 ≤ n ∧ n ≤ 0x73 then some (.binary (lane ((n - 0x60) % 4)))
    else if 0x78 ≤ n ∧ n ≤ 0x83 then some (.binary (lane ((n - 0x78) % 2)))
    else if 0x94 ≤ n ∧ n ≤ 0x98 then some .compare
    else if 0xac ≤ n ∧ n ≤ 0xb0 then some (.consume 1)
    else none

end Classmith.Simulation
