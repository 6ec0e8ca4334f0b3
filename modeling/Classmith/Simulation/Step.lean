import Classmith.Simulation.Effect
import Classmith.Simulation.Frames

/-!
# Steps

The effect of one instruction at a position of a method body.
-/
namespace Classmith.Simulation.Sim

/-- How many entries a duplication takes and how far down their copies go, from the categories of the
top four entries. -/
def dupShape? : DupForm → List (Option Category) → Option (Nat × Nat)
  | .dup, some .one :: _ => some (1, 0)
  | .dupX1, some .one :: some .one :: _ => some (1, 1)
  | .dupX2, some .one :: some .one :: some .one :: _ => some (1, 2)
  | .dupX2, some .one :: some .two :: _ => some (1, 1)
  | .dup2, some .one :: some .one :: _ => some (2, 0)
  | .dup2, some .two :: _ => some (1, 0)
  | .dup2X1, some .one :: some .one :: some .one :: _ => some (2, 1)
  | .dup2X1, some .two :: some .one :: _ => some (1, 1)
  | .dup2X2, some .one :: some .one :: some .one :: some .one :: _ => some (2, 2)
  | .dup2X2, some .two :: some .one :: some .one :: _ => some (1, 2)
  | .dup2X2, some .one :: some .one :: some .two :: _ => some (2, 1)
  | .dup2X2, some .two :: some .two :: _ => some (1, 1)
  | _, _ => none

/-- Copies the top entries below the next ones. -/
def insertCopies (take below : Nat) (stack : List Value) : List Value :=
  stack.take (take + below) ++ stack.take take ++ stack.drop (take + below)

def duplicate (form : DupForm) : Sim Unit := do
  let s ← get
  let categories := [s.categoryAt 0, s.categoryAt 1, s.categoryAt 2, s.categoryAt 3]
  match dupShape? form categories with
  | some (take, below) => set { s with stack := insertCopies take below s.stack }
  | none => malformed (.noDupForm form categories)

def swap : Sim Unit := do
  let s ← get
  match s.stack with
  | a :: b :: rest =>
    if a.category = some .one ∧ b.category = some .one then set { s with stack := b :: a :: rest }
    else malformed .notSwappable
  | _ => malformed .notSwappable

/-- The type of an element loaded from an array; null has any type. -/
def elementType? (array : Value) : Option String :=
  if array.isNull then some "Ljava/lang/Object;"
  else
    match array.descriptor.map String.toList with
    | some ('[' :: element) => some (String.ofList element)
    | _ => none

/-- Replaces a value by one made from it. -/
def unary (descriptor : String) (origin : Value → Origin) : Sim Unit := do
  let operand ← pop
  push (← value descriptor (origin operand))

/-- Replaces two values by one made from them. -/
def binary (descriptor : String) (origin : Value → Value → Origin) : Sim Unit := do
  let right ← pop
  let left ← pop
  push (← value descriptor (origin left right))

def applyEffect (position : Nat) : Effect → Sim Unit
  | .noop => pure ()
  | .push constant => do push (← value constant.descriptor (.constant constant))
  | .pushNull => do push (← fresh none true true .null)
  | .arrayLoad (some element) => binary element (.arrayElement position)
  | .arrayLoad none => do
    let index ← pop
    let array ← pop
    match elementType? array with
    | some element => push (← value element (.arrayElement position array index))
    | none => malformed (.notAnArray array.text)
  | .arrayLength => unary "I" (.arrayLength position)
  | .consume count => do let _ ← popN count
  | .pop => do let _ ← popOneWord
  | .pop2 => do
    let top ← pop
    match top.category with
    | some .two => pure ()
    | some .one => do let _ ← popOneWord
    | none => malformed (.notPoppable top.text)
  | .dup form => duplicate form
  | .swap => swap
  | .binary result => binary result (.arithmetic position)
  | .negate result => unary result (.negation position)
  | .convert result => unary result (.conversion position)
  | .compare => binary "I" (.comparison position)

/-- The array type for the operand of `newarray`. -/
def arrayType? (code : Int32) : Option String :=
  match code.toInt with
  | 4 => some "[Z"
  | 5 => some "[C"
  | 6 => some "[F"
  | 7 => some "[D"
  | 8 => some "[B"
  | 9 => some "[S"
  | 10 => some "[I"
  | 11 => some "[J"
  | _ => none

def applyInt (position : Nat) (opcode : UInt8) (operand : Int32) : Sim Unit :=
  match opcode with
  | 0x10 | 0x11 => do push (← value "I" (.constant (.int operand)))
  | 0xbc =>
    match arrayType? operand with
    | none => malformed (.unknownArrayType operand)
    | some descriptor => unary descriptor fun length => .newArray position [length]
  | _ => unsupported (.int opcode)

def applyVar (opcode : UInt8) (slot : Nat) : Sim Unit := do
  if 0x15 ≤ opcode && opcode ≤ 0x19 then
    match (← get).locals[slot]? with
    | some v => push v
    | none => malformed (.missingLocal slot)
  else if 0x36 ≤ opcode && opcode ≤ 0x3a then
    let v ← pop
    storeLocal slot v
  else unsupported (.var opcode)

def applyType (position : Nat) (opcode : UInt8) (operand : String) : Sim Unit :=
  match opcode with
  | 0xbb => do push (← value (Descriptor.ofName operand) (.newObject position))
  | 0xbd => unary ("[" ++ Descriptor.ofName operand) fun length => .newArray position [length]
  | 0xc0 => do
    let source ← pop
    push (← fresh (some (Descriptor.ofName operand)) true source.isNull (.cast position source))
  | 0xc1 => unary "Z" (.instanceOf position)
  | _ => unsupported (.type opcode)

def applyField (position : Nat) (opcode : UInt8) (descriptor : String) : Sim Unit :=
  match opcode with
  | 0xb2 => do push (← value descriptor (.fieldRead position))
  | 0xb3 => do let _ ← pop
  | 0xb4 => unary descriptor fun _ => .fieldRead position
  | 0xb5 => do let _ ← popN 2
  | _ => unsupported (.field opcode)

/-- Removes the arguments of a call, and its receiver if it has one, and pushes what it returns. -/
def invoke (descriptor : String) (receiver : Bool) (origin : Origin) : Sim Unit :=
  match Descriptor.split descriptor with
  | .error defect => malformed (.badDescriptor descriptor defect)
  | .ok type => do
    let _ ← popN type.parameters.length
    if receiver then let _ ← pop
    if type.result ≠ "V" then push (← value type.result origin)

def applyMethod (position : Nat) (opcode : UInt8) (descriptor : String) : Sim Unit :=
  if 0xb6 ≤ opcode && opcode ≤ 0xb9 then
    invoke descriptor (opcode ≠ 0xb8) (.methodReturn position)
  else unsupported (.method opcode)

def applyJump (opcode : UInt8) : Sim Unit :=
  if 0x99 ≤ opcode && opcode ≤ 0x9e || opcode = 0xc6 || opcode = 0xc7 then do
    let _ ← pop
  else if 0x9f ≤ opcode && opcode ≤ 0xa6 then do
    let _ ← popN 2
  else if opcode = 0xa7 || opcode = 0xc8 then pure ()
  else if opcode = 0xa8 || opcode = 0xc9 then unsupported .subroutine
  else unsupported (.jump opcode)

/-- The effect of the instruction at a position. -/
def step (b : Body) (position : Nat) : Instruction → Sim Unit
  | .insn opcode =>
    match Effect.ofOpcode? opcode with
    | some effect => applyEffect position effect
    | none => unsupported (.insn opcode)
  | .int opcode operand => applyInt position opcode operand
  | .var opcode slot => applyVar opcode slot.toNat
  | .type opcode operand => applyType position opcode operand
  | .field opcode _ _ descriptor => applyField position opcode descriptor
  | .method opcode _ _ descriptor _ => applyMethod position opcode descriptor
  | .invokeDynamic _ descriptor _ _ => invoke descriptor false (.dynamicReturn position)
  | .jump opcode _ => applyJump opcode
  | .label _ | .line _ _ | .iinc _ _ => pure ()
  | .ldc constant => do push (← value constant.descriptor (.constant constant))
  | .tableSwitch _ _ _ _ | .lookupSwitch _ _ _ => do let _ ← pop
  | .multiNewArray descriptor dimensions => do
    let lengths ← popN dimensions.toNat
    push (← value descriptor (.newArray position lengths))
  | .frame frame => applyFrame b position frame

end Classmith.Simulation.Sim
