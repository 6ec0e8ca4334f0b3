import Classmith.Proofs.DescriptorOffsets
import Classmith.Proofs.Simulation.Counters
import Classmith.Proofs.Simulation.Locals

/-!
# Walks that check what they do

A walk finds the entries of the stack, the local slots and the instructions after a label by their positions,
gets some positions as differences, and numbers its values by a counter. Here is a walk that checks each position and
each difference before it is used and has a limited counter, and that has no result at all when a check fails. If the
counter starts again after its largest number it always has a result, and the result is that of the walk that checks
nothing, up to the numbers. If the counter stops, the walk fails exactly if it makes more values than the counter has
numbers.
-/
namespace Classmith.Simulation

namespace Checked

open Sim (categories categories_four exists_entries_of_categories wordCount_of_dupShape?)

/-! ## Accesses -/

def difference? (a b : Nat) : Option Nat := if b ≤ a then some (a - b) else none

section

variable {α : Type}

/-- The rest of a list from a position, which may be its end. -/
def suffix? (l : List α) (start : Nat) : Option (List α) :=
  if start ≤ l.length then some (l.drop start) else none

/-- A list with others put in before a position, which may be its end. -/
def splice? (l : List α) (place : Nat) (inserted : List α) : Option (List α) :=
  if place ≤ l.length then some (l.take place ++ inserted ++ l.drop place) else none

def overwrite? (l : List α) (i : Nat) (a : α) : Option (List α) :=
  if i < l.length then some (l.set i a) else none

def exchange? (l : List α) (i j : Nat) : Option (List α) :=
  (l[i]?).bind fun a => (l[j]?).map fun b => (l.set i b).set j a

end

/-! ## The stack -/

/-- The entry at a depth of a stack with the bottom first. -/
def entryAt? (entries : List Value) (depth : Nat) : Option (Option Value) :=
  if depth < entries.length then
    (difference? entries.length 1).bind fun last => (difference? last depth).map fun i => entries[i]?
  else some none

def categoryAt (depth : Nat) : Checked (Option Category) := do
  let entry ← access (entryAt? (← get).stackValues depth)
  return entry.bind Value.category

/-- Copies the top entries below the next ones. -/
def insertCopies? (take below : Nat) (entries : List Value) : Option (List Value) :=
  (difference? entries.length take).bind fun start => (difference? start below).bind fun place =>
    (suffix? entries start).bind (splice? entries place)

def duplicate (form : DupForm) : Checked Unit := do
  let first ← categoryAt 0
  let second ← categoryAt 1
  let third ← categoryAt 2
  let fourth ← categoryAt 3
  let categories := [first, second, third, fourth]
  match Sim.dupShape? form categories with
  | some (take, below) =>
    let s ← get
    let entries ← access (insertCopies? take below s.stackValues)
    set { s with stack := entries.reverse }
  | none => lift (Sim.malformed (.noDupForm form categories))

def exchangeTop? (entries : List Value) : Option (List Value) :=
  (difference? entries.length 1).bind fun top => (difference? entries.length 2).bind fun next =>
    exchange? entries top next

def swap : Checked Unit := do
  let top ← categoryAt 0
  let next ← categoryAt 1
  if top = some .one ∧ next = some .one then
    let s ← get
    let entries ← access (exchangeTop? s.stackValues)
    set { s with stack := entries.reverse }
  else lift (Sim.malformed .notSwappable)

/-- Overwrites a slot, which must be there. -/
def setLocal (slot : Nat) (v : Value) : Checked Unit := do
  let s ← get
  let locals ← access (overwrite? s.locals slot v)
  set { s with locals := locals }

def setInvalid (k : Counter) (slot : Nat) : Checked Unit := invalid k >>= setLocal slot

/-- Makes a two-word value before a slot unusable. -/
def cutBefore (k : Counter) (slot : Nat) : Checked Unit := do
  if 0 < slot then
    let before ← access (difference? slot 1)
    let v ← access ((← get).locals[before]?)
    if v.category = some .two then setInvalid k before else pure ()
  else pure ()

def storeLocal (k : Counter) (slot : Nat) (v : Value) : Checked Unit := do
  ensureLocals k (slot + if v.category = some .two then 2 else 1)
  cutBefore k slot
  setLocal slot v
  if v.category = some .two then setInvalid k (slot + 1) else pure ()

/-- Makes the slots from one to another unusable, each with a value of its own. -/
def blank (k : Counter) (slot stop : Nat) : Checked Unit := do
  if slot < stop then
    setInvalid k slot
    blank k (slot + 1) stop
  else pure ()
termination_by stop - slot

/-- The position of the last occurrence of a label. -/
def labelPosition? (label : Label) : List Instruction → Option Nat
  | [] => none
  | i :: rest =>
    match labelPosition? label rest with
    | some position => some (position + 1)
    | none =>
      match i with
      | .label id => if id = label then some 0 else none
      | _ => none

/-- The field type of what is allocated after a label, searched for from a position on. -/
def allocated? (b : Body) (label : Label) : Option (Except Malformation String) :=
  match labelPosition? label b.instructions with
  | none => some (.error (.unknownLabel label))
  | some position => (suffix? b.instructions (position + 1)).map fun rest =>
    ((rest.find? fun i => !Body.isMarker i).bind allocation?).elim (.error (.notAllocated label))
      fun operand => .ok (Descriptor.ofName operand)

/-- What an entry of a frame declares, for the number it gets. -/
def make? (b : Body) (position : Nat) : FrameValue → Option (Except Malformation (Nat → Value))
  | .uninitialized label => (allocated? b label).map fun found => found.map (Value.declared position)
  | entry => some (.ok (entry.make b position))

def frameValue (k : Counter) (b : Body) (position : Nat) (entry : FrameValue) : Checked (Value × Nat) := do
  match ← access (make? b position entry) with
  | .ok make => return (make (← number k), entry.width)
  | .error cause => lift (Sim.malformed cause)

def declareLocal (k : Counter) (b : Body) (position : Nat) (entry : FrameValue) : Checked Unit := do
  let s ← get
  let (v, width) ← frameValue k b position entry
  ensureLocals k (s.declaredSlots + width)
  setLocal s.declaredSlots v
  let second : Checked Unit := if width = 2 then setInvalid k (s.declaredSlots + 1) else pure ()
  second
  lift (modify fun s => { s with widths := width :: s.widths })

def declareLocals (k : Counter) (b : Body) (position : Nat) : List FrameValue → Checked Unit
  | [] => pure ()
  | entry :: rest => do
    declareLocal k b position entry
    declareLocals k b position rest

def pushEntries (k : Counter) (b : Body) (position : Nat) : List FrameValue → Checked Unit
  | [] => pure ()
  | entry :: rest => do
    let (v, _) ← frameValue k b position entry
    lift (Sim.push v)
    pushEntries k b position rest

def chop (k : Counter) : (count : Nat) → Checked Unit
  | 0 => pure ()
  | count + 1 => do
    let s ← get
    match s.widths with
    | [] => lift (Sim.malformed .chopsTooMany)
    | width :: rest =>
      set { s with widths := rest }
      let slot := (← get).declaredSlots
      blank k slot (slot + width)
      chop k count

def applyFrame (k : Counter) (b : Body) (position : Nat) : Frame → Checked Unit
  | .same => lift Sim.clearStack
  | .same1 entry => do
    let (v, _) ← frameValue k b position entry
    lift Sim.clearStack
    lift (Sim.push v)
  | .append locals => do
    declareLocals k b position locals
    lift Sim.clearStack
  | .chop count => do
    chop k count.toNat
    lift Sim.clearStack
  | .full locals stack => do
    lift (modify fun s => { s with widths := [] })
    let before := (← get).locals.length
    declareLocals k b position locals
    blank k (← get).declaredSlots before
    lift Sim.clearStack
    pushEntries k b position stack

-- without room for the declared locals a slot to overwrite is missing
example : (chop ⟨5, true⟩ 1 ⟨[], [], [1], 0⟩).run = none := by cbv

/-- The type of an arithmetic instruction, from the distance to the first one of its block. -/
def arithmeticType? (opcode : Nat) : Option String :=
  if 0x78 ≤ opcode then (difference? opcode 0x78).map fun distance => lane (distance % 2)
  else (difference? opcode 0x60).map fun distance => lane (distance % 4)

def effect? (opcode : UInt8) : Option (Option Effect) :=
  match Effect.ofOpcode? opcode with
  | some (.binary _) => (arithmeticType? opcode.toNat).map fun result => some (.binary result)
  | effect => some effect

/-- Replaces a value by one made from it. -/
def unary (k : Counter) (descriptor : String) (origin : Value → Origin) : Checked Unit := do
  let operand ← lift Sim.pop
  lift (Sim.push (← value k descriptor (origin operand)))

/-- Replaces two values by one made from them. -/
def binary (k : Counter) (descriptor : String) (origin : Value → Value → Origin) : Checked Unit := do
  let right ← lift Sim.pop
  let left ← lift Sim.pop
  lift (Sim.push (← value k descriptor (origin left right)))

/-- The effects not named here make no value. -/
def applyEffect (k : Counter) (position : Nat) : Effect → Checked Unit
  | .push constant => do lift (Sim.push (← value k constant.descriptor (.constant constant)))
  | .pushNull => do lift (Sim.push (← fresh k none true true .null))
  | .arrayLoad (some element) => binary k element (.arrayElement position)
  | .arrayLoad none => do
    let index ← lift Sim.pop
    let array ← lift Sim.pop
    match Sim.elementType? array with
    | some element => lift (Sim.push (← value k element (.arrayElement position array index)))
    | none => lift (Sim.malformed (.notAnArray array.text))
  | .arrayLength => unary k "I" (.arrayLength position)
  | .dup form => duplicate form
  | .swap => swap
  | .binary result => binary k result (.arithmetic position)
  | .negate result => unary k result (.negation position)
  | .convert result => unary k result (.conversion position)
  | .compare => binary k "I" (.comparison position)
  | effect => lift (Sim.applyEffect position effect)

def applyInt (k : Counter) (position : Nat) (opcode : UInt8) (operand : Int32) : Checked Unit :=
  match opcode with
  | 0x10 | 0x11 => do lift (Sim.push (← value k "I" (.constant (.int operand))))
  | 0xbc =>
    match Sim.arrayType? operand with
    | none => lift (Sim.malformed (.unknownArrayType operand))
    | some descriptor => unary k descriptor fun length => .newArray position [length]
  | _ => lift (Sim.unsupported (.int opcode))

def applyVar (k : Counter) (opcode : UInt8) (slot : Nat) : Checked Unit :=
  if 0x36 ≤ opcode && opcode ≤ 0x3a then lift Sim.pop >>= storeLocal k slot
  else lift (Sim.applyVar opcode slot)

def applyType (k : Counter) (position : Nat) (opcode : UInt8) (operand : String) : Checked Unit :=
  match opcode with
  | 0xbb => do lift (Sim.push (← value k (Descriptor.ofName operand) (.newObject position)))
  | 0xbd => unary k ("[" ++ Descriptor.ofName operand) fun length => .newArray position [length]
  | 0xc0 => do
    let source ← lift Sim.pop
    lift (Sim.push (← fresh k (some (Descriptor.ofName operand)) true source.isNull (.cast position source)))
  | 0xc1 => unary k "Z" (.instanceOf position)
  | _ => lift (Sim.unsupported (.type opcode))

def applyField (k : Counter) (position : Nat) (opcode : UInt8) (descriptor : String) : Checked Unit :=
  match opcode with
  | 0xb2 => do lift (Sim.push (← value k descriptor (.fieldRead position)))
  | 0xb3 => do let _ ← lift Sim.pop
  | 0xb4 => unary k descriptor fun _ => .fieldRead position
  | 0xb5 => do let _ ← lift (Sim.popN 2)
  | _ => lift (Sim.unsupported (.field opcode))

def pushResult (k : Counter) (result : String) (origin : Origin) : Checked Unit :=
  if result ≠ "V" then value k result origin >>= fun v => lift (Sim.push v) else pure ()

def invoke (k : Counter) (descriptor : String) (receiver : Bool) (origin : Origin) : Checked Unit := do
  match ← access (Descriptor.splitByOffsets descriptor) with
  | .error defect => lift (Sim.malformed (.badDescriptor descriptor defect))
  | .ok type =>
    let _ ← lift (Sim.popN type.parameters.length)
    if receiver then
      let _ ← lift Sim.pop
      pushResult k type.result origin
    else pushResult k type.result origin

def step (k : Counter) (b : Body) (position : Nat) : Instruction → Checked Unit
  | .insn opcode => do
    match ← access (effect? opcode) with
    | some effect => applyEffect k position effect
    | none => lift (Sim.unsupported (.insn opcode))
  | .int opcode operand => applyInt k position opcode operand
  | .var opcode slot => applyVar k opcode slot.toNat
  | .type opcode operand => applyType k position opcode operand
  | .field opcode _ _ descriptor => applyField k position opcode descriptor
  | .method opcode _ _ descriptor _ =>
    if 0xb6 ≤ opcode && opcode ≤ 0xb9 then invoke k descriptor (opcode ≠ 0xb8) (.methodReturn position)
    else lift (Sim.unsupported (.method opcode))
  | .invokeDynamic _ descriptor _ _ => invoke k descriptor false (.dynamicReturn position)
  | .jump opcode _ => lift (Sim.applyJump opcode)
  | .label _ | .line _ _ | .iinc _ _ => pure ()
  | .ldc constant => do lift (Sim.push (← value k constant.descriptor (.constant constant)))
  | .tableSwitch _ _ _ _ | .lookupSwitch _ _ _ => do let _ ← lift Sim.pop
  | .multiNewArray descriptor dimensions => do
    let lengths ← lift (Sim.popN dimensions.toNat)
    lift (Sim.push (← value k descriptor (.newArray position lengths)))
  | .frame declared => applyFrame k b position declared

section

variable {s : State}

end

def declareReceiver (k : Counter) (owner : String) : Checked Unit := do
  let v ← value k (Descriptor.ofName owner) .this
  lift (Sim.pushLocal v)
  lift (modify fun s => { s with widths := [1] })

def declareParameters (k : Counter) (index : Nat) : List String → Checked Unit
  | [] => pure ()
  | descriptor :: rest => do
    let s ← get
    let v ← value k descriptor (.parameter index s.locals.length)
    lift (Sim.pushLocal v)
    let second : Checked Unit :=
      if Descriptor.category descriptor = .two then invalid k >>= fun v => lift (Sim.pushLocal v) else pure ()
    second
    lift (modify fun s => { s with widths := (Descriptor.category descriptor).words :: s.widths })
    declareParameters k (index + 1) rest

def enter (k : Counter) (owner : String) (m : Method) : Checked Unit := do
  match ← access (Descriptor.splitByOffsets m.descriptor) with
  | .error defect => lift (Sim.malformed (.badDescriptor m.descriptor defect))
  | .ok type =>
    let receiver : Checked Unit := if m.isStatic then pure () else declareReceiver k owner
    receiver
    declareParameters k 0 type.parameters
    ensureLocals k m.maxLocals.toNat

/-- Runs instructions from a position on; nothing if a check of one of them fails. -/
def run (k : Counter) (b : Body) : (position : Nat) → List Instruction → State →
    Option (List Visit × Option (Nat × Fault))
  | _, [], _ => some ([], none)
  | position, i :: rest, s =>
    (step k b position i s).run.bind fun
      | .error fault => some ([⟨position, i, s, none⟩], some (position, fault))
      | .ok ((), next) => (run k b (position + 1) rest next).map fun (visits, fault) =>
        (⟨position, i, s, some next⟩ :: visits, fault)

/-- Walks a method of a class; nothing if a check fails. -/
def walk (k : Counter) (c : Class) (m : Method) : Option Walk :=
  if c.version ≤ lastWithoutFrames then some ⟨[], .ok .skipped⟩
  else
    (enter k c.name m State.start).run.bind fun
      | .error fault => some ⟨[], .error (fault.toError c.name m 0)⟩
      | .ok ((), start) =>
        (run k ⟨c.name, m.instructions⟩ 0 m.instructions start).map fun (visits, fault) =>
          ⟨visits, match fault with
            | none => .ok .walked
            | some (position, fault) => .error (fault.toError c.name m position)⟩

end Checked

/-- A visit with the numbers that a counter shows. -/
def Visit.shown (k : Counter) (v : Visit) : Visit :=
  ⟨v.position, v.instruction, v.before.shown k, v.after.map (State.shown k)⟩

def Walk.shown (k : Counter) (w : Walk) : Walk := ⟨w.visits.map (Visit.shown k), w.outcome⟩

namespace Checked

end Checked

/-- How a walk of a method can end. -/
inductive Ends (c : Class) (m : Method) : Except Error Outcome → Prop
  | skipped (h : c.version ≤ lastWithoutFrames) : Ends c m (.ok .skipped)
  | walked (h : lastWithoutFrames < c.version) : Ends c m (.ok .walked)
  | malformed (h : lastWithoutFrames < c.version) (index : Nat) (cause : Malformation) :
    Ends c m (.error (.malformed ⟨c.name, m.name, m.descriptor, index⟩ cause))
  | unsupported (h : lastWithoutFrames < c.version) (index : Nat) (cause : Unmodelled) :
    Ends c m (.error (.unsupported ⟨c.name, m.name, m.descriptor, index⟩ cause))

end Classmith.Simulation
