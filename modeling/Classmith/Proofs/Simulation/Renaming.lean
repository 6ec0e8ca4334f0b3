import Classmith.Proofs.Simulation.Types
import Classmith.Simulation.Walk

/-!
# Renamed simulations

What a renaming makes of the values, states and faults of a simulation: field types and constants are
renamed, numbers and flags stay.
-/
namespace Classmith.Simulation

open Descriptor (IsPlainType)

mutual

/-- A value with its number, its field type and the constants it comes from replaced. -/
def Value.map (number : Nat → Nat) (type : String → String) (constant : Constant → Constant) : Value → Value
  | .mk id descriptor isValid isNull origin =>
    .mk (number id) (descriptor.map type) isValid isNull (origin.map number type constant)

/-- An origin with the values it refers to replaced. -/
def Origin.map (number : Nat → Nat) (type : String → String) (constant : Constant → Constant) : Origin → Origin
  | .constant value => .constant (constant value)
  | .null => .null
  | .this => .this
  | .parameter index slot => .parameter index slot
  | .fieldRead position => .fieldRead position
  | .methodReturn position => .methodReturn position
  | .dynamicReturn position => .dynamicReturn position
  | .newObject position => .newObject position
  | .newArray position lengths => .newArray position (Value.mapAll number type constant lengths)
  | .arrayElement position array index =>
    .arrayElement position (array.map number type constant) (index.map number type constant)
  | .arrayLength position array => .arrayLength position (array.map number type constant)
  | .cast position source => .cast position (source.map number type constant)
  | .instanceOf position checked => .instanceOf position (checked.map number type constant)
  | .arithmetic position left right =>
    .arithmetic position (left.map number type constant) (right.map number type constant)
  | .negation position operand => .negation position (operand.map number type constant)
  | .conversion position source => .conversion position (source.map number type constant)
  | .comparison position left right =>
    .comparison position (left.map number type constant) (right.map number type constant)
  | .frame position => .frame position
  | .undefined => .undefined
  | .invalid => .invalid

def Value.mapAll (number : Nat → Nat) (type : String → String) (constant : Constant → Constant) :
    List Value → List Value
  | [] => []
  | v :: rest => v.map number type constant :: Value.mapAll number type constant rest

end

theorem Value.mapAll_eq (number : Nat → Nat) (type : String → String) (constant : Constant → Constant)
    (l : List Value) : Value.mapAll number type constant l = l.map (Value.map number type constant) := by
  induction l with
  | nil => rfl
  | cons v rest ih => rw [Value.mapAll, ih, List.map_cons]

mutual

theorem Value.map_self : (v : Value) → v.map (fun n => n) (fun d => d) (fun c => c) = v
  | .mk _ _ _ _ origin => by rw [Value.map, Origin.map_self origin, Option.map_id_fun']; rfl

theorem Origin.map_self : (o : Origin) → o.map (fun n => n) (fun d => d) (fun c => c) = o
  | .newArray _ lengths => by rw [Origin.map, Value.mapAll_self lengths]
  | .arrayElement _ array index => by rw [Origin.map, Value.map_self array, Value.map_self index]
  | .arrayLength _ v | .cast _ v | .instanceOf _ v | .negation _ v | .conversion _ v => by
    rw [Origin.map, Value.map_self v]
  | .arithmetic _ left right | .comparison _ left right => by
    rw [Origin.map, Value.map_self left, Value.map_self right]
  | .constant _ | .null | .this | .parameter _ _ | .fieldRead _ | .methodReturn _ | .dynamicReturn _ | .newObject _
  | .frame _ | .undefined | .invalid => rfl

theorem Value.mapAll_self : (l : List Value) → Value.mapAll (fun n => n) (fun d => d) (fun c => c) l = l
  | [] => rfl
  | v :: rest => by rw [Value.mapAll, Value.map_self v, Value.mapAll_self rest]

end

def Value.rename (r : Renaming) : Value → Value := Value.map (fun n => n) r.signature r.constant

def Origin.rename (r : Renaming) : Origin → Origin := Origin.map (fun n => n) r.signature r.constant

variable (r : Renaming)

theorem Origin.rename_newArray (position : Nat) (lengths : List Value) :
    (Origin.newArray position lengths).rename r = .newArray position (lengths.map (Value.rename r)) :=
  congrArg (Origin.newArray position) (Value.mapAll_eq _ _ _ lengths)

section Observations

variable (v : Value)

@[simp] theorem Value.id_rename : (v.rename r).id = v.id := by cases v; rfl

@[simp] theorem Value.descriptor_rename :
    (v.rename r).descriptor = v.descriptor.map r.signature := by cases v; rfl

@[simp] theorem Value.isValid_rename : (v.rename r).isValid = v.isValid := by cases v; rfl

@[simp] theorem Value.isNull_rename : (v.rename r).isNull = v.isNull := by cases v; rfl

@[simp] theorem Value.origin_rename : (v.rename r).origin = v.origin.rename r := by cases v; rfl

end Observations

def State.rename (s : State) : State :=
  { s with stack := s.stack.map (Value.rename r), locals := s.locals.map (Value.rename r) }

@[simp] theorem State.length_stack_rename (s : State) :
    (s.rename r).stack.length = s.stack.length := List.length_map _

@[simp] theorem State.length_locals_rename (s : State) :
    (s.rename r).locals.length = s.locals.length := List.length_map _

@[simp] theorem State.declaredSlots_rename (s : State) :
    (s.rename r).declaredSlots = s.declaredSlots := rfl

def Body.rename (b : Body) : Body :=
  ⟨Signature.newName r.classes b.owner, b.instructions.map r.instruction⟩

/-- Values are reported by their text, which is a field type or no signature at all. -/
def Malformation.rename : Malformation → Malformation
  | .badDescriptor descriptor defect => .badDescriptor (r.signature descriptor) defect
  | .notOneWord found => .notOneWord (r.signature found)
  | .notAnArray found => .notAnArray (r.signature found)
  | .notPoppable found => .notPoppable (r.signature found)
  | .underflow => .underflow
  | .unknownArrayType code => .unknownArrayType code
  | .missingLocal slot => .missingLocal slot
  | .notSwappable => .notSwappable
  | .noDupForm form categories => .noDupForm form categories
  | .chopsTooMany => .chopsTooMany
  | .unknownLabel label => .unknownLabel label
  | .notAllocated label => .notAllocated label

def Fault.rename : Fault → Fault
  | .malformed cause => .malformed (cause.rename r)
  | .unsupported cause => .unsupported cause

def Visit.rename (v : Visit) : Visit :=
  ⟨v.position, r.instruction v.instruction, v.before.rename r, v.after.map (State.rename r)⟩

/-! ## What renaming does not change -/

theorem category_signature (text : String) :
    Descriptor.category (r.signature text) = Descriptor.category text := by
  have hhead : (r.signature text).toList.head? = text.toList.head? :=
    Signature.head?_text_renameClasses _ _
  unfold Descriptor.category
  generalize (r.signature text).toList = new at hhead
  generalize text.toList = old at hhead
  cases new with
  | nil =>
    cases old with
    | nil => rfl
    | cons d old => simp at hhead
  | cons c new =>
    cases old with
    | nil => simp at hhead
    | cons d old =>
      simp only [List.head?_cons, Option.some.injEq] at hhead
      subst hhead
      split <;> simp_all

@[simp] theorem Value.category_rename (v : Value) : (v.rename r).category = v.category := by
  have hmap : (v.descriptor.map r.signature).map Descriptor.category =
      v.descriptor.map Descriptor.category := by
    rw [Option.map_map]
    congr 1
    funext text
    exact category_signature r text
  simp only [Value.category, Value.isNull_rename, Value.isValid_rename, Value.descriptor_rename, hmap]

/-- A text without class types is kept. -/
theorem signature_eq_self {text : String} (hmark : ';' ∉ text.toList) (hdot : '.' ∉ text.toList) :
    r.signature text = text :=
  Signature.text_renameClasses_eq_self (Signature.memberFree_of_notMem hdot)
    (by simp [Signature.textNames_of_notMem hmark])

theorem Value.text_rename (v : Value) : (v.rename r).text = r.signature v.text := by
  have hnull : r.signature "null" = "null" := signature_eq_self r (by decide) (by decide)
  have hinvalid : r.signature "<invalid>" = "<invalid>" :=
    signature_eq_self r (by decide) (by decide)
  have hundefined : r.signature "<undefined>" = "<undefined>" :=
    signature_eq_self r (by decide) (by decide)
  simp only [Value.text, Value.isNull_rename, Value.isValid_rename, Value.descriptor_rename]
  split
  · exact hnull.symm
  · split
    · exact hinvalid.symm
    · cases v.descriptor with
      | none => exact hundefined.symm
      | some text => rfl

end Classmith.Simulation
