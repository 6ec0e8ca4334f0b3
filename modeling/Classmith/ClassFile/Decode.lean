import Classmith.ClassFile.Basic
import Classmith.Json.Decode

/-!
# Classes from JSON

Decoders for every part of a class. An instruction is read as a whole before it is decoded, so what
does not fit inside it is reported at the instruction, apart from its kind.
-/
namespace Classmith

open Json Json.Decoder

namespace ClassFile

def handle : Decoder Handle := record [
  defaulted "tag" uint8 fun x h => { h with tag := x },
  defaulted "owner" text fun x h => { h with owner := x },
  defaulted "name" text fun x h => { h with name := x },
  defaulted "descriptor" text fun x h => { h with descriptor := x },
  defaulted "is_interface" flag fun x h => { h with isInterface := x }] {}

/-- The parts of a constant computed by a bootstrap method. -/
structure Bootstrapped where
  name : String := ""
  descriptor : String := ""
  bootstrap : Handle := {}
  arguments : List Constant := []

def Bootstrapped.toConstant (d : Bootstrapped) : Constant :=
  .dynamic d.name d.descriptor d.bootstrap d.arguments

def bootstrapped (argument : Decoder Constant) : Decoder Bootstrapped := record [
  required "name" text fun x d => { d with name := x },
  required "descriptor" text fun x d => { d with descriptor := x },
  required "bootstrap" handle fun x d => { d with bootstrap := x },
  defaulted "bootstrap_args" (list argument) fun x d => { d with arguments := x }] {}

/-- A constant with constants nested in it up to a level. -/
def constant : (levels : Nat) → Decoder Constant
  | 0 => fun _ => .error .malformed
  | levels + 1 => variant [
      ("int", int32.map .int),
      ("float", single.map .float),
      ("long", int64.map .long),
      ("double", double.map .double),
      ("string", text.map .string),
      ("type", text.map .type),
      ("method_type", text.map .methodType),
      ("handle", handle.map .handle),
      ("dynamic", (bootstrapped (constant levels)).map Bootstrapped.toConstant)]

/-- The parts of an annotation, its elements first decoded by themselves. -/
def annotationRecord (value : Decoder AnnotationValue) : Decoder Annotation :=
  let element : Decoder (String × AnnotationValue) := record [
    required "name" text fun x e => (x, e.2),
    required "value" value fun x e => (e.1, x)] ("", default)
  record [
    defaulted "descriptor" text fun x a => match a with
      | .mk _ visible elements => .mk x visible elements,
    defaulted "visible" flag fun x a => match a with
      | .mk descriptor _ elements => .mk descriptor x elements,
    defaulted "values" (list element) fun x a => match a with
      | .mk descriptor visible _ => .mk descriptor visible x] default

def enumConstant : Decoder (String × String) := record [
  required "descriptor" text fun x e => (x, e.2),
  required "name" text fun x e => (e.1, x)] ("", "")

/-- An annotation value with values nested in it up to a level. -/
def annotationValue : (levels : Nat) → Decoder AnnotationValue
  | 0 => fun _ => .error .malformed
  | levels + 1 => variant [
      ("boolean", flag.map .boolean),
      ("byte", int8.map .byte),
      ("char", uint16.map .char),
      ("short", int16.map .short),
      ("int", int32.map .int),
      ("long", int64.map .long),
      ("float", single.map .float),
      ("double", double.map .double),
      ("string", text.map .string),
      ("class", text.map .classType),
      ("enum", enumConstant.map fun (descriptor, name) => .enumConstant descriptor name),
      ("annotation", (annotationRecord (annotationValue levels)).map .nested),
      ("array", (list (annotationValue levels)).map .array)]

/-- Readable values are nested no deeper than the limit. -/
def anyConstant : Decoder Constant := constant nestingLimit

def anyAnnotationValue : Decoder AnnotationValue := annotationValue nestingLimit

def annotations : Decoder (List Annotation) := list (annotationRecord anyAnnotationValue)

/-- A frame value: a name, or an object with one member; a case without content takes `null` or an
empty object. -/
def frameValue : Decoder FrameValue
  | .string name =>
    match plain.lookup name with
    | some v => .ok v
    | none => .error (.mismatch [])
  | .object [(some "object", value)] => (text value).map .object
  | .object [(some "uninitialized", value)] => (uint32 value).map .uninitialized
  | .object [(some name, value)] =>
    match plain.lookup name, value with
    | some v, .null => .ok v
    | some v, .object [] => .ok v
    | _, _ => .error (.mismatch [])
  | j => .error (reject j)
where
  plain : List (String × FrameValue) := [
    ("top", .top), ("integer", .integer), ("float", .float), ("long", .long), ("double", .double),
    ("null", .null), ("uninitialized_this", .uninitializedThis)]

/-- The fields of all kinds of frames. -/
structure FrameParts where
  stack : FrameValue := .top
  stackValues : List FrameValue := []
  locals : List FrameValue := []
  count : UInt64 := 0

/-- The kinds of frames in order, with their fields. -/
def frameKinds : List (String × List (Entry FrameParts) × (FrameParts → Frame)) :=
  let locals := required "locals" (list frameValue) fun x (f : FrameParts) => { f with locals := x }
  [("same", [], fun _ => .same),
    ("same1", [required "stack" frameValue fun x f => { f with stack := x }],
      fun f => .same1 f.stack),
    ("append", [locals], fun f => .append f.locals),
    ("chop", [required "count" uint64 fun x f => { f with count := x }], fun f => .chop f.count),
    ("full", [locals, required "stack" (list frameValue) fun x f => { f with stackValues := x }],
      fun f => .full f.locals f.stackValues)]

/-- The kind of a frame by its name or by its position among the kinds. -/
def frameKind? : Json → Option (List (Entry FrameParts) × (FrameParts → Frame))
  | .string name => frameKinds.lookup name
  | .number n =>
    match n.word? with
    | some (.ofNat i) => (frameKinds[i]?).map (·.2)
    | _ => none
  | _ => none

/-- The members with a key, and the others. -/
def takeMembers (key : String) (all : List (Option String × Json)) :
    List Json × List (Option String × Json) :=
  let (tags, others) := all.partition fun m => m.1 = some key
  (tags.map (·.2), others)

def frame : Decoder Frame
  | .object all =>
    match takeMembers "type" all with
    | ([tag], others) =>
      match frameKind? tag with
      | some (entries, make) => (members entries [] others {}).map make
      | none => .error (.mismatch [])
    | _ => .error (.mismatch [])
  | .array (tag :: rest) =>
    match frameKind? tag with
    | some (entries, make) => (positional 0 entries rest {}).map make
    | none => .error (.mismatch [])
  | _ => .error (.mismatch [])

/-- The fields of all kinds of instructions. -/
structure InstructionParts where
  opcode : UInt8 := 0
  operand : Int32 := 0
  slot : UInt16 := 0
  owner : String := ""
  name : String := ""
  descriptor : String := ""
  isInterface : Bool := false
  bootstrap : Handle := {}
  arguments : List Constant := []
  label : Label := 0
  labels : List Label := []
  keys : List Int32 := []
  min : Int32 := 0
  max : Int32 := 0
  increment : Int16 := 0
  dimensions : UInt8 := 0
  constant : Constant := default
  frame : Frame := .same
  line : UInt16 := 0

namespace InstructionParts

abbrev Part := Entry InstructionParts

def opcodePart : Part := required "opcode" uint8 fun x i => { i with opcode := x }

def slotPart : Part := required "var" uint16 fun x i => { i with slot := x }

def ownerPart : Part := required "owner" text fun x i => { i with owner := x }

def namePart : Part := required "name" text fun x i => { i with name := x }

def descriptorPart : Part := required "descriptor" text fun x i => { i with descriptor := x }

/-- A label under the given name. -/
def labelPart (name : String) : Part := required name uint32 fun x i => { i with label := x }

def labelsPart : Part := required "labels" (list uint32) fun x i => { i with labels := x }

end InstructionParts

open InstructionParts in
/-- The kinds of instructions with their fields. -/
def instructionKinds : List (String × List (Entry InstructionParts) × (InstructionParts → Instruction)) :=
  [("insn", [opcodePart], fun i => .insn i.opcode),
    ("int", [opcodePart, required "operand" int32 fun x i => { i with operand := x }],
      fun i => .int i.opcode i.operand),
    ("var", [opcodePart, slotPart], fun i => .var i.opcode i.slot),
    ("type", [opcodePart, descriptorPart], fun i => .type i.opcode i.descriptor),
    ("field", [opcodePart, ownerPart, namePart, descriptorPart],
      fun i => .field i.opcode i.owner i.name i.descriptor),
    ("method", [opcodePart, ownerPart, namePart, descriptorPart,
        defaulted "is_interface" flag fun x i => { i with isInterface := x }],
      fun i => .method i.opcode i.owner i.name i.descriptor i.isInterface),
    ("invoke_dynamic", [namePart, descriptorPart,
        required "bootstrap" handle fun x i => { i with bootstrap := x },
        defaulted "bootstrap_args" (list anyConstant) fun x i => { i with arguments := x }],
      fun i => .invokeDynamic i.name i.descriptor i.bootstrap i.arguments),
    ("jump", [opcodePart, labelPart "label"], fun i => .jump i.opcode i.label),
    ("label", [labelPart "id"], fun i => .label i.label),
    ("ldc", [required "value" anyConstant fun x i => { i with constant := x }],
      fun i => .ldc i.constant),
    ("iinc", [slotPart, required "increment" int16 fun x i => { i with increment := x }],
      fun i => .iinc i.slot i.increment),
    ("table_switch", [required "min" int32 fun x i => { i with min := x },
        required "max" int32 fun x i => { i with max := x }, labelPart "default", labelsPart],
      fun i => .tableSwitch i.min i.max i.label i.labels),
    ("lookup_switch", [labelPart "default",
        required "keys" (list int32) fun x i => { i with keys := x }, labelsPart],
      fun i => .lookupSwitch i.label i.keys i.labels),
    ("multi_a_new_array", [descriptorPart,
        required "dimensions" uint8 fun x i => { i with dimensions := x }],
      fun i => .multiNewArray i.descriptor i.dimensions),
    ("frame", [required "frame" frame fun x i => { i with frame := x }], fun i => .frame i.frame),
    ("line_number", [required "line" uint16 fun x i => { i with line := x }, labelPart "start"],
      fun i => .line i.line i.label)]

/-- Fields of an instruction and what they make. -/
abbrev InstructionKind := List (Entry InstructionParts) × (InstructionParts → Instruction)

def instructionKind : Decoder InstructionKind
  | .string name =>
    match instructionKinds.lookup name with
    | some kind => .ok kind
    | none => .error (.mismatch [])
  | j => .error (reject j)

/-- Reads the members of an instruction: its kind, which is there once, and the others unread. -/
def sortMembers (kind : Option InstructionKind) :
    List (Option String × Json) → Except DecodeError (InstructionKind × List (Option String × Json))
  | [] =>
    match kind with
    | some kind => .ok (kind, [])
    | none => .error (.mismatch [])
  | (none, _) :: _ => .error .malformed
  | (some "kind", value) :: rest =>
    match kind with
    | some _ => .error (.mismatch [])
    | none => do
      let kind ← within (.key "kind") (instructionKind value)
      sortMembers (some kind) rest
  | (some key, value) :: rest =>
    if value.readable then do
      let (kind, others) ← sortMembers kind rest
      return (kind, (some key, value) :: others)
    else .error .malformed

/-- Reports whatever does not fit at the value itself. -/
def atOnce {α : Type} : Except DecodeError α → Except DecodeError α
  | .ok a => .ok a
  | .error _ => .error (.mismatch [])

def instruction : Decoder Instruction
  | .object all => do
    let ((entries, make), others) ← sortMembers none all
    atOnce ((members entries [] others {}).map make)
  | .array [] => .error (.mismatch [])
  | .array (tag :: rest) => do
    let (entries, make) ← within (.index 0) (instructionKind tag)
    if itemsReadable rest then atOnce ((positional 0 entries rest {}).map make)
    else .error .malformed
  | .deep _ => .error .malformed
  | j => .error (reject j)

def field : Decoder Field := record [
  defaulted "access" uint16 fun x f => { f with access := x },
  defaulted "name" text fun x f => { f with name := x },
  defaulted "descriptor" text fun x f => { f with descriptor := x },
  defaulted "signature" (option text) fun x f => { f with signature := x },
  defaulted "value" (option anyConstant) fun x f => { f with value := x },
  defaulted "annotations" annotations fun x f => { f with annotations := x },
  defaulted "type_annotations" annotations fun x f => { f with typeAnnotations := x }] {}

def tryCatch : Decoder TryCatch := record [
  required "start" uint32 fun x t => { t with start := x },
  required "end" uint32 fun x t => { t with stop := x },
  required "handler" uint32 fun x t => { t with handler := x },
  defaulted "exception_type" (option text) fun x t => { t with type := x }] default

def localVariable : Decoder LocalVariable := record [
  required "name" text fun x v => { v with name := x },
  required "descriptor" text fun x v => { v with descriptor := x },
  defaulted "signature" (option text) fun x v => { v with signature := x },
  required "start" uint32 fun x v => { v with start := x },
  required "end" uint32 fun x v => { v with stop := x },
  required "index" uint16 fun x v => { v with slot := x }] default

def method : Decoder Method := record [
  defaulted "access" uint16 fun x m => { m with access := x },
  defaulted "name" text fun x m => { m with name := x },
  defaulted "descriptor" text fun x m => { m with descriptor := x },
  defaulted "signature" (option text) fun x m => { m with signature := x },
  defaulted "exceptions" (list text) fun x m => { m with exceptions := x },
  defaulted "max_stack" uint16 fun x m => { m with maxStack := x },
  defaulted "max_locals" uint16 fun x m => { m with maxLocals := x },
  defaulted "instructions" (list instruction) fun x m => { m with instructions := x },
  defaulted "try_catch_blocks" (list tryCatch) fun x m => { m with tryCatches := x },
  defaulted "local_variables" (list localVariable) fun x m => { m with localVariables := x },
  defaulted "annotations" annotations fun x m => { m with annotations := x },
  defaulted "type_annotations" annotations fun x m => { m with typeAnnotations := x },
  defaulted "parameter_annotations" (list annotations)
    fun x m => { m with parameterAnnotations := x },
  defaulted "annotation_default" (option anyAnnotationValue)
    fun x m => { m with annotationDefault := x }] {}

def innerClass : Decoder InnerClass := record [
  defaulted "name" text fun x i => { i with name := x },
  defaulted "outer_name" (option text) fun x i => { i with outerName := x },
  defaulted "inner_name" (option text) fun x i => { i with innerName := x },
  defaulted "access" uint16 fun x i => { i with access := x }] {}

def recordComponent : Decoder RecordComponent := record [
  defaulted "name" text fun x c => { c with name := x },
  defaulted "descriptor" text fun x c => { c with descriptor := x },
  defaulted "signature" (option text) fun x c => { c with signature := x },
  defaulted "annotations" annotations fun x c => { c with annotations := x },
  defaulted "type_annotations" annotations fun x c => { c with typeAnnotations := x }] {}

def provision : Decoder Provision := record [
  defaulted "service" text fun x p => { p with service := x },
  defaulted "providers" (list text) fun x p => { p with providers := x }] {}

def moduleInfo : Decoder Module := record [
  defaulted "name" text fun x m => { m with name := x },
  defaulted "main_class" (option text) fun x m => { m with mainClass := x },
  defaulted "uses" (list text) fun x m => { m with uses := x },
  defaulted "provides" (list provision) fun x m => { m with provides := x }] {}

def anyClass : Decoder Class := record [
  defaulted "version" uint16 fun x c => { c with version := x },
  defaulted "access" uint16 fun x c => { c with access := x },
  defaulted "name" text fun x c => { c with name := x },
  defaulted "super_name" (option text) fun x c => { c with superName := x },
  defaulted "interfaces" (list text) fun x c => { c with interfaces := x },
  defaulted "signature" (option text) fun x c => { c with signature := x },
  defaulted "source_file" (option text) fun x c => { c with sourceFile := x },
  defaulted "fields" (list field) fun x c => { c with fields := x },
  defaulted "methods" (list method) fun x c => { c with methods := x },
  defaulted "inner_classes" (list innerClass) fun x c => { c with innerClasses := x },
  defaulted "outer_class" (option text) fun x c => { c with outerClass := x },
  defaulted "outer_method" (option text) fun x c => { c with outerMethod := x },
  defaulted "outer_method_descriptor" (option text)
    fun x c => { c with outerMethodDescriptor := x },
  defaulted "nest_host" (option text) fun x c => { c with nestHost := x },
  defaulted "nest_members" (list text) fun x c => { c with nestMembers := x },
  defaulted "permitted_subclasses" (list text) fun x c => { c with permittedSubclasses := x },
  defaulted "record_components" (list recordComponent) fun x c => { c with recordComponents := x },
  defaulted "module" (option moduleInfo) fun x c => { c with module := x },
  defaulted "annotations" annotations fun x c => { c with annotations := x },
  defaulted "type_annotations" annotations fun x c => { c with typeAnnotations := x }] {}

/-- The classes of a file: an array of classes. -/
def classes : Decoder (List Class) := list anyClass

end ClassFile

end Classmith
