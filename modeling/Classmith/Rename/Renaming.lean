import Classmith.ClassFile.Basic
import Classmith.MemberTable
import Classmith.Signature.Rename

/-!
# Renamings

A renaming acts on every part of a class that names a class, field or method. Members are looked up
by the owner, descriptor and name that a class has before renaming.
-/
namespace Classmith

open Signature (ClassTable)

/-- New names of classes, fields and methods. -/
structure Renaming where
  classes : ClassTable
  fields : MemberTable
  methods : MemberTable

namespace Renaming

/-- A class name, or an array type standing in for one. -/
def classRef (r : Renaming) (name : String) : String :=
  (Signature.renameName r.classes name).text

/-- A descriptor or generic signature. -/
def signature (r : Renaming) (text : String) : String := (Signature.renameClasses r.classes text).text

def fieldName (r : Renaming) (owner descriptor name : String) : String :=
  (r.fields.get? owner descriptor name).getD name

def methodName (r : Renaming) (owner descriptor name : String) : String :=
  (r.methods.get? owner descriptor name).getD name

def handle (r : Renaming) (h : Handle) : Handle :=
  { h with
    owner := r.classRef h.owner
    name :=
      if h.isField then r.fieldName h.owner h.descriptor h.name
      else r.methodName h.owner h.descriptor h.name
    descriptor := r.signature h.descriptor }

mutual

def constant (r : Renaming) : Constant → Constant
  | .type name => .type (r.classRef name)
  | .methodType descriptor => .methodType (r.signature descriptor)
  | .handle h => .handle (r.handle h)
  | .dynamic name descriptor bootstrap arguments =>
    .dynamic name (r.signature descriptor) (r.handle bootstrap) (r.constants arguments)
  | .int value => .int value
  | .float value => .float value
  | .long value => .long value
  | .double value => .double value
  | .string value => .string value

def constants (r : Renaming) : List Constant → List Constant
  | [] => []
  | c :: rest => r.constant c :: r.constants rest

end

mutual

def annotationValue (r : Renaming) : AnnotationValue → AnnotationValue
  | .classType descriptor => .classType (r.signature descriptor)
  | .enumConstant descriptor name =>
    .enumConstant (r.signature descriptor) <|
      match Descriptor.internalName? descriptor with
      | some owner => r.fieldName owner descriptor name
      | none => name
  | .nested value => .nested (r.annotationRecord value)
  | .array values => .array (r.annotationValues values)
  | .boolean value => .boolean value
  | .byte value => .byte value
  | .char value => .char value
  | .short value => .short value
  | .int value => .int value
  | .long value => .long value
  | .float value => .float value
  | .double value => .double value
  | .string value => .string value

def annotationValues (r : Renaming) : List AnnotationValue → List AnnotationValue
  | [] => []
  | v :: rest => r.annotationValue v :: r.annotationValues rest

def annotationRecord (r : Renaming) : Annotation → Annotation
  | .mk descriptor visible elements =>
    .mk (r.signature descriptor) visible (r.annotationElements elements)

def annotationElements (r : Renaming) :
    List (String × AnnotationValue) → List (String × AnnotationValue)
  | [] => []
  | (name, value) :: rest => (name, r.annotationValue value) :: r.annotationElements rest

end

def annotations (r : Renaming) (l : List Annotation) : List Annotation := l.map r.annotationRecord

def frameValue (r : Renaming) : FrameValue → FrameValue
  | .object name => .object (r.classRef name)
  | v => v

def frame (r : Renaming) : Frame → Frame
  | .same => .same
  | .same1 stack => .same1 (r.frameValue stack)
  | .append locals => .append (locals.map r.frameValue)
  | .chop count => .chop count
  | .full locals stack => .full (locals.map r.frameValue) (stack.map r.frameValue)

def instruction (r : Renaming) : Instruction → Instruction
  | .field opcode owner name descriptor =>
    .field opcode (r.classRef owner) (r.fieldName owner descriptor name) (r.signature descriptor)
  | .method opcode owner name descriptor isInterface =>
    -- an array has only the methods of the root class
    let new := if Descriptor.isArray owner then name else r.methodName owner descriptor name
    .method opcode (r.classRef owner) new (r.signature descriptor) isInterface
  | .invokeDynamic name descriptor bootstrap arguments =>
    .invokeDynamic name (r.signature descriptor) (r.handle bootstrap) (r.constants arguments)
  | .ldc value => .ldc (r.constant value)
  | .type opcode operand => .type opcode (r.classRef operand)
  | .multiNewArray descriptor dimensions => .multiNewArray (r.signature descriptor) dimensions
  | .frame value => .frame (r.frame value)
  | i => i

def localVariable (r : Renaming) (v : LocalVariable) : LocalVariable :=
  { v with
    descriptor := r.signature v.descriptor
    signature := v.signature.map r.signature }

def tryCatch (r : Renaming) (t : TryCatch) : TryCatch := { t with type := t.type.map r.classRef }

/-- A method of the class with the given old name. -/
def method (r : Renaming) (owner : String) (m : Method) : Method :=
  { m with
    name := r.methodName owner m.descriptor m.name
    descriptor := r.signature m.descriptor
    signature := m.signature.map r.signature
    exceptions := m.exceptions.map r.classRef
    instructions := m.instructions.map r.instruction
    tryCatches := m.tryCatches.map r.tryCatch
    localVariables := m.localVariables.map r.localVariable
    annotations := r.annotations m.annotations
    typeAnnotations := r.annotations m.typeAnnotations
    parameterAnnotations := m.parameterAnnotations.map r.annotations
    annotationDefault := m.annotationDefault.map r.annotationValue }

/-- A field of the class with the given old name. -/
def field (r : Renaming) (owner : String) (f : Field) : Field :=
  { f with
    name := r.fieldName owner f.descriptor f.name
    descriptor := r.signature f.descriptor
    signature := f.signature.map r.signature
    value := f.value.map r.constant
    annotations := r.annotations f.annotations
    typeAnnotations := r.annotations f.typeAnnotations }

/-- A component of the record class with the given old name. -/
def recordComponent (r : Renaming) (owner : String) (c : RecordComponent) : RecordComponent :=
  { c with
    name := r.fieldName owner c.descriptor c.name
    descriptor := r.signature c.descriptor
    signature := c.signature.map r.signature
    annotations := r.annotations c.annotations
    typeAnnotations := r.annotations c.typeAnnotations }

/-- An inner class that gets a new name gets its simple name too. -/
def innerClass (r : Renaming) (i : InnerClass) : InnerClass :=
  { i with
    name := r.classRef i.name
    outerName := i.outerName.map r.classRef
    innerName := i.innerName.map fun old =>
      match r.classes.get? i.name with
      | some new => Name.simple new
      | none => old }

def provision (r : Renaming) (p : Provision) : Provision where
  service := r.classRef p.service
  providers := p.providers.map r.classRef

def moduleInfo (r : Renaming) (m : Module) : Module :=
  { m with
    mainClass := m.mainClass.map r.classRef
    uses := m.uses.map r.classRef
    provides := m.provides.map r.provision }

/-- The method that encloses a local class, if it is fully named. -/
def outerMethod (r : Renaming) (c : Class) : Option String :=
  match c.outerClass, c.outerMethod, c.outerMethodDescriptor with
  | some owner, some name, some descriptor => some (r.methodName owner descriptor name)
  | _, name, _ => name

/-- A whole class. -/
def apply (r : Renaming) (c : Class) : Class :=
  { c with
    name := (r.classes.get? c.name).getD c.name
    superName := c.superName.map r.classRef
    interfaces := c.interfaces.map r.classRef
    signature := c.signature.map r.signature
    fields := c.fields.map (r.field c.name)
    methods := c.methods.map (r.method c.name)
    innerClasses := c.innerClasses.map r.innerClass
    outerClass := c.outerClass.map r.classRef
    outerMethod := r.outerMethod c
    outerMethodDescriptor := c.outerMethodDescriptor.map r.signature
    nestHost := c.nestHost.map r.classRef
    nestMembers := c.nestMembers.map r.classRef
    permittedSubclasses := c.permittedSubclasses.map r.classRef
    recordComponents := c.recordComponents.map (r.recordComponent c.name)
    module := c.module.map r.moduleInfo
    annotations := r.annotations c.annotations
    typeAnnotations := r.annotations c.typeAnnotations }

end Renaming

end Classmith
