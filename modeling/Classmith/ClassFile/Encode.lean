import Classmith.ClassFile.Basic
import Classmith.Json.Basic

/-!
# Classes as JSON

Every part of a class is written, `null` for what is absent. Constants, annotation values and frame
values are objects named for their case; instructions and frames name their case in a member.
-/
namespace Classmith

open Number (Single Double Layout)

/-- How numbers with a fraction are written. -/
structure NumberStyle where
  singles : Layout
  doubles : Layout

namespace NumberStyle

/-- The style of values that other programs read. -/
def exchange : NumberStyle := ⟨⟨-5, 16⟩, ⟨-5, 16⟩⟩

/-- The style of documents: numbers of 32 bits are written positionally in a narrower range. -/
def document : NumberStyle := ⟨⟨-6, 13⟩, ⟨-5, 16⟩⟩

/-- A number that is not finite is written as `null`. -/
def single (style : NumberStyle) (x : Single) : Json :=
  Json.optional Json.number (x.numeral? style.singles)

def double (style : NumberStyle) (x : Double) : Json :=
  Json.optional Json.number (x.numeral? style.doubles)

end NumberStyle

namespace Json

/-- A case with its content. -/
def tagged (name : String) (content : Json) : Json := record [(name, content)]

def optionalString : Option String → Json := optional .string

end Json

open Json

def Handle.toJson (h : Handle) : Json := record [
  ("tag", nat h.tag.toNat),
  ("owner", .string h.owner),
  ("name", .string h.name),
  ("descriptor", .string h.descriptor),
  ("is_interface", .bool h.isInterface)]

mutual

def Constant.toJson (style : NumberStyle) : Constant → Json
  | .int value => tagged "int" (Json.int value.toInt)
  | .float value => tagged "float" (style.single value)
  | .long value => tagged "long" (Json.int value.toInt)
  | .double value => tagged "double" (style.double value)
  | .string value => tagged "string" (.string value)
  | .type name => tagged "type" (.string name)
  | .methodType descriptor => tagged "method_type" (.string descriptor)
  | .handle value => tagged "handle" value.toJson
  | .dynamic name descriptor bootstrap arguments => tagged "dynamic" (record [
      ("name", .string name),
      ("descriptor", .string descriptor),
      ("bootstrap", bootstrap.toJson),
      ("bootstrap_args", .array (Constant.listToJson style arguments))])

def Constant.listToJson (style : NumberStyle) : List Constant → List Json
  | [] => []
  | c :: rest => c.toJson style :: Constant.listToJson style rest

end

mutual

def AnnotationValue.toJson (style : NumberStyle) : AnnotationValue → Json
  | .boolean value => tagged "boolean" (.bool value)
  | .byte value => tagged "byte" (Json.int value.toInt)
  | .char value => tagged "char" (nat value.toNat)
  | .short value => tagged "short" (Json.int value.toInt)
  | .int value => tagged "int" (Json.int value.toInt)
  | .long value => tagged "long" (Json.int value.toInt)
  | .float value => tagged "float" (style.single value)
  | .double value => tagged "double" (style.double value)
  | .string value => tagged "string" (.string value)
  | .classType descriptor => tagged "class" (.string descriptor)
  | .enumConstant descriptor name => tagged "enum" (record [
      ("descriptor", .string descriptor),
      ("name", .string name)])
  | .nested value => tagged "annotation" (value.toJson style)
  | .array values => tagged "array" (.array (AnnotationValue.listToJson style values))

def AnnotationValue.listToJson (style : NumberStyle) : List AnnotationValue → List Json
  | [] => []
  | v :: rest => v.toJson style :: AnnotationValue.listToJson style rest

def Annotation.toJson (style : NumberStyle) : Annotation → Json
  | .mk descriptor visible elements => record [
      ("descriptor", .string descriptor),
      ("visible", .bool visible),
      ("values", .array <| Annotation.elementsToJson style elements)]

def Annotation.elementsToJson (style : NumberStyle) : List (String × AnnotationValue) → List Json
  | [] => []
  | (name, value) :: rest =>
    record [("name", .string name), ("value", value.toJson style)] ::
      Annotation.elementsToJson style rest

end

def FrameValue.toJson : FrameValue → Json
  | .top => .string "top"
  | .integer => .string "integer"
  | .float => .string "float"
  | .long => .string "long"
  | .double => .string "double"
  | .null => .string "null"
  | .uninitializedThis => .string "uninitialized_this"
  | .object name => tagged "object" (.string name)
  | .uninitialized label => tagged "uninitialized" (nat label.toNat)

def Frame.toJson : Frame → Json
  | .same => record [("type", .string "same")]
  | .same1 stack => record [("type", .string "same1"), ("stack", stack.toJson)]
  | .append locals => record [
      ("type", .string "append"),
      ("locals", .array (locals.map FrameValue.toJson))]
  | .chop count => record [("type", .string "chop"), ("count", nat count.toNat)]
  | .full locals stack => record [
      ("type", .string "full"),
      ("locals", .array (locals.map FrameValue.toJson)),
      ("stack", .array (stack.map FrameValue.toJson))]

def Instruction.toJson (style : NumberStyle) : Instruction → Json
  | .insn opcode => record [("kind", .string "insn"), ("opcode", nat opcode.toNat)]
  | .int opcode operand => record [
      ("kind", .string "int"),
      ("opcode", nat opcode.toNat),
      ("operand", Json.int operand.toInt)]
  | .var opcode slot => record [
      ("kind", .string "var"),
      ("opcode", nat opcode.toNat),
      ("var", nat slot.toNat)]
  | .type opcode operand => record [
      ("kind", .string "type"),
      ("opcode", nat opcode.toNat),
      ("descriptor", .string operand)]
  | .field opcode owner name descriptor => record [
      ("kind", .string "field"),
      ("opcode", nat opcode.toNat),
      ("owner", .string owner),
      ("name", .string name),
      ("descriptor", .string descriptor)]
  | .method opcode owner name descriptor isInterface => record [
      ("kind", .string "method"),
      ("opcode", nat opcode.toNat),
      ("owner", .string owner),
      ("name", .string name),
      ("descriptor", .string descriptor),
      ("is_interface", .bool isInterface)]
  | .invokeDynamic name descriptor bootstrap arguments => record [
      ("kind", .string "invoke_dynamic"),
      ("name", .string name),
      ("descriptor", .string descriptor),
      ("bootstrap", bootstrap.toJson),
      ("bootstrap_args", .array (Constant.listToJson style arguments))]
  | .jump opcode target => record [
      ("kind", .string "jump"),
      ("opcode", nat opcode.toNat),
      ("label", nat target.toNat)]
  | .label id => record [("kind", .string "label"), ("id", nat id.toNat)]
  | .ldc value => record [("kind", .string "ldc"), ("value", value.toJson style)]
  | .iinc slot increment => record [
      ("kind", .string "iinc"),
      ("var", nat slot.toNat),
      ("increment", Json.int increment.toInt)]
  | .tableSwitch min max default labels => record [
      ("kind", .string "table_switch"),
      ("min", Json.int min.toInt),
      ("max", Json.int max.toInt),
      ("default", nat default.toNat),
      ("labels", .array (labels.map fun l => nat l.toNat))]
  | .lookupSwitch default keys labels => record [
      ("kind", .string "lookup_switch"),
      ("default", nat default.toNat),
      ("keys", .array (keys.map fun k => Json.int k.toInt)),
      ("labels", .array (labels.map fun l => nat l.toNat))]
  | .multiNewArray descriptor dimensions => record [
      ("kind", .string "multi_a_new_array"),
      ("descriptor", .string descriptor),
      ("dimensions", nat dimensions.toNat)]
  | .frame value => record [("kind", .string "frame"), ("frame", value.toJson)]
  | .line value start => record [
      ("kind", .string "line_number"),
      ("line", nat value.toNat),
      ("start", nat start.toNat)]

/-- A list of annotations. -/
def annotationsToJson (style : NumberStyle) (l : List Annotation) : Json :=
  .array (l.map fun a => a.toJson style)

def Field.toJson (style : NumberStyle) (f : Field) : Json := record [
  ("access", nat f.access.toNat),
  ("name", .string f.name),
  ("descriptor", .string f.descriptor),
  ("signature", optionalString f.signature),
  ("value", optional (Constant.toJson style) f.value),
  ("annotations", annotationsToJson style f.annotations),
  ("type_annotations", annotationsToJson style f.typeAnnotations)]

def TryCatch.toJson (t : TryCatch) : Json := record [
  ("start", nat t.start.toNat),
  ("end", nat t.stop.toNat),
  ("handler", nat t.handler.toNat),
  ("exception_type", optionalString t.type)]

def LocalVariable.toJson (v : LocalVariable) : Json := record [
  ("name", .string v.name),
  ("descriptor", .string v.descriptor),
  ("signature", optionalString v.signature),
  ("start", nat v.start.toNat),
  ("end", nat v.stop.toNat),
  ("index", nat v.slot.toNat)]

def Method.toJson (style : NumberStyle) (m : Method) : Json := record [
  ("access", nat m.access.toNat),
  ("name", .string m.name),
  ("descriptor", .string m.descriptor),
  ("signature", optionalString m.signature),
  ("exceptions", strings m.exceptions),
  ("max_stack", nat m.maxStack.toNat),
  ("max_locals", nat m.maxLocals.toNat),
  ("instructions", .array (m.instructions.map (Instruction.toJson style))),
  ("try_catch_blocks", .array (m.tryCatches.map TryCatch.toJson)),
  ("local_variables", .array (m.localVariables.map LocalVariable.toJson)),
  ("annotations", annotationsToJson style m.annotations),
  ("type_annotations", annotationsToJson style m.typeAnnotations),
  ("parameter_annotations", .array (m.parameterAnnotations.map (annotationsToJson style))),
  ("annotation_default", optional (AnnotationValue.toJson style) m.annotationDefault)]

def InnerClass.toJson (i : InnerClass) : Json := record [
  ("name", .string i.name),
  ("outer_name", optionalString i.outerName),
  ("inner_name", optionalString i.innerName),
  ("access", nat i.access.toNat)]

def RecordComponent.toJson (style : NumberStyle) (c : RecordComponent) : Json := record [
  ("name", .string c.name),
  ("descriptor", .string c.descriptor),
  ("signature", optionalString c.signature),
  ("annotations", annotationsToJson style c.annotations),
  ("type_annotations", annotationsToJson style c.typeAnnotations)]

def Provision.toJson (p : Provision) : Json := record [
  ("service", .string p.service),
  ("providers", strings p.providers)]

def Module.toJson (m : Module) : Json := record [
  ("name", .string m.name),
  ("main_class", optionalString m.mainClass),
  ("uses", strings m.uses),
  ("provides", .array (m.provides.map Provision.toJson))]

def Class.toJson (style : NumberStyle) (c : Class) : Json := record [
  ("version", nat c.version.toNat),
  ("access", nat c.access.toNat),
  ("name", .string c.name),
  ("super_name", optionalString c.superName),
  ("interfaces", strings c.interfaces),
  ("signature", optionalString c.signature),
  ("source_file", optionalString c.sourceFile),
  ("fields", .array (c.fields.map (Field.toJson style))),
  ("methods", .array (c.methods.map (Method.toJson style))),
  ("inner_classes", .array (c.innerClasses.map InnerClass.toJson)),
  ("outer_class", optionalString c.outerClass),
  ("outer_method", optionalString c.outerMethod),
  ("outer_method_descriptor", optionalString c.outerMethodDescriptor),
  ("nest_host", optionalString c.nestHost),
  ("nest_members", strings c.nestMembers),
  ("permitted_subclasses", strings c.permittedSubclasses),
  ("record_components", .array (c.recordComponents.map (RecordComponent.toJson style))),
  ("module", optional Module.toJson c.module),
  ("annotations", annotationsToJson style c.annotations),
  ("type_annotations", annotationsToJson style c.typeAnnotations)]

end Classmith
