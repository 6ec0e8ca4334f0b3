import Classmith.Proofs.Signature.Renaming
import Classmith.Rename.Renaming

/-!
# What a class mentions

The places of a class that name a class, a field or a method, in a fixed order. A renaming acts on
each of them by itself: the places of the renamed class are the renamed places of the class.
-/
namespace Classmith

open Signature (newName)

/-- A place of a class that names a class or a member. -/
inductive Mention where
  /-- The name of the class itself. -/
  | self (name : String)
  /-- A class, by its name or by an array type standing in for one. -/
  | ofClass (name : String)
  | descriptor (text : String)
  | signature (text : String)
  /-- A declaration, with the name of the class that makes it. -/
  | declaredField (owner descriptor name : String)
  | declaredMethod (owner descriptor name : String)
  | recordComponent (owner descriptor name : String)
  /-- The member that an instruction uses. -/
  | fieldAccess (owner descriptor name : String)
  | methodCall (owner descriptor name : String)
  | handle (handle : Handle)
  | enumConstant (descriptor name : String)
  /-- The method that encloses a local class, if it is fully named. -/
  | enclosingMethod (owner descriptor name : String)

mutual

def Constant.mentions : Constant → List Mention
  | .type name => [.ofClass name]
  | .methodType descriptor => [.descriptor descriptor]
  | .handle h => [.handle h]
  | .dynamic _ descriptor bootstrap arguments =>
    .descriptor descriptor :: .handle bootstrap :: Constant.listMentions arguments
  | .int _ => []
  | .float _ => []
  | .long _ => []
  | .double _ => []
  | .string _ => []

def Constant.listMentions : List Constant → List Mention
  | [] => []
  | c :: rest => c.mentions ++ Constant.listMentions rest

end

mutual

def AnnotationValue.mentions : AnnotationValue → List Mention
  | .classType descriptor => [.descriptor descriptor]
  | .enumConstant descriptor name => [.enumConstant descriptor name]
  | .nested value => value.mentions
  | .array values => AnnotationValue.listMentions values
  | .boolean _ => []
  | .byte _ => []
  | .char _ => []
  | .short _ => []
  | .int _ => []
  | .long _ => []
  | .float _ => []
  | .double _ => []
  | .string _ => []

def AnnotationValue.listMentions : List AnnotationValue → List Mention
  | [] => []
  | v :: rest => v.mentions ++ AnnotationValue.listMentions rest

def Annotation.mentions : Annotation → List Mention
  | .mk descriptor _ elements => .descriptor descriptor :: AnnotationValue.elementMentions elements

def AnnotationValue.elementMentions : List (String × AnnotationValue) → List Mention
  | [] => []
  | (_, value) :: rest => value.mentions ++ AnnotationValue.elementMentions rest

end

def FrameValue.mentions : FrameValue → List Mention
  | .object name => [.ofClass name]
  | _ => []

def Frame.mentions : Frame → List Mention
  | .same => []
  | .same1 stack => stack.mentions
  | .append locals => locals.flatMap FrameValue.mentions
  | .chop _ => []
  | .full locals stack => (locals ++ stack).flatMap FrameValue.mentions

def Instruction.mentions : Instruction → List Mention
  | .field _ owner name descriptor => [.fieldAccess owner descriptor name]
  | .method _ owner name descriptor _ => [.methodCall owner descriptor name]
  | .invokeDynamic _ descriptor bootstrap arguments =>
    .descriptor descriptor :: .handle bootstrap :: Constant.listMentions arguments
  | .ldc value => value.mentions
  | .type _ operand => [.ofClass operand]
  | .multiNewArray descriptor _ => [.descriptor descriptor]
  | .frame value => value.mentions
  | _ => []

def LocalVariable.mentions (v : LocalVariable) : List Mention :=
  .descriptor v.descriptor :: v.signature.toList.map .signature

def TryCatch.mentions (t : TryCatch) : List Mention := t.type.toList.map .ofClass

/-- The mentions of a method of the class with the given name. -/
def Method.mentions (owner : String) (m : Method) : List Mention :=
  .declaredMethod owner m.descriptor m.name :: m.signature.toList.map .signature ++
    m.exceptions.map .ofClass ++ m.instructions.flatMap Instruction.mentions ++
    m.tryCatches.flatMap TryCatch.mentions ++ m.localVariables.flatMap LocalVariable.mentions ++
    m.annotations.flatMap Annotation.mentions ++ m.typeAnnotations.flatMap Annotation.mentions ++
    m.parameterAnnotations.flatMap (fun l => l.flatMap Annotation.mentions) ++
    m.annotationDefault.toList.flatMap AnnotationValue.mentions

def Field.mentions (owner : String) (f : Field) : List Mention :=
  .declaredField owner f.descriptor f.name :: f.signature.toList.map .signature ++
    f.value.toList.flatMap Constant.mentions ++ f.annotations.flatMap Annotation.mentions ++
    f.typeAnnotations.flatMap Annotation.mentions

def RecordComponent.mentions (owner : String) (c : RecordComponent) : List Mention :=
  .recordComponent owner c.descriptor c.name :: c.signature.toList.map .signature ++
    c.annotations.flatMap Annotation.mentions ++ c.typeAnnotations.flatMap Annotation.mentions

def InnerClass.mentions (i : InnerClass) : List Mention :=
  .ofClass i.name :: i.outerName.toList.map .ofClass

def Provision.mentions (p : Provision) : List Mention :=
  .ofClass p.service :: p.providers.map .ofClass

def Module.mentions (m : Module) : List Mention :=
  m.mainClass.toList.map .ofClass ++ m.uses.map .ofClass ++ m.provides.flatMap Provision.mentions

namespace Class

/-- The enclosing method of a local class, or as much of it as is named. -/
def outerMentions (c : Class) : List Mention :=
  match c.outerClass, c.outerMethod, c.outerMethodDescriptor with
  | some owner, some name, some descriptor => [.enclosingMethod owner descriptor name]
  | owner, _, descriptor => owner.toList.map .ofClass ++ descriptor.toList.map .descriptor

/-- Every place of a class that names a class or a member. -/
def mentions (c : Class) : List Mention :=
  .self c.name :: c.superName.toList.map .ofClass ++ c.interfaces.map .ofClass ++
    c.signature.toList.map .signature ++ c.fields.flatMap (Field.mentions c.name) ++
    c.methods.flatMap (Method.mentions c.name) ++ c.innerClasses.flatMap InnerClass.mentions ++
    c.outerMentions ++ c.nestHost.toList.map .ofClass ++ c.nestMembers.map .ofClass ++
    c.permittedSubclasses.map .ofClass ++
    c.recordComponents.flatMap (RecordComponent.mentions c.name) ++
    c.module.toList.flatMap Module.mentions ++ c.annotations.flatMap Annotation.mentions ++
    c.typeAnnotations.flatMap Annotation.mentions

end Class

namespace Renaming

variable (r : Renaming)

/-- What becomes of a place. Members are looked up by what the place names before renaming. -/
def mention : Mention → Mention
  | .self name => .self (newName r.classes name)
  | .ofClass name => .ofClass (r.classRef name)
  | .descriptor text => .descriptor (r.signature text)
  | .signature text => .signature (r.signature text)
  | .declaredField owner descriptor name =>
    .declaredField (newName r.classes owner) (r.signature descriptor)
      (r.fieldName owner descriptor name)
  | .declaredMethod owner descriptor name =>
    .declaredMethod (newName r.classes owner) (r.signature descriptor)
      (r.methodName owner descriptor name)
  | .recordComponent owner descriptor name =>
    .recordComponent (newName r.classes owner) (r.signature descriptor)
      (r.fieldName owner descriptor name)
  | .fieldAccess owner descriptor name =>
    .fieldAccess (r.classRef owner) (r.signature descriptor) (r.fieldName owner descriptor name)
  | .methodCall owner descriptor name =>
    .methodCall (r.classRef owner) (r.signature descriptor)
      (if Descriptor.isArray owner then name else r.methodName owner descriptor name)
  | .handle h => .handle (r.handle h)
  | .enumConstant descriptor name =>
    .enumConstant (r.signature descriptor) <|
      match Descriptor.internalName? descriptor with
      | some owner => r.fieldName owner descriptor name
      | none => name
  | .enclosingMethod owner descriptor name =>
    .enclosingMethod (r.classRef owner) (r.signature descriptor) (r.methodName owner descriptor name)

mutual

@[simp] theorem mentions_constant (c : Constant) :
    (r.constant c).mentions = c.mentions.map r.mention := by
  match c with
  | .dynamic name descriptor bootstrap arguments =>
    simp [constant, Constant.mentions, mention, mentions_constants arguments]
  | .type _ | .methodType _ | .handle _ | .int _ | .float _ | .long _ | .double _ | .string _ => rfl

@[simp] theorem mentions_constants (l : List Constant) :
    Constant.listMentions (r.constants l) = (Constant.listMentions l).map r.mention := by
  match l with
  | [] => rfl
  | c :: rest => simp [constants, Constant.listMentions, mentions_constant c, mentions_constants rest]

end

mutual

@[simp] theorem mentions_annotationValue (v : AnnotationValue) :
    (r.annotationValue v).mentions = v.mentions.map r.mention := by
  match v with
  | .nested value => exact mentions_annotationRecord value
  | .array values => exact mentions_annotationValues values
  | .classType _ | .enumConstant _ _ | .boolean _ | .byte _ | .char _ | .short _ | .int _ | .long _
  | .float _ | .double _ | .string _ => rfl

@[simp] theorem mentions_annotationValues (l : List AnnotationValue) :
    AnnotationValue.listMentions (r.annotationValues l) =
      (AnnotationValue.listMentions l).map r.mention := by
  match l with
  | [] => rfl
  | v :: rest =>
    simp [annotationValues, AnnotationValue.listMentions, mentions_annotationValue v,
      mentions_annotationValues rest]

@[simp] theorem mentions_annotationRecord (a : Annotation) :
    (r.annotationRecord a).mentions = a.mentions.map r.mention := by
  match a with
  | .mk descriptor visible elements =>
    simp [annotationRecord, Annotation.mentions, mention, mentions_annotationElements elements]

@[simp] theorem mentions_annotationElements (l : List (String × AnnotationValue)) :
    AnnotationValue.elementMentions (r.annotationElements l) =
      (AnnotationValue.elementMentions l).map r.mention := by
  match l with
  | [] => rfl
  | (name, value) :: rest =>
    simp [annotationElements, AnnotationValue.elementMentions, mentions_annotationValue value,
      mentions_annotationElements rest]

end

@[simp] theorem mentions_annotations (l : List Annotation) :
    (r.annotations l).flatMap Annotation.mentions =
      (l.flatMap Annotation.mentions).map r.mention := by
  simp [annotations, List.flatMap_map, List.map_flatMap]

@[simp] theorem mentions_frameValue (v : FrameValue) :
    (r.frameValue v).mentions = v.mentions.map r.mention := by
  cases v <;> rfl

@[simp] theorem mentions_frame (f : Frame) : (r.frame f).mentions = f.mentions.map r.mention := by
  cases f <;> simp [frame, Frame.mentions, List.flatMap_map, List.map_flatMap]

@[simp] theorem mentions_instruction (i : Instruction) :
    (r.instruction i).mentions = i.mentions.map r.mention := by
  cases i <;> simp [instruction, Instruction.mentions, mention]

@[simp] theorem mentions_localVariable (v : LocalVariable) :
    (r.localVariable v).mentions = v.mentions.map r.mention := by
  cases h : v.signature <;> simp [localVariable, LocalVariable.mentions, mention, h]

@[simp] theorem mentions_tryCatch (t : TryCatch) :
    (r.tryCatch t).mentions = t.mentions.map r.mention := by
  cases h : t.type <;> simp [tryCatch, TryCatch.mentions, mention, h]

theorem mentions_method (owner : String) (m : Method) :
    (r.method owner m).mentions (newName r.classes owner) = (m.mentions owner).map r.mention := by
  have hparameters : (m.parameterAnnotations.map r.annotations).flatMap
      (fun l => l.flatMap Annotation.mentions) =
        (m.parameterAnnotations.flatMap fun l => l.flatMap Annotation.mentions).map r.mention := by
    simp only [List.flatMap_map, List.map_flatMap, mentions_annotations]
  have hsignature : (m.signature.map r.signature).toList.map Mention.signature =
      (m.signature.toList.map Mention.signature).map r.mention := by
    cases m.signature <;> rfl
  have hdefault : (m.annotationDefault.map r.annotationValue).toList.flatMap
      AnnotationValue.mentions =
        (m.annotationDefault.toList.flatMap AnnotationValue.mentions).map r.mention := by
    cases m.annotationDefault <;> simp
  simp only [Method.mentions, method, hparameters, hsignature, hdefault, mentions_annotations,
    List.map_append, List.map_cons, List.map_map, List.map_flatMap, List.flatMap_map,
    mentions_instruction, mentions_tryCatch, mentions_localVariable, List.append_assoc]
  rfl

theorem mentions_field (owner : String) (f : Field) :
    (r.field owner f).mentions (newName r.classes owner) = (f.mentions owner).map r.mention := by
  have hsignature : (f.signature.map r.signature).toList.map Mention.signature =
      (f.signature.toList.map Mention.signature).map r.mention := by
    cases f.signature <;> rfl
  have hvalue : (f.value.map r.constant).toList.flatMap Constant.mentions =
      (f.value.toList.flatMap Constant.mentions).map r.mention := by
    cases f.value <;> simp
  simp only [Field.mentions, field, hsignature, hvalue, mentions_annotations, List.map_append,
    List.map_cons, mention]

theorem mentions_recordComponent (owner : String) (c : RecordComponent) :
    (r.recordComponent owner c).mentions (newName r.classes owner) =
      (c.mentions owner).map r.mention := by
  have hsignature : (c.signature.map r.signature).toList.map Mention.signature =
      (c.signature.toList.map Mention.signature).map r.mention := by
    cases c.signature <;> rfl
  simp only [RecordComponent.mentions, recordComponent, hsignature, mentions_annotations,
    List.map_append, List.map_cons, mention]

@[simp] theorem mentions_innerClass (i : InnerClass) :
    (r.innerClass i).mentions = i.mentions.map r.mention := by
  cases h : i.outerName <;> simp [innerClass, InnerClass.mentions, mention, h]

@[simp] theorem mentions_provision (p : Provision) :
    (r.provision p).mentions = p.mentions.map r.mention := by
  simp [provision, Provision.mentions, mention]

@[simp] theorem mentions_moduleInfo (m : Module) :
    (r.moduleInfo m).mentions = m.mentions.map r.mention := by
  cases h : m.mainClass <;>
    simp [moduleInfo, Module.mentions, mention, h, List.flatMap_map, List.map_flatMap]

theorem outerMentions_apply (c : Class) :
    (r.apply c).outerMentions = c.outerMentions.map r.mention := by
  cases howner : c.outerClass <;> cases hname : c.outerMethod <;>
    cases hdescriptor : c.outerMethodDescriptor <;>
      simp [Class.outerMentions, apply, outerMethod, mention, howner, hname, hdescriptor]

/-- A renaming acts on every place of a class by itself. -/
theorem mentions_apply (c : Class) : (r.apply c).mentions = c.mentions.map r.mention := by
  have hclass : ∀ l : List String, (l.map r.classRef).map Mention.ofClass =
      (l.map Mention.ofClass).map r.mention := by
    intro l
    simp [mention]
  have hclass? : ∀ o : Option String, (o.map r.classRef).toList.map Mention.ofClass =
      (o.toList.map Mention.ofClass).map r.mention := by
    intro o
    cases o <;> rfl
  have hsignature : (c.signature.map r.signature).toList.map Mention.signature =
      (c.signature.toList.map Mention.signature).map r.mention := by
    cases c.signature <;> rfl
  have hfields : (c.fields.map (r.field c.name)).flatMap
      (Field.mentions (newName r.classes c.name)) =
        (c.fields.flatMap (Field.mentions c.name)).map r.mention := by
    simp only [List.flatMap_map, List.map_flatMap, mentions_field]
  have hmethods : (c.methods.map (r.method c.name)).flatMap
      (Method.mentions (newName r.classes c.name)) =
        (c.methods.flatMap (Method.mentions c.name)).map r.mention := by
    simp only [List.flatMap_map, List.map_flatMap, mentions_method]
  have hcomponents : (c.recordComponents.map (r.recordComponent c.name)).flatMap
      (RecordComponent.mentions (newName r.classes c.name)) =
        (c.recordComponents.flatMap (RecordComponent.mentions c.name)).map r.mention := by
    simp only [List.flatMap_map, List.map_flatMap, mentions_recordComponent]
  have hinner : (c.innerClasses.map r.innerClass).flatMap InnerClass.mentions =
      (c.innerClasses.flatMap InnerClass.mentions).map r.mention := by
    simp only [List.flatMap_map, List.map_flatMap, mentions_innerClass]
  have hmodule : (c.module.map r.moduleInfo).toList.flatMap Module.mentions =
      (c.module.toList.flatMap Module.mentions).map r.mention := by
    cases c.module <;> simp
  have hname : (r.apply c).name = newName r.classes c.name := rfl
  unfold Class.mentions
  rw [outerMentions_apply, hname]
  simp only [apply, hclass, hclass?, hsignature, hfields, hmethods, hcomponents, hinner, hmodule,
    mentions_annotations, List.map_append, List.map_cons, mention]

end Renaming

end Classmith
