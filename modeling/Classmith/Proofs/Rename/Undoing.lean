import Classmith.Proofs.Rename.Mentions

/-!
# One renaming that undoes another

A renaming undoes another on a class if it undoes it on every place the class mentions something at, and
on the simple names of its inner classes, which are worked out and not looked up.
-/
namespace Classmith

open Signature (newName)

/-- A place that can be in the class with the given name, which makes all declarations in it. -/
@[simp] def Mention.IsIn (owner : String) : Mention → Prop
  | .self name | .declaredField name _ _ | .declaredMethod name _ _ | .recordComponent name _ _ =>
    name = owner
  | .ofClass _ | .descriptor _ | .signature _ | .fieldAccess _ _ _ | .methodCall _ _ _ | .handle _
  | .enumConstant _ _ | .enclosingMethod _ _ _ => True

/-- The first renaming undoes the second one at every place of a list that can be in the class with the
given name. -/
def Undoes (r' r : Renaming) (owner : String) (l : List Mention) : Prop :=
  ∀ x ∈ l, x.IsIn owner → r'.mention (r.mention x) = x

section

variable {r' r : Renaming} {owner : String}

@[simp] theorem undoes_nil : Undoes r' r owner [] := by simp [Undoes]

@[simp] theorem undoes_cons {x : Mention} {l : List Mention} : Undoes r' r owner (x :: l) ↔
    (x.IsIn owner → r'.mention (r.mention x) = x) ∧ Undoes r' r owner l := by
  simp [Undoes]

@[simp] theorem undoes_append {l l' : List Mention} :
    Undoes r' r owner (l ++ l') ↔ Undoes r' r owner l ∧ Undoes r' r owner l' := by
  simp only [Undoes, List.mem_append]
  exact ⟨fun h => ⟨fun x hx => h x (Or.inl hx), fun x hx => h x (Or.inr hx)⟩,
    fun h x hx => hx.elim (h.1 x) (h.2 x)⟩

@[simp] theorem undoes_flatMap {α : Type} {f : α → List Mention} {l : List α} :
    Undoes r' r owner (l.flatMap f) ↔ ∀ a ∈ l, Undoes r' r owner (f a) := by
  simp only [Undoes, List.mem_flatMap]
  exact ⟨fun h a ha x hx => h x ⟨a, ha, hx⟩, fun h x ⟨a, ha, hx⟩ => h a ha x hx⟩

@[simp] theorem undoes_map_ofClass {l : List String} :
    Undoes r' r owner (l.map .ofClass) ↔ ∀ name ∈ l, r'.classRef (r.classRef name) = name := by
  simp [Undoes, Renaming.mention]

@[simp] theorem undoes_map_signature {l : List String} :
    Undoes r' r owner (l.map .signature) ↔ ∀ text ∈ l, r'.signature (r.signature text) = text := by
  simp [Undoes, Renaming.mention]

@[simp] theorem undoes_map_descriptor {l : List String} :
    Undoes r' r owner (l.map .descriptor) ↔ ∀ text ∈ l, r'.signature (r.signature text) = text := by
  simp [Undoes, Renaming.mention]

theorem map_map_eq_self {α : Type} {f g : α → α} {l : List α} (h : ∀ a ∈ l, g (f a) = a) :
    (l.map f).map g = l := by
  rw [List.map_map]
  exact map_eq_self h

theorem optionMap_map_eq_self {α : Type} {f g : α → α} {o : Option α}
    (h : ∀ a ∈ o.toList, g (f a) = a) : (o.map f).map g = o := by
  cases o with
  | none => rfl
  | some a => simp [h a (by simp)]

namespace Renaming

/-! ## Constants, annotations and instructions -/

theorem undo_handle {h : Handle}
    (hundo : (Mention.handle h).IsIn owner → r'.mention (r.mention (.handle h)) = .handle h) :
    r'.handle (r.handle h) = h := by
  simpa [mention] using hundo

mutual

theorem undo_constant {c : Constant} (h : Undoes r' r owner c.mentions) :
    r'.constant (r.constant c) = c := by
  match c with
  | .type name => simpa [Constant.mentions, mention, constant] using h
  | .methodType descriptor => simpa [Constant.mentions, mention, constant] using h
  | .handle handle => simpa [Constant.mentions, mention, constant] using h
  | .dynamic name descriptor bootstrap arguments =>
    simp only [Constant.mentions, undoes_cons] at h
    obtain ⟨hdescriptor, hbootstrap, harguments⟩ := h
    simp only [Mention.IsIn, true_implies, mention, Mention.descriptor.injEq] at hdescriptor
    simp only [constant, hdescriptor, undo_handle hbootstrap, undo_constants harguments]
  | .int _ | .float _ | .long _ | .double _ | .string _ => rfl

theorem undo_constants {l : List Constant} (h : Undoes r' r owner (Constant.listMentions l)) :
    r'.constants (r.constants l) = l := by
  match l with
  | [] => rfl
  | c :: rest =>
    simp only [Constant.listMentions, undoes_append] at h
    simp only [constants, undo_constant h.1, undo_constants h.2]

end

mutual

theorem undo_annotationValue {v : AnnotationValue} (h : Undoes r' r owner v.mentions) :
    r'.annotationValue (r.annotationValue v) = v := by
  match v with
  | .classType descriptor => simpa [AnnotationValue.mentions, mention, annotationValue] using h
  | .enumConstant descriptor name =>
    simp only [AnnotationValue.mentions, undoes_cons, Mention.IsIn, true_implies, mention,
      Mention.enumConstant.injEq] at h
    obtain ⟨⟨hdescriptor, hname⟩, -⟩ := h
    rw [annotationValue, annotationValue, AnnotationValue.enumConstant.injEq]
    exact ⟨hdescriptor, hname⟩
  | .nested value => exact congrArg AnnotationValue.nested (undo_annotationRecord h)
  | .array values => exact congrArg AnnotationValue.array (undo_annotationValues h)
  | .boolean _ | .byte _ | .char _ | .short _ | .int _ | .long _ | .float _ | .double _
  | .string _ => rfl

theorem undo_annotationValues {l : List AnnotationValue}
    (h : Undoes r' r owner (AnnotationValue.listMentions l)) :
    r'.annotationValues (r.annotationValues l) = l := by
  match l with
  | [] => rfl
  | v :: rest =>
    simp only [AnnotationValue.listMentions, undoes_append] at h
    simp only [annotationValues, undo_annotationValue h.1, undo_annotationValues h.2]

theorem undo_annotationRecord {a : Annotation} (h : Undoes r' r owner a.mentions) :
    r'.annotationRecord (r.annotationRecord a) = a := by
  match a with
  | .mk descriptor visible elements =>
    simp only [undoes_cons, Mention.IsIn, true_implies, mention, Mention.descriptor.injEq,
      Annotation.mentions] at h
    simp only [annotationRecord, h.1, undo_annotationElements h.2]

theorem undo_annotationElements {l : List (String × AnnotationValue)}
    (h : Undoes r' r owner (AnnotationValue.elementMentions l)) :
    r'.annotationElements (r.annotationElements l) = l := by
  match l with
  | [] => rfl
  | (name, value) :: rest =>
    simp only [AnnotationValue.elementMentions, undoes_append] at h
    simp only [annotationElements, undo_annotationValue h.1, undo_annotationElements h.2]

end

theorem undo_annotations {l : List Annotation} (h : ∀ a ∈ l, Undoes r' r owner a.mentions) :
    r'.annotations (r.annotations l) = l :=
  map_map_eq_self fun a ha => undo_annotationRecord (h a ha)

theorem undo_frameValue {v : FrameValue} (h : Undoes r' r owner v.mentions) :
    r'.frameValue (r.frameValue v) = v := by
  cases v with
  | object name => simpa [FrameValue.mentions, mention, frameValue] using h
  | _ => rfl

theorem undo_frame {f : Frame} (h : Undoes r' r owner f.mentions) : r'.frame (r.frame f) = f := by
  cases f with
  | same => rfl
  | same1 stack => exact congrArg Frame.same1 (undo_frameValue h)
  | append locals =>
    simp only [Frame.mentions, undoes_flatMap] at h
    exact congrArg Frame.append (map_map_eq_self fun v hv => undo_frameValue (h v hv))
  | chop count => rfl
  | full locals stack =>
    simp only [Frame.mentions, undoes_flatMap, List.mem_append] at h
    have hlocals := map_map_eq_self fun v hv => undo_frameValue (h v (Or.inl hv))
    have hstack := map_map_eq_self fun v hv => undo_frameValue (h v (Or.inr hv))
    simp only [frame, hlocals, hstack]

theorem undo_instruction {i : Instruction} (h : Undoes r' r owner i.mentions) :
    r'.instruction (r.instruction i) = i := by
  cases i with
  | field opcode owner name descriptor =>
    simp only [Instruction.mentions, undoes_cons, Mention.IsIn, true_implies, mention, Mention.fieldAccess.injEq] at h
    simp only [instruction, h]
  | method opcode owner name descriptor isInterface =>
    simp only [Instruction.mentions, undoes_cons, Mention.IsIn, true_implies, mention, Mention.methodCall.injEq] at h
    simp only [instruction, h]
  | invokeDynamic name descriptor bootstrap arguments =>
    simp only [Instruction.mentions, undoes_cons] at h
    obtain ⟨hdescriptor, hbootstrap, harguments⟩ := h
    simp only [Mention.IsIn, true_implies, mention, Mention.descriptor.injEq] at hdescriptor
    simp only [instruction, hdescriptor, undo_handle hbootstrap, undo_constants harguments]
  | ldc value => exact congrArg Instruction.ldc (undo_constant h)
  | type opcode operand => simpa [Instruction.mentions, mention, instruction] using h
  | multiNewArray descriptor dimensions =>
    simpa [Instruction.mentions, mention, instruction] using h
  | frame value => exact congrArg Instruction.frame (undo_frame h)
  | _ => rfl

/-! ## Declarations -/

theorem undo_localVariable {v : LocalVariable} (h : Undoes r' r owner v.mentions) :
    r'.localVariable (r.localVariable v) = v := by
  simp only [LocalVariable.mentions, undoes_cons, Mention.IsIn, true_implies, mention, Mention.descriptor.injEq,
    undoes_map_signature] at h
  simp only [localVariable, h.1, optionMap_map_eq_self h.2]

theorem undo_tryCatch {t : TryCatch} (h : Undoes r' r owner t.mentions) :
    r'.tryCatch (r.tryCatch t) = t := by
  simp only [TryCatch.mentions, undoes_map_ofClass] at h
  simp only [tryCatch, optionMap_map_eq_self h]

theorem undo_method {m : Method} (h : Undoes r' r owner (m.mentions owner)) :
    r'.method (newName r.classes owner) (r.method owner m) = m := by
  simp only [Method.mentions, undoes_append, undoes_cons, undoes_flatMap, undoes_map_ofClass,
    undoes_map_signature, Mention.IsIn, true_implies, mention, Mention.declaredMethod.injEq] at h
  obtain ⟨⟨⟨⟨⟨⟨⟨⟨⟨⟨-, hdescriptor, hname⟩, hsignature⟩, hexceptions⟩, hinstructions⟩, htries⟩,
    hvariables⟩, hannotations⟩, htypes⟩, hparameters⟩, hdefault⟩ := h
  have hinstructions := map_map_eq_self fun i hi => undo_instruction (hinstructions i hi)
  have htries := map_map_eq_self fun t ht => undo_tryCatch (htries t ht)
  have hvariables := map_map_eq_self fun v hv => undo_localVariable (hvariables v hv)
  have hparameters := map_map_eq_self fun l hl => undo_annotations (hparameters l hl)
  have hdefault := optionMap_map_eq_self fun v hv => undo_annotationValue (hdefault v hv)
  simp only [method, hdescriptor, hname, optionMap_map_eq_self hsignature,
    map_map_eq_self hexceptions, hinstructions, htries, hvariables, undo_annotations hannotations,
    undo_annotations htypes, hparameters, hdefault]

theorem undo_field {f : Field} (h : Undoes r' r owner (f.mentions owner)) :
    r'.field (newName r.classes owner) (r.field owner f) = f := by
  simp only [Field.mentions, undoes_append, undoes_cons, undoes_flatMap, undoes_map_signature,
    Mention.IsIn, true_implies, mention, Mention.declaredField.injEq] at h
  obtain ⟨⟨⟨⟨⟨-, hdescriptor, hname⟩, hsignature⟩, hvalue⟩, hannotations⟩, htypes⟩ := h
  have hvalue := optionMap_map_eq_self fun c hc => undo_constant (hvalue c hc)
  simp only [field, hdescriptor, hname, optionMap_map_eq_self hsignature, hvalue,
    undo_annotations hannotations, undo_annotations htypes]

theorem undo_recordComponent {c : RecordComponent}
    (h : Undoes r' r owner (c.mentions owner)) :
    r'.recordComponent (newName r.classes owner) (r.recordComponent owner c) = c := by
  simp only [RecordComponent.mentions, undoes_append, undoes_cons, undoes_flatMap,
    undoes_map_signature, Mention.IsIn, true_implies, mention, Mention.recordComponent.injEq] at h
  obtain ⟨⟨⟨⟨-, hdescriptor, hname⟩, hsignature⟩, hannotations⟩, htypes⟩ := h
  simp only [recordComponent, hdescriptor, hname, optionMap_map_eq_self hsignature,
    undo_annotations hannotations, undo_annotations htypes]

theorem undo_innerClass {i : InnerClass} (h : Undoes r' r owner i.mentions)
    (hinner : (r'.innerClass (r.innerClass i)).innerName = i.innerName) :
    r'.innerClass (r.innerClass i) = i := by
  simp only [InnerClass.mentions, undoes_cons, undoes_map_ofClass, Mention.IsIn, true_implies, mention,
    Mention.ofClass.injEq] at h
  have hname : (r'.innerClass (r.innerClass i)).name = i.name := h.1
  have houter : (r'.innerClass (r.innerClass i)).outerName = i.outerName :=
    optionMap_map_eq_self h.2
  cases i
  simp only at hname houter hinner
  rw [InnerClass.mk.injEq]
  exact ⟨hname, houter, hinner, rfl⟩

theorem undo_provision {p : Provision} (h : Undoes r' r owner p.mentions) :
    r'.provision (r.provision p) = p := by
  simp only [Provision.mentions, undoes_cons, undoes_map_ofClass, Mention.IsIn, true_implies, mention,
    Mention.ofClass.injEq] at h
  simp only [provision, h.1, map_map_eq_self h.2]

theorem undo_moduleInfo {m : Module} (h : Undoes r' r owner m.mentions) :
    r'.moduleInfo (r.moduleInfo m) = m := by
  simp only [Module.mentions, undoes_append, undoes_flatMap, undoes_map_ofClass] at h
  obtain ⟨⟨hmain, huses⟩, hprovides⟩ := h
  have hprovides := map_map_eq_self fun p hp => undo_provision (hprovides p hp)
  simp only [moduleInfo, optionMap_map_eq_self hmain, map_map_eq_self huses, hprovides]

theorem undo_outer {c : Class} (h : Undoes r' r owner c.outerMentions) :
    (c.outerClass.map r.classRef).map r'.classRef = c.outerClass ∧
      r'.outerMethod (r.apply c) = c.outerMethod ∧
      (c.outerMethodDescriptor.map r.signature).map r'.signature = c.outerMethodDescriptor := by
  cases howner : c.outerClass <;> cases hname : c.outerMethod <;>
    cases hdescriptor : c.outerMethodDescriptor <;>
      simp_all [Class.outerMentions, outerMethod, apply, mention]

/-- What is undone at every place of a class is undone on the class. -/
theorem undo_apply {c : Class} (h : Undoes r' r c.name c.mentions)
    (hinner : ∀ i ∈ c.innerClasses, (r'.innerClass (r.innerClass i)).innerName = i.innerName) :
    r'.apply (r.apply c) = c := by
  simp only [Class.mentions, undoes_append, undoes_cons, undoes_flatMap, undoes_map_ofClass,
    undoes_map_signature] at h
  obtain ⟨⟨⟨⟨⟨⟨⟨⟨⟨⟨⟨⟨⟨⟨hself, hsuper⟩, hinterfaces⟩, hsignature⟩, hfields⟩, hmethods⟩, hinners⟩,
    houter⟩, hhost⟩, hmembers⟩, hpermitted⟩, hcomponents⟩, hmodule⟩, hannotations⟩, htypes⟩ := h
  have hname : (r'.classes.get? (newName r.classes c.name)).getD (newName r.classes c.name) =
      c.name :=
    Mention.self.inj (hself rfl)
  obtain ⟨hclass, hmethod, hdescriptor⟩ := undo_outer houter
  have hfields := map_map_eq_self fun f hf => undo_field (hfields f hf)
  have hmethods := map_map_eq_self fun m hm => undo_method (hmethods m hm)
  have hcomponents := map_map_eq_self fun x hx => undo_recordComponent (hcomponents x hx)
  have hinners := map_map_eq_self fun i hi => undo_innerClass (hinners i hi) (hinner i hi)
  have hmodule := optionMap_map_eq_self fun m hm => undo_moduleInfo (hmodule m hm)
  have hkey : (r.apply c).name = newName r.classes c.name := rfl
  rw [apply.eq_1 r', hmethod, hkey]
  simp only [apply, hname, optionMap_map_eq_self hsuper, map_map_eq_self hinterfaces,
    optionMap_map_eq_self hsignature, hfields, hmethods, hinners, hclass, hdescriptor,
    optionMap_map_eq_self hhost, map_map_eq_self hmembers, map_map_eq_self hpermitted, hcomponents,
    hmodule, undo_annotations hannotations, undo_annotations htypes]

end Renaming

end

end Classmith
