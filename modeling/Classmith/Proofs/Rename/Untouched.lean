import Classmith.Proofs.Rename.References
import Classmith.Proofs.Rename.Undoing
import Classmith.Proofs.Signature.BinaryNames

/-!
# What a pass leaves alone

A class that mentions nothing renamed comes out of a pass as it was, in every part. Several parts are
written anew by a pass: texts are read and spelled again, the simple names of inner classes are worked out.
Where no name is listed in a table, what is written is what was there.
-/
namespace Classmith

namespace Signature

/-! ## Texts -/

/-- Every class that a text names, the members of class types by their binary names. -/
def textBinaryNames (text : String) : List String :=
  ((parse? text.toList).map fun t => t.classTypes.flatMap ClassType.binaryNames).getD []

section

variable {classes : ClassTable}

theorem newMember_of_unlisted {outer name : String}
    (h : classes.get? (Name.nested outer name) = none) :
    newMember classes outer outer name = name := by
  simp [newMember, newBinary, h, memberName?_nested]

mutual

theorem TypeSig.untouched_of_unlisted (t : TypeSig)
    (h : ∀ c ∈ t.classTypes, ∀ b ∈ c.binaryNames, classes.get? b = none) :
    t.touched classes = false := by
  match t with
  | .base letter => rfl
  | .typeVar name => rfl
  | .array element => exact TypeSig.untouched_of_unlisted element h
  | .object name arguments members =>
    simp only [TypeSig.classTypes, List.cons_append, List.forall_mem_cons, List.forall_mem_append] at h
    obtain ⟨hnames, harguments, hmembers⟩ := h
    have hname : classes.get? name = none :=
      hnames name (List.mem_of_getElem? (getElem?_zero_binaryNames name members.simpleNames))
    rw [TypeSig.touched, Table.contains, hname,
      Arguments.untouched_of_unlisted arguments harguments, Option.getD_none,
      Members.untouched_of_unlisted name members hnames hmembers]
    rfl

theorem Arguments.untouched_of_unlisted (a : Arguments)
    (h : ∀ c ∈ a.classTypes, ∀ b ∈ c.binaryNames, classes.get? b = none) :
    a.touched classes = false := by
  match a with
  | .absent => rfl
  | .given list => exact ArgumentList.untouched_of_unlisted list h

theorem ArgumentList.untouched_of_unlisted (l : ArgumentList)
    (h : ∀ c ∈ l.classTypes, ∀ b ∈ c.binaryNames, classes.get? b = none) :
    l.touched classes = false := by
  match l with
  | .nil => rfl
  | .any rest => exact ArgumentList.untouched_of_unlisted rest h
  | .type bound type rest =>
    simp only [ArgumentList.classTypes, List.forall_mem_append] at h
    rw [ArgumentList.touched, TypeSig.untouched_of_unlisted type h.1,
      ArgumentList.untouched_of_unlisted rest h.2]
    rfl

/-- A member of a class that keeps its name keeps its name too, so the induction stays with one name. -/
theorem Members.untouched_of_unlisted (outer : String) (m : Members)
    (hnames : ∀ b ∈ binaryNames outer m.simpleNames, classes.get? b = none)
    (h : ∀ c ∈ m.classTypes, ∀ b ∈ c.binaryNames, classes.get? b = none) :
    m.touched classes outer outer = false := by
  match m with
  | .nil => rfl
  | .cons name arguments rest =>
    simp only [Members.classTypes, List.forall_mem_append] at h
    have hinner : ∀ b ∈ binaryNames (Name.nested outer name) rest.simpleNames, classes.get? b = none :=
      fun b hb => hnames b (List.mem_cons_of_mem _ hb)
    have hname : classes.get? (Name.nested outer name) = none :=
      hinner _ (List.mem_of_getElem? (getElem?_zero_binaryNames _ rest.simpleNames))
    have hbinary : newBinary classes outer outer name = Name.nested outer name := by
      rw [newBinary, hname, Option.getD_none]
    rw [Members.touched, newMember_of_unlisted hname, hbinary,
      Arguments.untouched_of_unlisted arguments h.1,
      Members.untouched_of_unlisted (Name.nested outer name) rest hinner h.2]
    simp

end

theorem Tree.untouched_of_types {t : Tree} (h : ∀ type ∈ t.types, type.touched classes = false) :
    t.touched classes = false := by
  simp only [Tree.types, List.forall_mem_append, List.forall_mem_flatMap, Formal.types] at h
  obtain ⟨hformals, hitems⟩ := h
  simp only [Tree.touched, Bool.or_eq_false_iff, List.any_eq_false, Bool.or_eq_true, not_or,
    Bool.not_eq_true, Option.any_eq_false]
  refine ⟨fun f hf => ⟨fun type htype => ?_, (hformals f hf).2⟩, fun item hitem => ?_⟩
  · exact (hformals f hf).1 type (Option.mem_toList.mpr htype)
  · cases item with
    | mark c => rfl
    | type type => exact hitems _ hitem type (by simp [Item.types])

/-- A text that names no listed class is spelled as it was. -/
theorem text_renameClasses_of_unlisted {text : String}
    (h : ∀ b ∈ textBinaryNames text, classes.get? b = none) :
    (renameClasses classes text).text = text := by
  rw [text_renameClasses]
  cases hread : parse? text.toList with
  | none => rfl
  | some t =>
    rw [textBinaryNames, hread, Option.map_some, Option.getD_some, List.forall_mem_flatMap] at h
    have huntouched : t.touched classes = false := Tree.untouched_of_types fun type htype =>
      type.untouched_of_unlisted fun c hc => h c (List.mem_flatMap.mpr ⟨type, htype, hc⟩)
    rw [Option.map_some, Option.getD_some, Tree.rename_of_untouched classes t huntouched,
      (parse?_eq_some hread).1, String.ofList_toList]

end

end Signature

open Signature (newName textBinaryNames)

/-! ## The renaming of nothing -/

namespace Renaming

/-- The renaming that gives no new names. -/
def nothing : Renaming := ⟨Table.empty, MemberTable.empty, MemberTable.empty⟩

@[simp] theorem get?_classes_nothing (name : String) : nothing.classes.get? name = none := rfl

@[simp] theorem classRef_nothing : nothing.classRef = id := by
  funext name
  cases harray : Descriptor.isArray name <;> simp [classRef, Signature.renameName, harray]
  rfl

@[simp] theorem signature_nothing : nothing.signature = id := rfl

@[simp] theorem fieldName_nothing (owner descriptor name : String) :
    nothing.fieldName owner descriptor name = name := rfl

@[simp] theorem methodName_nothing (owner descriptor name : String) :
    nothing.methodName owner descriptor name = name := rfl

@[simp] theorem handle_nothing (h : Handle) : nothing.handle h = h := by
  simp [handle]

mutual

@[simp] theorem constant_nothing (c : Constant) : nothing.constant c = c := by
  match c with
  | .dynamic name descriptor bootstrap arguments => simp [constant, constants_nothing arguments]
  | .type _ | .methodType _ | .handle _ => simp [constant]
  | .int _ | .float _ | .long _ | .double _ | .string _ => rfl

@[simp] theorem constants_nothing (l : List Constant) : nothing.constants l = l := by
  match l with
  | [] => rfl
  | c :: rest => simp [constants, constant_nothing c, constants_nothing rest]

end

mutual

theorem annotationValue_nothing (v : AnnotationValue) : nothing.annotationValue v = v := by
  match v with
  | .enumConstant descriptor name =>
    simp only [annotationValue, signature_nothing, fieldName_nothing]
    split <;> rfl
  | .nested value => simp [annotationValue, annotationRecord_nothing value]
  | .array values => simp [annotationValue, annotationValues_nothing values]
  | .classType _ => simp [annotationValue]
  | .boolean _ | .byte _ | .char _ | .short _ | .int _ | .long _ | .float _ | .double _
  | .string _ => rfl

theorem annotationValues_nothing (l : List AnnotationValue) : nothing.annotationValues l = l := by
  match l with
  | [] => rfl
  | v :: rest => simp [annotationValues, annotationValue_nothing v, annotationValues_nothing rest]

theorem annotationRecord_nothing (a : Annotation) : nothing.annotationRecord a = a := by
  match a with
  | .mk descriptor visible elements => simp [annotationRecord, annotationElements_nothing elements]

theorem annotationElements_nothing (l : List (String × AnnotationValue)) :
    nothing.annotationElements l = l := by
  match l with
  | [] => rfl
  | (name, value) :: rest =>
    simp [annotationElements, annotationValue_nothing value, annotationElements_nothing rest]

end

@[simp] theorem annotations_nothing : nothing.annotations = id := by
  funext l
  exact map_eq_self fun a _ => annotationRecord_nothing a

@[simp] theorem frameValue_nothing : nothing.frameValue = id := by
  funext v
  cases v <;> simp [frameValue]

@[simp] theorem instruction_nothing : nothing.instruction = id := by
  funext i
  cases i with
  | frame value => cases value <;> simp [instruction, frame]
  | _ => simp [instruction]

@[simp] theorem field_nothing (owner : String) : nothing.field owner = id := by
  funext f
  simp [field, optionMap_eq_self]

@[simp] theorem method_nothing (owner : String) : nothing.method owner = id := by
  have htry : nothing.tryCatch = id := by
    funext t
    simp [tryCatch]
  have hlocal : nothing.localVariable = id := by
    funext v
    simp [localVariable]
  have hdefault : nothing.annotationValue = id := funext annotationValue_nothing
  funext m
  simp [method, htry, hlocal, hdefault]

@[simp] theorem recordComponent_nothing (owner : String) : nothing.recordComponent owner = id := by
  funext c
  simp [recordComponent]

@[simp] theorem innerClass_nothing : nothing.innerClass = id := by
  funext i
  simp [innerClass]

@[simp] theorem moduleInfo_nothing : nothing.moduleInfo = id := by
  have hprovision : nothing.provision = id := by
    funext p
    simp [provision]
  funext m
  simp [moduleInfo, hprovision]

/-- The renaming of nothing changes nothing. -/
theorem apply_nothing (c : Class) : nothing.apply c = c := by
  have houter : nothing.outerMethod c = c.outerMethod := by
    simp only [outerMethod, methodName_nothing]
    split <;> simp_all
  simp [apply, houter]

end Renaming

/-! ## Places that name nothing renamed -/

/-- The classes that a name stands for: those in it if it is an array type, else itself. -/
def refBinaryNames (name : String) : List String :=
  if Descriptor.isArray name then textBinaryNames name else [name]

namespace Mention

def binaryNames : Mention → List String
  | .self name => [name]
  | .ofClass name => refBinaryNames name
  | .descriptor text | .signature text | .declaredField _ text _ | .declaredMethod _ text _
  | .recordComponent _ text _ | .enumConstant text _ => textBinaryNames text
  | .fieldAccess owner text _ | .methodCall owner text _ | .enclosingMethod owner text _ =>
    refBinaryNames owner ++ textBinaryNames text
  | .handle h => refBinaryNames h.owner ++ textBinaryNames h.descriptor

/-- The field that is declared or used at a place. -/
def field? : Mention → Option Member
  | .declaredField owner type name | .recordComponent owner type name
  | .fieldAccess owner type name => some ⟨owner, type, name⟩
  | .handle h => if h.isField then some ⟨h.owner, h.descriptor, h.name⟩ else none
  | .enumConstant type name => (Descriptor.internalName? type).map fun owner => ⟨owner, type, name⟩
  | _ => none

/-- The method that is declared or used at a place. -/
def method? : Mention → Option Member
  | .declaredMethod owner type name | .methodCall owner type name
  | .enclosingMethod owner type name => some ⟨owner, type, name⟩
  | .handle h => if h.isField then none else some ⟨h.owner, h.descriptor, h.name⟩
  | _ => none

end Mention

namespace Class

/-- Every class that a class names. The entries of inner classes are also looked up by their names as
they stand. -/
def binaryNames (c : Class) : List String :=
  c.mentions.flatMap Mention.binaryNames ++ c.innerClasses.map (·.name)

/-- Every field that a class declares or uses. -/
def namedFields (c : Class) : List Member := c.mentions.filterMap Mention.field?

/-- Every method that a class declares or uses. -/
def namedMethods (c : Class) : List Member := c.mentions.filterMap Mention.method?

end Class

/-- The table has no new name for the member. -/
def MemberTable.Lacks (t : MemberTable) (m : Member) : Prop :=
  t.get? m.owner m.descriptor m.name = none

instance (t : MemberTable) (m : Member) : Decidable (t.Lacks m) :=
  inferInstanceAs (Decidable (t.get? m.owner m.descriptor m.name = none))

namespace Renaming

section

variable {r : Renaming}

theorem signature_of_unlisted {text : String}
    (h : ∀ b ∈ textBinaryNames text, r.classes.get? b = none) : r.signature text = text :=
  Signature.text_renameClasses_of_unlisted h

theorem classRef_of_unlisted {name : String}
    (h : ∀ b ∈ refBinaryNames name, r.classes.get? b = none) : r.classRef name = name := by
  unfold refBinaryNames at h
  split at h
  · rename_i harray
    rw [r.classRef_of_isArray harray, signature_of_unlisted h]
  · rename_i harray
    rw [r.classRef_of_not_isArray (Bool.not_eq_true _ ▸ harray), newName, h name (by simp)]
    rfl

theorem fieldName_of_lacks {owner descriptor name : String}
    (h : r.fields.Lacks ⟨owner, descriptor, name⟩) : r.fieldName owner descriptor name = name := by
  rw [fieldName, show r.fields.get? owner descriptor name = none from h, Option.getD_none]

theorem methodName_of_lacks {owner descriptor name : String}
    (h : r.methods.Lacks ⟨owner, descriptor, name⟩) : r.methodName owner descriptor name = name := by
  rw [methodName, show r.methods.get? owner descriptor name = none from h, Option.getD_none]

theorem handle_of_unlisted {h : Handle} (howner : ∀ b ∈ refBinaryNames h.owner, r.classes.get? b = none)
    (htext : ∀ b ∈ textBinaryNames h.descriptor, r.classes.get? b = none)
    (hfield : h.isField = true → r.fields.Lacks ⟨h.owner, h.descriptor, h.name⟩)
    (hmethod : h.isField = false → r.methods.Lacks ⟨h.owner, h.descriptor, h.name⟩) :
    r.handle h = h := by
  rw [handle, classRef_of_unlisted howner, signature_of_unlisted htext]
  cases hkind : h.isField with
  | true => rw [if_pos rfl, fieldName_of_lacks (hfield hkind)]
  | false => rw [if_neg Bool.false_ne_true, methodName_of_lacks (hmethod hkind)]

/-- A place of a class that keeps its name stays as it is if nothing named there is renamed. -/
theorem mention_of_unlisted {owner : String} {x : Mention} (hin : x.IsIn owner)
    (howner : r.classes.get? owner = none) (hnames : ∀ b ∈ x.binaryNames, r.classes.get? b = none)
    (hfield : ∀ f ∈ x.field?, r.fields.Lacks f) (hmethod : ∀ m ∈ x.method?, r.methods.Lacks m) :
    r.mention x = x := by
  have hself : newName r.classes owner = owner := by rw [newName, howner, Option.getD_none]
  cases x with
  | self name =>
    obtain rfl : name = owner := hin
    rw [mention, hself]
  | ofClass name => rw [mention, classRef_of_unlisted hnames]
  | descriptor text => rw [mention, signature_of_unlisted hnames]
  | signature text => rw [mention, signature_of_unlisted hnames]
  | declaredField name descriptor field =>
    obtain rfl : name = owner := hin
    rw [mention, hself, signature_of_unlisted hnames, fieldName_of_lacks (hfield _ rfl)]
  | declaredMethod name descriptor method =>
    obtain rfl : name = owner := hin
    rw [mention, hself, signature_of_unlisted hnames, methodName_of_lacks (hmethod _ rfl)]
  | recordComponent name descriptor field =>
    obtain rfl : name = owner := hin
    rw [mention, hself, signature_of_unlisted hnames, fieldName_of_lacks (hfield _ rfl)]
  | fieldAccess name descriptor field =>
    obtain ⟨hclass, htext⟩ := List.forall_mem_append.mp hnames
    rw [mention, classRef_of_unlisted hclass, signature_of_unlisted htext,
      fieldName_of_lacks (hfield _ rfl)]
  | methodCall name descriptor method =>
    obtain ⟨hclass, htext⟩ := List.forall_mem_append.mp hnames
    rw [mention, classRef_of_unlisted hclass, signature_of_unlisted htext,
      methodName_of_lacks (hmethod _ rfl), ite_self]
  | enclosingMethod name descriptor method =>
    obtain ⟨hclass, htext⟩ := List.forall_mem_append.mp hnames
    rw [mention, classRef_of_unlisted hclass, signature_of_unlisted htext,
      methodName_of_lacks (hmethod _ rfl)]
  | handle h =>
    obtain ⟨hclass, htext⟩ := List.forall_mem_append.mp hnames
    rw [mention, handle_of_unlisted hclass htext]
    · intro hkind
      exact hfield _ (by simp [Mention.field?, hkind])
    · intro hkind
      exact hmethod _ (by simp [Mention.method?, hkind])
  | enumConstant descriptor name =>
    rw [mention, signature_of_unlisted hnames]
    cases htype : Descriptor.internalName? descriptor with
    | none => rfl
    | some type =>
      have hkept : r.fieldName type descriptor name = name :=
        fieldName_of_lacks (hfield _ (by simp [Mention.field?, htype]))
      exact congrArg (Mention.enumConstant descriptor) hkept

/-- A class that names nothing renamed stays as it is. -/
theorem apply_of_unlisted {c : Class} (hnames : ∀ b ∈ c.binaryNames, r.classes.get? b = none)
    (hfields : ∀ f ∈ c.namedFields, r.fields.Lacks f)
    (hmethods : ∀ m ∈ c.namedMethods, r.methods.Lacks m) : r.apply c = c := by
  obtain ⟨hplaces, hinner⟩ := List.forall_mem_append.mp hnames
  rw [List.forall_mem_flatMap] at hplaces
  have hname : r.classes.get? c.name = none :=
    hplaces (.self c.name) List.mem_cons_self c.name (by simp [Mention.binaryNames])
  have hundo : Undoes nothing r c.name c.mentions := by
    intro x hx hin
    have hkept : r.mention x = x := by
      apply mention_of_unlisted hin hname (hplaces x hx)
      · exact fun f hf => hfields f (List.mem_filterMap.mpr ⟨x, hx, hf⟩)
      · exact fun m hm => hmethods m (List.mem_filterMap.mpr ⟨x, hx, hm⟩)
    rw [hkept]
    exact mention_of_unlisted hin rfl (fun _ _ => rfl) (fun _ _ => rfl) fun _ _ => rfl
  rw [← apply_nothing (r.apply c)]
  apply undo_apply hundo
  intro i hi
  have hlisted : r.classes.get? i.name = none := hinner i.name (List.mem_map_of_mem hi)
  rw [innerClass_nothing, innerClass]
  simp [hlisted]

end

end Renaming

/-- A pass leaves every class alone that names no class of the class table and declares and uses no field
of the inherited field renames and no method of the method table. After a pass nothing is renamed, so that
a second one leaves all classes alone. -/
theorem process_keeps_unlisted (r : Remapper) :
    (∀ (i : Nat) (c : Class), r.targets.classes[i]? = some c →
      (∀ b ∈ c.binaryNames, r.classes.get? b = none) →
      (∀ f ∈ c.namedFields, r.refresh.inherited.Lacks f) →
      (∀ m ∈ c.namedMethods, r.methods.Lacks m) →
      r.process.2.targets.classes[i]? = some c) ∧
    r.process.2.process.2.targets.classes = r.process.2.targets.classes := by
  constructor
  · intro i c hc hnames hfields hmethods
    have hkept : r.pending.apply c = c := Renaming.apply_of_unlisted hnames hfields hmethods
    rw [r.classes_process, List.getElem?_map, hc, Option.map_some, hkept]
  · have hpending : r.process.2.pending = .nothing := by
      unfold Remapper.process
      simp only
      split <;> rfl
    rw [r.process.2.classes_process, hpending]
    exact map_eq_self fun c _ => Renaming.apply_nothing c

namespace Samples

/-- A class beside others that are renamed: it has a field and a method of the renamed names, but of other
types, and names two members of a class with a renamed member. -/
def shelf : Class where
  version := 61
  name := "q/Shelf"
  superName := some "java/lang/Object"
  signature := some "Ljava/lang/Object;Ljava/lang/Iterable<Lq/Box<*>.Lid.Edge;>;"
  fields := [{ name := "top", descriptor := "[Lq/Box;" }]
  methods := [{
    name := "fill", descriptor := "(Lq/Box;)V"
    instructions := [.field 0xb2 "q/Shelf" "top" "[Lq/Box;",
      .method 0xb8 "q/Shelf" "fill" "(Lq/Box;)V" false] }]
  innerClasses := [{ name := "q/Shelf$1Part", innerName := some "Part" }]

def renameBeside : Remapper :=
  { Remapper.new with
    targets := ⟨[node, shelf], (Table.empty.insert "p/Node" 0).insert "q/Shelf" 1⟩
    classes := (Table.empty.insert "p/Node" "q/Link").insert "q/Box$Hinge" "q/Joint"
    fields := MemberTable.empty.insert "q/Shelf" "I" "top" "upper"
    methods := MemberTable.empty.insert "q/Shelf" "()V" "fill" "stock"
    stale := true }

end Samples

open Samples in
theorem process_keeps_unlisted_renameBeside :
    shelf.binaryNames = ["q/Shelf", "java/lang/Object", "java/lang/Object", "java/lang/Iterable", "q/Box",
      "q/Box$Lid", "q/Box$Lid$Edge", "q/Box", "q/Box", "q/Shelf", "q/Box", "q/Shelf", "q/Box", "q/Shelf$1Part",
      "q/Shelf$1Part"] ∧
    renameBeside.process.2.targets.classes[1]? = some shelf ∧
    (renameBeside.process.2.targets.classes[0]?.map fun c => c.name) = some "q/Link" ∧
    renameBeside.process.2.process.2.targets.classes = renameBeside.process.2.targets.classes := by
  obtain ⟨hkept, hsecond⟩ := process_keeps_unlisted renameBeside
  refine ⟨by decide +kernel, ?_, by decide +kernel, hsecond⟩
  exact hkept 1 shelf rfl (by decide +kernel) (by decide +kernel) (by decide +kernel)

end Classmith
