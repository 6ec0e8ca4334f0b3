import Classmith.ClassFile.Decode
import Classmith.ClassFile.Encode
import Classmith.Proofs.Json.Decoding

/-!
# Classes written and decoded

Every part of a class is decoded from its written form as it was, provided that the numbers with a
fraction in it are finite and keep their value when they are spelled, and that its form is not nested
too deep.
-/
namespace Classmith

open Number (Single Double Numeral Layout)
open Json (Decodes record tagged nat depth nestingLimit)
open Json.Decoder hiding record

/-! ## The numbers of a class -/

/-- The number is finite, and the numeral it is written as denotes it again. -/
def NumberStyle.Keeps (style : NumberStyle) : Single ⊕ Double → Prop
  | .inl x => x.isFinite ∧ ∀ n ∈ x.numeral? style.singles, n.single? = some x
  | .inr x => x.isFinite ∧ ∀ n ∈ x.numeral? style.doubles, n.double? = some x

mutual

/-- The numbers with a fraction in a constant. -/
def Constant.numbers : Constant → List (Single ⊕ Double)
  | .float value => [.inl value]
  | .double value => [.inr value]
  | .dynamic _ _ _ arguments => Constant.listNumbers arguments
  | _ => []

def Constant.listNumbers : List Constant → List (Single ⊕ Double)
  | [] => []
  | c :: rest => c.numbers ++ Constant.listNumbers rest

end

mutual

/-- The numbers with a fraction in an annotation value. -/
def AnnotationValue.numbers : AnnotationValue → List (Single ⊕ Double)
  | .float value => [.inl value]
  | .double value => [.inr value]
  | .nested value => value.numbers
  | .array values => AnnotationValue.listNumbers values
  | _ => []

def AnnotationValue.listNumbers : List AnnotationValue → List (Single ⊕ Double)
  | [] => []
  | v :: rest => v.numbers ++ AnnotationValue.listNumbers rest

def Annotation.numbers : Annotation → List (Single ⊕ Double)
  | .mk _ _ elements => Annotation.elementNumbers elements

def Annotation.elementNumbers : List (String × AnnotationValue) → List (Single ⊕ Double)
  | [] => []
  | (_, value) :: rest => value.numbers ++ Annotation.elementNumbers rest

end

def Instruction.numbers : Instruction → List (Single ⊕ Double)
  | .ldc value => value.numbers
  | .invokeDynamic _ _ _ arguments => arguments.flatMap Constant.numbers
  | _ => []

def Field.numbers (f : Field) : List (Single ⊕ Double) :=
  [f.value.toList.flatMap Constant.numbers, f.annotations.flatMap Annotation.numbers,
    f.typeAnnotations.flatMap Annotation.numbers].flatten

def Method.numbers (m : Method) : List (Single ⊕ Double) :=
  [m.instructions.flatMap Instruction.numbers, m.annotations.flatMap Annotation.numbers,
    m.typeAnnotations.flatMap Annotation.numbers,
    m.parameterAnnotations.flatMap fun l => l.flatMap Annotation.numbers,
    m.annotationDefault.toList.flatMap AnnotationValue.numbers].flatten

def RecordComponent.numbers (c : RecordComponent) : List (Single ⊕ Double) :=
  [c.annotations.flatMap Annotation.numbers, c.typeAnnotations.flatMap Annotation.numbers].flatten

/-- The numbers with a fraction anywhere in a class. -/
def Class.numbers (c : Class) : List (Single ⊕ Double) :=
  [c.fields.flatMap Field.numbers, c.methods.flatMap Method.numbers,
    c.recordComponents.flatMap RecordComponent.numbers, c.annotations.flatMap Annotation.numbers,
    c.typeAnnotations.flatMap Annotation.numbers].flatten

theorem Constant.listNumbers_eq (l : List Constant) :
    Constant.listNumbers l = l.flatMap Constant.numbers := by
  induction l with
  | nil => rfl
  | cons c rest ih => rw [Constant.listNumbers, ih, List.flatMap_cons]

theorem AnnotationValue.listNumbers_eq (l : List AnnotationValue) :
    AnnotationValue.listNumbers l = l.flatMap AnnotationValue.numbers := by
  induction l with
  | nil => rfl
  | cons v rest ih => rw [AnnotationValue.listNumbers, ih, List.flatMap_cons]

theorem Annotation.elementNumbers_eq (l : List (String × AnnotationValue)) :
    Annotation.elementNumbers l = l.flatMap fun e => e.2.numbers := by
  induction l with
  | nil => rfl
  | cons e rest ih => rw [elementNumbers, ih, List.flatMap_cons]

theorem Constant.listToJson_eq (style : NumberStyle) (l : List Constant) :
    Constant.listToJson style l = l.map (Constant.toJson style) := by
  induction l with
  | nil => rfl
  | cons c rest ih => rw [Constant.listToJson, ih, List.map_cons]

theorem AnnotationValue.listToJson_eq (style : NumberStyle) (l : List AnnotationValue) :
    AnnotationValue.listToJson style l = l.map (AnnotationValue.toJson style) := by
  induction l with
  | nil => rfl
  | cons v rest ih => rw [AnnotationValue.listToJson, ih, List.map_cons]

theorem Annotation.elementsToJson_eq (style : NumberStyle) (l : List (String × AnnotationValue)) :
    Annotation.elementsToJson style l =
      l.map fun e => record [("name", .string e.1), ("value", e.2.toJson style)] := by
  induction l with
  | nil => rfl
  | cons e rest ih => rw [elementsToJson, ih, List.map_cons]

/-! ## What can be stored -/

/-- The numbers of a part keep their values, and its written form is nested no deeper than the given
levels. -/
structure Fits (style : NumberStyle) (levels : Nat) (numbers : List (Single ⊕ Double)) (j : Json) :
    Prop where
  kept : ∀ x ∈ numbers, style.Keeps x
  nesting : j.depth ≤ levels

namespace Fits

variable {style : NumberStyle} {levels : Nat} {all part : List (Single ⊕ Double)}

theorem mono {more : Nat} {j : Json} (h : Fits style levels all j) (hlevels : levels ≤ more) :
    Fits style more all j :=
  ⟨h.kept, Nat.le_trans h.nesting hlevels⟩

/-- A member lies one level deeper than its object. -/
theorem inner {members : List (String × Json)} (key : String) {value : Json}
    (h : Fits style (levels + 1) all (record members)) (hmember : members.lookup key = some value)
    (hpart : part ⊆ all) : Fits style levels part value where
  kept x hx := h.kept x (hpart hx)
  nesting := by
    have hmem : (key, value) ∈ members := by
      obtain ⟨before, after, rfl, -⟩ := List.lookup_eq_some_iff.mp hmember
      exact List.mem_append_right before List.mem_cons_self
    have hlt := Json.depth_lt_of_mem_record hmem
    have hle := h.nesting
    omega

theorem member {members : List (String × Json)} (key : String) {value : Json}
    (h : Fits style levels all (record members)) (hmember : members.lookup key = some value)
    (hpart : part ⊆ all) : Fits style levels part value :=
  (h.mono (Nat.le_succ levels)).inner key hmember hpart

/-- The numbers of a part are among those of the whole. -/
theorem part_of {parts : List (List (Single ⊕ Double))} {members : List (String × Json)}
    (key : String) {value : Json} (h : Fits style levels parts.flatten (record members))
    (hmember : members.lookup key = some value) (hpart : part ∈ parts) :
    Fits style levels part value :=
  h.member key hmember fun _ hx => List.mem_flatten_of_mem hpart hx

theorem item {α : Type} {numbers : α → List (Single ⊕ Double)} {encode : α → Json} {l : List α}
    (h : Fits style levels (l.flatMap numbers) (.array (l.map encode))) {a : α} (ha : a ∈ l) :
    Fits style levels (numbers a) (encode a) where
  kept x hx := h.kept x (List.mem_flatMap.mpr ⟨a, ha, hx⟩)
  nesting := by
    have hlt := Json.depth_lt_of_mem_items (List.mem_map_of_mem (f := encode) ha)
    have hle := h.nesting
    omega

/-- The values of an annotation's elements lie deeper than the annotation. -/
theorem element {descriptor : String} {visible : Bool}
    {elements : List (String × AnnotationValue)}
    (h : Fits style levels (.mk descriptor visible elements : Annotation).numbers
      ((.mk descriptor visible elements : Annotation).toJson style))
    {e : String × AnnotationValue} (he : e ∈ elements) :
    Fits style levels e.2.numbers (e.2.toJson style) := by
  have hnumbers := Annotation.elementNumbers_eq elements
  have hjson := Annotation.elementsToJson_eq style elements
  unfold Annotation.toJson Annotation.numbers at h
  rw [hnumbers, hjson] at h
  have hlist := h.member "values" rfl (List.Subset.refl _)
  have helement := hlist.item he
  exact helement.member "value" rfl (List.Subset.refl _)

end Fits

namespace ClassFile

variable {style : NumberStyle} {levels : Nat}

/-! ## Constants -/

theorem decodes_single_of_keeps {x : Single} (h : style.Keeps (.inl x)) :
    Decodes single (style.single x) x := by
  obtain ⟨m, hm⟩ := Option.isSome_iff_exists.mp h.1
  have hnumeral : x.numeral? style.singles =
      some (style.singles.numeral x.negative (Number.Format.single.shortest m)) := by
    rw [Single.numeral?, hm]
    rfl
  rw [NumberStyle.single, hnumeral]
  exact decodes_single (h.2 _ hnumeral) fun d hd => Layout.lt_ten_of_mem_fraction _ _ _ hd

theorem decodes_double_of_keeps {x : Double} (h : style.Keeps (.inr x)) :
    Decodes double (style.double x) x := by
  obtain ⟨m, hm⟩ := Option.isSome_iff_exists.mp h.1
  have hnumeral : x.numeral? style.doubles =
      some (style.doubles.numeral x.negative (Number.Format.double.shortest m)) := by
    rw [Double.numeral?, hm]
    rfl
  rw [NumberStyle.double, hnumeral]
  exact decodes_double (h.2 _ hnumeral) fun d hd => Layout.lt_ten_of_mem_fraction _ _ _ hd

theorem decodes_handle (h : Handle) : Decodes handle h.toJson h :=
  decodes_record (by decide) <|
    .defaulted (decodes_uint8 h.tag) <| .defaulted (decodes_text h.owner) <|
    .defaulted (decodes_text h.name) <| .defaulted (decodes_text h.descriptor) <|
    .defaulted (decodes_flag h.isInterface) <| .nil h

theorem one_le_depth_constant (style : NumberStyle) (c : Constant) : 1 ≤ (c.toJson style).depth := by
  cases c <;> simp [Constant.toJson, tagged, record, depth]

theorem decodes_bootstrapped {argument : Json.Decoder Constant} (name descriptor : String)
    (bootstrap : Handle) {arguments : List Constant}
    (h : ∀ a ∈ arguments, Decodes argument (a.toJson style) a) :
    Decodes (bootstrapped argument) (record [
      ("name", .string name),
      ("descriptor", .string descriptor),
      ("bootstrap", bootstrap.toJson),
      ("bootstrap_args", .array (arguments.map (Constant.toJson style)))])
      ⟨name, descriptor, bootstrap, arguments⟩ := by
  have hnames : ["name", "descriptor", "bootstrap", "bootstrap_args"].Nodup := by decide
  exact decodes_record hnames <|
    .required (decodes_text name) <| .required (decodes_text descriptor) <|
    .required (decodes_handle bootstrap) <| .defaulted (decodes_list h) <| .nil _

theorem decodes_constant {c : Constant} (h : Fits style levels c.numbers (c.toJson style)) :
    Decodes (constant levels) (c.toJson style) c := by
  -- an argument of a dynamic constant lies three levels deeper, and the decoder counts one of them
  induction levels generalizing c with
  | zero =>
    have hdepth := one_le_depth_constant style c
    have hle := h.nesting
    omega
  | succ levels ih =>
    cases c with
    | int value => exact decodes_variant rfl (decodes_map (decodes_int32 value) _)
    | float value =>
      have hkept := h.kept (.inl value) (by simp [Constant.numbers])
      exact decodes_variant rfl (decodes_map (decodes_single_of_keeps hkept) _)
    | long value => exact decodes_variant rfl (decodes_map (decodes_int64 value) _)
    | double value =>
      have hkept := h.kept (.inr value) (by simp [Constant.numbers])
      exact decodes_variant rfl (decodes_map (decodes_double_of_keeps hkept) _)
    | string value => exact decodes_variant rfl (decodes_map (decodes_text value) _)
    | type name => exact decodes_variant rfl (decodes_map (decodes_text name) _)
    | methodType descriptor => exact decodes_variant rfl (decodes_map (decodes_text descriptor) _)
    | handle value => exact decodes_variant rfl (decodes_map (decodes_handle value) _)
    | dynamic name descriptor bootstrap arguments =>
      rw [Constant.toJson, Constant.numbers, Constant.listNumbers_eq, Constant.listToJson_eq] at h
      have hparts := h.inner "dynamic" rfl (List.Subset.refl _)
      have harguments := hparts.member "bootstrap_args" rfl (List.Subset.refl _)
      have hdecoded := decodes_bootstrapped name descriptor bootstrap
        fun a ha => ih (harguments.item ha)
      rw [Constant.toJson, Constant.listToJson_eq]
      exact decodes_variant rfl (decodes_map hdecoded _)

theorem constant_ne_null (style : NumberStyle) (c : Constant) : c.toJson style ≠ .null := by
  cases c <;> simp [Constant.toJson, tagged, record]

theorem decodes_anyConstant {c : Constant}
    (h : Fits style nestingLimit c.numbers (c.toJson style)) :
    Decodes anyConstant (c.toJson style) c :=
  decodes_constant h

/-! ## Annotations -/

theorem decodes_element {value : Json.Decoder AnnotationValue} {e : String × AnnotationValue}
    (h : Decodes value (e.2.toJson style) e.2) :
    Decodes (Json.Decoder.record [
        required "name" text fun x e => (x, e.2),
        required "value" value fun x e => (e.1, x)] ("", default))
      (record [("name", .string e.1), ("value", e.2.toJson style)]) e := by
  have hnames : ["name", "value"].Nodup := by decide
  exact decodes_record hnames <|
    .required (decodes_text e.1) <| .required h <| .nil _

theorem decodes_annotationRecord {value : Json.Decoder AnnotationValue}
    {elements : List (String × AnnotationValue)}
    (h : ∀ e ∈ elements, Decodes value (e.2.toJson style) e.2) (descriptor : String) (visible : Bool) :
    Decodes (annotationRecord value) ((.mk descriptor visible elements : Annotation).toJson style)
      (.mk descriptor visible elements) := by
  have hnames : ["descriptor", "visible", "values"].Nodup := by decide
  have hjson := Annotation.elementsToJson_eq style elements
  unfold Annotation.toJson
  rw [hjson]
  exact decodes_record hnames <|
    .defaulted (decodes_text descriptor) <| .defaulted (decodes_flag visible) <|
    .defaulted (decodes_list fun e he => decodes_element (h e he)) <| .nil _

theorem one_le_depth_annotationValue (style : NumberStyle) (v : AnnotationValue) :
    1 ≤ (v.toJson style).depth := by
  cases v <;> simp [AnnotationValue.toJson, tagged, record, depth]

theorem annotationValue_ne_null (style : NumberStyle) (v : AnnotationValue) :
    v.toJson style ≠ .null := by
  cases v <;> simp [AnnotationValue.toJson, tagged, record]

theorem decodes_enumConstant (descriptor name : String) :
    Decodes enumConstant (record [("descriptor", .string descriptor), ("name", .string name)])
      (descriptor, name) :=
  decodes_record (by decide) <|
    .required (decodes_text descriptor) <| .required (decodes_text name) <| .nil _

theorem decodes_annotationValue {v : AnnotationValue}
    (h : Fits style levels v.numbers (v.toJson style)) :
    Decodes (annotationValue levels) (v.toJson style) v := by
  -- as for constants: each nested value takes more levels than the decoder counts
  induction levels generalizing v with
  | zero =>
    have hdepth := one_le_depth_annotationValue style v
    have hle := h.nesting
    omega
  | succ levels ih =>
    cases v with
    | boolean value => exact decodes_variant rfl (decodes_map (decodes_flag value) _)
    | byte value => exact decodes_variant rfl (decodes_map (decodes_int8 value) _)
    | char value => exact decodes_variant rfl (decodes_map (decodes_uint16 value) _)
    | short value => exact decodes_variant rfl (decodes_map (decodes_int16 value) _)
    | int value => exact decodes_variant rfl (decodes_map (decodes_int32 value) _)
    | long value => exact decodes_variant rfl (decodes_map (decodes_int64 value) _)
    | float value =>
      have hkept := h.kept (.inl value) (by simp [AnnotationValue.numbers])
      exact decodes_variant rfl (decodes_map (decodes_single_of_keeps hkept) _)
    | double value =>
      have hkept := h.kept (.inr value) (by simp [AnnotationValue.numbers])
      exact decodes_variant rfl (decodes_map (decodes_double_of_keeps hkept) _)
    | string value => exact decodes_variant rfl (decodes_map (decodes_text value) _)
    | classType descriptor => exact decodes_variant rfl (decodes_map (decodes_text descriptor) _)
    | enumConstant descriptor name =>
      exact decodes_variant rfl (decodes_map (decodes_enumConstant descriptor name) _)
    | nested value =>
      obtain ⟨descriptor, visible, elements⟩ := value
      rw [AnnotationValue.toJson, AnnotationValue.numbers] at h
      have hvalue := h.inner "annotation" rfl (List.Subset.refl _)
      have hdecoded := decodes_annotationRecord (fun e he => ih (hvalue.element he)) descriptor visible
      exact decodes_variant rfl (decodes_map hdecoded _)
    | array values =>
      rw [AnnotationValue.toJson, AnnotationValue.numbers, AnnotationValue.listNumbers_eq,
        AnnotationValue.listToJson_eq] at h
      have hvalues := h.inner "array" rfl (List.Subset.refl _)
      rw [AnnotationValue.toJson, AnnotationValue.listToJson_eq]
      exact decodes_variant rfl (decodes_map (decodes_list fun v hv => ih (hvalues.item hv)) _)

theorem decodes_annotations {l : List Annotation}
    (h : Fits style nestingLimit (l.flatMap Annotation.numbers) (annotationsToJson style l)) :
    Decodes annotations (annotationsToJson style l) l := by
  refine decodes_list fun a ha => ?_
  have hfits := h.item ha
  obtain ⟨descriptor, visible, elements⟩ := a
  exact decodes_annotationRecord (fun e he => decodes_annotationValue (hfits.element he)) descriptor
    visible

/-! ## Frames -/

theorem decodes_frameValue (v : FrameValue) : Decodes frameValue v.toJson v := by
  cases v with
  | object name => exact ⟨.record (by simpa using .string name), rfl⟩
  | uninitialized label =>
    have hlabel := decodes_uint32 label
    refine ⟨.record (by simpa using hlabel.sound), ?_⟩
    show (uint32 (nat label.toNat)).map FrameValue.uninitialized = _
    rw [hlabel.decoded]
    rfl
  | _ => exact ⟨.string _, rfl⟩

theorem decodes_frameValues (l : List FrameValue) :
    Decodes (list frameValue) (.array (l.map FrameValue.toJson)) l :=
  decodes_list fun v _ => decodes_frameValue v

theorem takeMembers_cons {key : String} {others : List (Option String × Json)}
    (h : ∀ m ∈ others, m.1 ≠ some key) (value : Json) :
    takeMembers key ((some key, value) :: others) = ([value], others) := by
  have hnone : others.filter (fun m => decide (m.1 = some key)) = [] :=
    List.filter_eq_nil_iff.mpr fun m hm => by simpa using h m hm
  have hall : others.filter (not ∘ fun m => decide (m.1 = some key)) = others :=
    List.filter_eq_self.mpr fun m hm => by simpa using h m hm
  simp [takeMembers, List.partition_eq_filter_filter, hnone, hall]

/-- The members of a record are named for its fields. -/
theorem forall_mem_of_fills {α : Type} {key : String} {entries : List (Entry α)}
    {given : List (String × Json)} {a b : α} (h : Fills entries given a b)
    (hfree : key ∉ entries.map Entry.name) :
    ∀ m ∈ given.map (fun (key, value) => (some key, value)), m.1 ≠ some key := by
  intro m hm hkey
  obtain ⟨pair, hpair, rfl⟩ := List.mem_map.mp hm
  rw [← h.keys, ← Option.some.inj hkey] at hfree
  exact hfree (List.mem_map_of_mem hpair)

theorem decodes_frame_of_kind {name : String} {entries : List (Entry FrameParts)}
    {make : FrameParts → Frame} {given : List (String × Json)} {parts : FrameParts} {f : Frame}
    (hkind : frameKinds.lookup name = some (entries, make))
    (hnames : ("type" :: entries.map Entry.name).Nodup) (h : Fills entries given {} parts)
    (hmake : make parts = f) : Decodes frame (record (("type", .string name) :: given)) f where
  sound := .record (List.forall_mem_cons.mpr ⟨.string name, h.sound⟩)
  decoded := by
    obtain ⟨hfree, hnames⟩ := List.nodup_cons.mp hnames
    have htake := takeMembers_cons (forall_mem_of_fills h hfree) (.string name)
    have hmembers := members_of_fills h [] hnames fun _ => Iff.rfl
    rw [record, List.map_cons, frame, htake]
    simp only [frameKind?, hkind]
    rw [← hmake]
    exact congrArg (Except.map make) hmembers

theorem decodes_frame (f : Frame) : Decodes frame f.toJson f := by
  cases f with
  | same => exact decodes_frame_of_kind rfl (by decide) (.nil _) rfl
  | same1 stack =>
    exact decodes_frame_of_kind rfl (by decide) (.required (decodes_frameValue stack) (.nil _)) rfl
  | append locals =>
    exact decodes_frame_of_kind rfl (by decide) (.required (decodes_frameValues locals) (.nil _)) rfl
  | chop count =>
    exact decodes_frame_of_kind rfl (by decide) (.required (decodes_uint64 count) (.nil _)) rfl
  | full locals stack =>
    exact decodes_frame_of_kind rfl (by decide) (.required (decodes_frameValues locals)
      (.required (decodes_frameValues stack) (.nil _))) rfl

/-! ## Instructions -/

/-- Members other than the kind are kept as they are. -/
theorem sortMembers_others (kind : InstructionKind) {others : List (Option String × Json)}
    (hkeys : ∀ m ∈ others, m.1.isSome) (hfree : ∀ m ∈ others, m.1 ≠ some "kind")
    (hvalues : ∀ m ∈ others, m.2.readable) :
    sortMembers (some kind) others = .ok (kind, others) := by
  induction others with
  | nil => rfl
  | cons m rest ih =>
    obtain ⟨key, value⟩ := m
    have hrest := ih (List.forall_mem_cons.mp hkeys).2 (List.forall_mem_cons.mp hfree).2
      (List.forall_mem_cons.mp hvalues).2
    have hvalue : value.readable := (List.forall_mem_cons.mp hvalues).1
    have hother : key ≠ some "kind" := (List.forall_mem_cons.mp hfree).1
    cases key with
    | none => exact absurd (List.forall_mem_cons.mp hkeys).1 (by simp)
    | some key =>
      rw [sortMembers, if_pos hvalue, hrest]
      · rfl
      · intro hsame
        exact hother (congrArg some hsame)

theorem decodes_instruction_of_kind {name : String} {entries : List (Entry InstructionParts)}
    {make : InstructionParts → Instruction} {given : List (String × Json)}
    {parts : InstructionParts} {i : Instruction}
    (hkind : instructionKinds.lookup name = some (entries, make))
    (hnames : ("kind" :: entries.map Entry.name).Nodup) (h : Fills entries given {} parts)
    (hmake : make parts = i) :
    Decodes instruction (record (("kind", .string name) :: given)) i where
  sound := .record (List.forall_mem_cons.mpr ⟨.string name, h.sound⟩)
  decoded := by
    obtain ⟨hfree, hnames⟩ := List.nodup_cons.mp hnames
    have hkeys : ∀ m ∈ given.map (fun (key, value) => (some key, value)), m.1.isSome := by
      intro m hm
      obtain ⟨pair, -, rfl⟩ := List.mem_map.mp hm
      rfl
    have hvalues : ∀ m ∈ given.map (fun (key, value) => (some key, value)), m.2.readable := by
      intro m hm
      obtain ⟨pair, hpair, rfl⟩ := List.mem_map.mp hm
      exact (h.sound pair hpair).readable
    have hsorted := sortMembers_others (entries, make) hkeys (forall_mem_of_fills h hfree) hvalues
    have hmembers := members_of_fills h [] hnames fun _ => Iff.rfl
    rw [record, List.map_cons, instruction, sortMembers]
    simp only [instructionKind, hkind, Json.within]
    show (sortMembers (some (entries, make)) _ >>= _) = _
    rw [hsorted, ← hmake]
    exact congrArg (fun read => atOnce (read.map make)) hmembers

theorem decodes_labels (l : List Label) :
    Decodes (list uint32) (.array (l.map fun label => nat label.toNat)) l :=
  decodes_list fun label _ => decodes_uint32 label

theorem decodes_instruction {i : Instruction}
    (h : Fits style nestingLimit i.numbers (i.toJson style)) :
    Decodes instruction (i.toJson style) i := by
  cases i with
  | insn opcode =>
    exact decodes_instruction_of_kind rfl (by decide) (.required (decodes_uint8 opcode) (.nil _)) rfl
  | int opcode operand =>
    exact decodes_instruction_of_kind rfl (by decide) (.required (decodes_uint8 opcode)
      (.required (decodes_int32 operand) (.nil _))) rfl
  | var opcode slot =>
    exact decodes_instruction_of_kind rfl (by decide) (.required (decodes_uint8 opcode)
      (.required (decodes_uint16 slot) (.nil _))) rfl
  | type opcode operand =>
    exact decodes_instruction_of_kind rfl (by decide) (.required (decodes_uint8 opcode)
      (.required (decodes_text operand) (.nil _))) rfl
  | field opcode owner name descriptor =>
    exact decodes_instruction_of_kind rfl (by decide) (.required (decodes_uint8 opcode)
      (.required (decodes_text owner) (.required (decodes_text name)
        (.required (decodes_text descriptor) (.nil _))))) rfl
  | method opcode owner name descriptor isInterface =>
    exact decodes_instruction_of_kind rfl (by decide) (.required (decodes_uint8 opcode)
      (.required (decodes_text owner) (.required (decodes_text name)
        (.required (decodes_text descriptor) (.defaulted (decodes_flag isInterface) (.nil _)))))) rfl
  | invokeDynamic name descriptor bootstrap arguments =>
    rw [Instruction.toJson, Instruction.numbers, Constant.listToJson_eq] at h
    have harguments := h.member "bootstrap_args" rfl (List.Subset.refl _)
    have hlist := decodes_list fun a ha => decodes_anyConstant (harguments.item ha)
    rw [Instruction.toJson, Constant.listToJson_eq]
    exact decodes_instruction_of_kind rfl (by decide) (.required (decodes_text name)
      (.required (decodes_text descriptor) (.required (decodes_handle bootstrap)
        (.defaulted hlist (.nil _))))) rfl
  | jump opcode target =>
    exact decodes_instruction_of_kind rfl (by decide) (.required (decodes_uint8 opcode)
      (.required (decodes_uint32 target) (.nil _))) rfl
  | label id =>
    exact decodes_instruction_of_kind rfl (by decide) (.required (decodes_uint32 id) (.nil _)) rfl
  | ldc value =>
    have hvalue := h.member "value" rfl (List.Subset.refl _)
    exact decodes_instruction_of_kind rfl (by decide)
      (.required (decodes_anyConstant hvalue) (.nil _)) rfl
  | iinc slot increment =>
    exact decodes_instruction_of_kind rfl (by decide) (.required (decodes_uint16 slot)
      (.required (decodes_int16 increment) (.nil _))) rfl
  | tableSwitch min max default labels =>
    exact decodes_instruction_of_kind rfl (by decide) (.required (decodes_int32 min)
      (.required (decodes_int32 max) (.required (decodes_uint32 default)
        (.required (decodes_labels labels) (.nil _))))) rfl
  | lookupSwitch default keys labels =>
    have hkeys := decodes_list (l := keys) fun key _ => decodes_int32 key
    exact decodes_instruction_of_kind rfl (by decide) (.required (decodes_uint32 default)
      (.required hkeys (.required (decodes_labels labels) (.nil _)))) rfl
  | multiNewArray descriptor dimensions =>
    exact decodes_instruction_of_kind rfl (by decide) (.required (decodes_text descriptor)
      (.required (decodes_uint8 dimensions) (.nil _))) rfl
  | frame value =>
    exact decodes_instruction_of_kind rfl (by decide) (.required (decodes_frame value) (.nil _)) rfl
  | line value start =>
    exact decodes_instruction_of_kind rfl (by decide) (.required (decodes_uint16 value)
      (.required (decodes_uint32 start) (.nil _))) rfl

/-! ## Declarations -/

theorem decodes_optionalString (o : Option String) :
    Decodes (option text) (Json.optionalString o) o :=
  decodes_optional (fun s _ => decodes_text s) fun _ => nofun

theorem decodes_strings (l : List String) : Decodes (list text) (Json.strings l) l :=
  decodes_list fun s _ => decodes_text s

theorem decodes_field {f : Field} (h : Fits style nestingLimit f.numbers (f.toJson style)) :
    Decodes field (f.toJson style) f := by
  have hvalue : Decodes (option anyConstant) (Json.optional (Constant.toJson style) f.value)
      f.value := by
    have hpart : Fits style nestingLimit (f.value.toList.flatMap Constant.numbers) _ :=
      h.part_of "value" rfl (by simp)
    refine decodes_optional (fun c hc => decodes_anyConstant ?_) (constant_ne_null style)
    rw [hc] at hpart
    simpa [Json.optional] using hpart
  have hannotations : Fits style nestingLimit (f.annotations.flatMap Annotation.numbers) _ :=
    h.part_of "annotations" rfl (by simp)
  have htypes : Fits style nestingLimit (f.typeAnnotations.flatMap Annotation.numbers) _ :=
    h.part_of "type_annotations" rfl (by simp)
  exact decodes_record (by decide) <|
    .defaulted (decodes_uint16 f.access) <| .defaulted (decodes_text f.name) <|
    .defaulted (decodes_text f.descriptor) <| .defaulted (decodes_optionalString f.signature) <|
    .defaulted hvalue <| .defaulted (decodes_annotations hannotations) <|
    .defaulted (decodes_annotations htypes) <| .nil f

theorem decodes_tryCatch (t : TryCatch) : Decodes tryCatch t.toJson t :=
  decodes_record (by decide) <|
    .required (decodes_uint32 t.start) <| .required (decodes_uint32 t.stop) <|
    .required (decodes_uint32 t.handler) <| .defaulted (decodes_optionalString t.type) <| .nil t

theorem decodes_localVariable (v : LocalVariable) : Decodes localVariable v.toJson v :=
  decodes_record (by decide) <|
    .required (decodes_text v.name) <| .required (decodes_text v.descriptor) <|
    .defaulted (decodes_optionalString v.signature) <| .required (decodes_uint32 v.start) <|
    .required (decodes_uint32 v.stop) <| .required (decodes_uint16 v.slot) <| .nil v

theorem decodes_method {m : Method} (h : Fits style nestingLimit m.numbers (m.toJson style)) :
    Decodes method (m.toJson style) m := by
  have hcode : Fits style nestingLimit (m.instructions.flatMap Instruction.numbers) _ :=
    h.part_of "instructions" rfl (by simp)
  have hannotations : Fits style nestingLimit (m.annotations.flatMap Annotation.numbers) _ :=
    h.part_of "annotations" rfl (by simp)
  have htypes : Fits style nestingLimit (m.typeAnnotations.flatMap Annotation.numbers) _ :=
    h.part_of "type_annotations" rfl (by simp)
  have hparameters : Fits style nestingLimit
      (m.parameterAnnotations.flatMap fun l => l.flatMap Annotation.numbers) _ :=
    h.part_of "parameter_annotations" rfl (by simp)
  have hdefault : Decodes (option anyAnnotationValue)
      (Json.optional (AnnotationValue.toJson style) m.annotationDefault) m.annotationDefault := by
    have hpart : Fits style nestingLimit
        (m.annotationDefault.toList.flatMap AnnotationValue.numbers) _ :=
      h.part_of "annotation_default" rfl (by simp)
    refine decodes_optional (fun v hv => decodes_annotationValue ?_) (annotationValue_ne_null style)
    rw [hv] at hpart
    simpa [Json.optional] using hpart
  exact decodes_record (by decide) <|
    .defaulted (decodes_uint16 m.access) <| .defaulted (decodes_text m.name) <|
    .defaulted (decodes_text m.descriptor) <| .defaulted (decodes_optionalString m.signature) <|
    .defaulted (decodes_strings m.exceptions) <| .defaulted (decodes_uint16 m.maxStack) <|
    .defaulted (decodes_uint16 m.maxLocals) <|
    .defaulted (decodes_list fun i hi => decodes_instruction (hcode.item hi)) <|
    .defaulted (decodes_list fun t _ => decodes_tryCatch t) <|
    .defaulted (decodes_list fun v _ => decodes_localVariable v) <|
    .defaulted (decodes_annotations hannotations) <| .defaulted (decodes_annotations htypes) <|
    .defaulted (decodes_list fun l hl => decodes_annotations (hparameters.item hl)) <|
    .defaulted hdefault <| .nil m

theorem decodes_innerClass (i : InnerClass) : Decodes innerClass i.toJson i :=
  decodes_record (by decide) <|
    .defaulted (decodes_text i.name) <| .defaulted (decodes_optionalString i.outerName) <|
    .defaulted (decodes_optionalString i.innerName) <| .defaulted (decodes_uint16 i.access) <|
    .nil i

theorem decodes_recordComponent {c : RecordComponent}
    (h : Fits style nestingLimit c.numbers (c.toJson style)) :
    Decodes recordComponent (c.toJson style) c := by
  have hannotations : Fits style nestingLimit (c.annotations.flatMap Annotation.numbers) _ :=
    h.part_of "annotations" rfl (by simp)
  have htypes : Fits style nestingLimit (c.typeAnnotations.flatMap Annotation.numbers) _ :=
    h.part_of "type_annotations" rfl (by simp)
  exact decodes_record (by decide) <|
    .defaulted (decodes_text c.name) <| .defaulted (decodes_text c.descriptor) <|
    .defaulted (decodes_optionalString c.signature) <|
    .defaulted (decodes_annotations hannotations) <| .defaulted (decodes_annotations htypes) <|
    .nil c

theorem decodes_provision (p : Provision) : Decodes provision p.toJson p :=
  decodes_record (by decide) <|
    .defaulted (decodes_text p.service) <| .defaulted (decodes_strings p.providers) <| .nil p

theorem decodes_moduleInfo (m : Module) : Decodes moduleInfo m.toJson m :=
  decodes_record (by decide) <|
    .defaulted (decodes_text m.name) <| .defaulted (decodes_optionalString m.mainClass) <|
    .defaulted (decodes_strings m.uses) <|
    .defaulted (decodes_list fun p _ => decodes_provision p) <| .nil m

theorem decodes_class {c : Class} (h : Fits style nestingLimit c.numbers (c.toJson style)) :
    Decodes anyClass (c.toJson style) c := by
  have hfields : Fits style nestingLimit (c.fields.flatMap Field.numbers) _ :=
    h.part_of "fields" rfl (by simp)
  have hmethods : Fits style nestingLimit (c.methods.flatMap Method.numbers) _ :=
    h.part_of "methods" rfl (by simp)
  have hcomponents : Fits style nestingLimit
      (c.recordComponents.flatMap RecordComponent.numbers) _ :=
    h.part_of "record_components" rfl (by simp)
  have hannotations : Fits style nestingLimit (c.annotations.flatMap Annotation.numbers) _ :=
    h.part_of "annotations" rfl (by simp)
  have htypes : Fits style nestingLimit (c.typeAnnotations.flatMap Annotation.numbers) _ :=
    h.part_of "type_annotations" rfl (by simp)
  have hmodule : Decodes (option moduleInfo) (Json.optional Module.toJson c.module) c.module :=
    decodes_optional (fun m _ => decodes_moduleInfo m) fun _ => nofun
  exact decodes_record (by decide) <|
    .defaulted (decodes_uint16 c.version) <| .defaulted (decodes_uint16 c.access) <|
    .defaulted (decodes_text c.name) <| .defaulted (decodes_optionalString c.superName) <|
    .defaulted (decodes_strings c.interfaces) <| .defaulted (decodes_optionalString c.signature) <|
    .defaulted (decodes_optionalString c.sourceFile) <|
    .defaulted (decodes_list fun f hf => decodes_field (hfields.item hf)) <|
    .defaulted (decodes_list fun m hm => decodes_method (hmethods.item hm)) <|
    .defaulted (decodes_list fun i _ => decodes_innerClass i) <|
    .defaulted (decodes_optionalString c.outerClass) <|
    .defaulted (decodes_optionalString c.outerMethod) <|
    .defaulted (decodes_optionalString c.outerMethodDescriptor) <|
    .defaulted (decodes_optionalString c.nestHost) <| .defaulted (decodes_strings c.nestMembers) <|
    .defaulted (decodes_strings c.permittedSubclasses) <|
    .defaulted (decodes_list fun r hr => decodes_recordComponent (hcomponents.item hr)) <|
    .defaulted hmodule <| .defaulted (decodes_annotations hannotations) <|
    .defaulted (decodes_annotations htypes) <| .nil c

end ClassFile

end Classmith
