import Mathlib.Data.List.Nodup
import Classmith.Proofs.Descriptors
import Classmith.Proofs.Mapping.Registering
import Classmith.Proofs.Rename.Undoing

/-!
# Mappings that can be reversed

A mapping set whose new names are new is undone by the reversed set: renaming with one and then with the
other gives the classes again, with everything they mention and declare.
-/
namespace Classmith

open MemberTable (Entry put)
open Signature (ClassTable IsName MemberFree NewNamesAreNames newName textNames)

/-! ## What a class is written in -/

namespace Mention

/-- The descriptors at a place. -/
def descriptors : Mention → List String
  | .self _ | .ofClass _ | .signature _ => []
  | .descriptor text | .declaredField _ text _ | .declaredMethod _ text _
  | .recordComponent _ text _ | .fieldAccess _ text _ | .methodCall _ text _
  | .enumConstant text _ | .enclosingMethod _ text _ => [text]
  | .handle h => [h.descriptor]

/-- The class names at a place that may be array types. -/
def owners : Mention → List String
  | .ofClass name => [name]
  | .fieldAccess owner _ _ | .methodCall owner _ _ | .enclosingMethod owner _ _ => [owner]
  | .handle h => [h.owner]
  | _ => []

/-- The generic signatures at a place, and the array types that stand in for a class. -/
def signatures : Mention → List String
  | .signature text => [text]
  | x => x.owners.filter Descriptor.isArray

def memberNames : Mention → List String
  | .declaredField _ _ name | .declaredMethod _ _ name | .recordComponent _ _ name
  | .fieldAccess _ _ name | .methodCall _ _ name | .enumConstant _ name
  | .enclosingMethod _ _ name => [name]
  | .handle h => [h.name]
  | _ => []

theorem mem_classes_of_owner {x : Mention} {owner name : String} (h : owner ∈ x.owners)
    (hname : name ∈ refNames owner) : name ∈ x.classes := by
  cases x <;> simp_all [owners, classes]

theorem mem_classes_of_descriptor {x : Mention} {text name : String} (h : text ∈ x.descriptors)
    (hname : name ∈ textNames text) : name ∈ x.classes := by
  cases x <;> simp_all [descriptors, classes]

end Mention

namespace Class

def descriptors (c : Class) : List String := c.mentions.flatMap Mention.descriptors

def signatures (c : Class) : List String := c.mentions.flatMap Mention.signatures

def memberNames (c : Class) : List String := c.mentions.flatMap Mention.memberNames

end Class

/-- The names of a mapping set are such that it can be undone on the given classes. -/
structure Reversible (classes : List Class) (m : MappingSet) : Prop where
  oldNames : (m.classRenames.map (·.1)).Nodup
  newNames : (m.classRenames.map (·.2)).Nodup
  notArrays : ∀ e ∈ m.classRenames, Descriptor.isArray e.1 = false ∧ Descriptor.isArray e.2 = false
  areNames : ∀ e ∈ m.classRenames, IsName e.2
  newClasses : ∀ e ∈ m.classRenames, ∀ c ∈ classes, e.2 ∉ c.references
  fieldNames : (m.fieldRenames.map (·.new)).Nodup
  methodNames : (m.methodRenames.map (·.new)).Nodup
  newMembers : ∀ e ∈ m.fieldRenames ++ m.methodRenames, ∀ c ∈ classes, e.new ∉ c.memberNames
  descriptors : ∀ c ∈ classes, ∀ d ∈ c.descriptors, Descriptor.IsPlain d
  signatures : ∀ c ∈ classes, ∀ s ∈ c.signatures, MemberFree s
  superNames : ∀ c ∈ classes, Descriptor.isArray c.name = false ∧
    ∀ above ∈ c.superName, Descriptor.isArray above = false
  /-- The simple name of an inner class that is renamed is the one that its name shows. -/
  innerNames : ∀ c ∈ classes, ∀ i ∈ c.innerClasses, i.name ∈ m.classRenames.map (·.1) →
    ∀ inner ∈ i.innerName, inner = Name.simple i.name
  /-- A renamed field that some subclass may see is seen by all of them. -/
  access : ∀ e ∈ m.fieldRenames, ∀ c ∈ classes, c.name = e.owner → ∀ f ∈ c.fields,
    f.descriptor = e.descriptor → f.name = e.name → Access.isPrivate f.access = false →
      Access.isPublic f.access = true ∨ Access.isProtected f.access = true
  classNames : (classes.map (·.name)).Nodup

namespace MappingSet

variable {m : MappingSet}

theorem get?_classTable (h : (m.classRenames.map (·.1)).Nodup) {old new : String} :
    m.classTable.get? old = some new ↔ (old, new) ∈ m.classRenames := by
  rw [classTable_eq]
  refine ⟨Table.mem_of_get?_ofList, fun hmem => Table.get?_ofList_of_mem hmem ?_⟩
  intro other hother
  exact congrArg Prod.snd (List.inj_on_of_nodup_map h hother hmem rfl)

theorem get?_classTable_reversed (h : (m.classRenames.map (·.2)).Nodup) {old new : String} :
    m.reversed.classTable.get? new = some old ↔ (old, new) ∈ m.classRenames := by
  have hswap : (m.reversed.classRenames.map (·.1)).Nodup := by
    rw [classRenames_reversed, List.map_map]
    exact h
  rw [get?_classTable hswap, classRenames_reversed, List.mem_map]
  constructor
  · rintro ⟨⟨a, b⟩, hmem, heq⟩
    cases heq
    exact hmem
  · intro hmem
    exact ⟨(old, new), hmem, rfl⟩

end MappingSet

section RoundTrip

variable {classes : List Class} {m : MappingSet} {r r' : Remapper}

theorem Reversible.newNamesArePlain (h : Reversible classes m) : NewNamesArePlain m.classTable := by
  intro old new hget
  have hmem := (MappingSet.get?_classTable h.oldNames).mp hget
  exact ⟨h.areNames _ hmem, (h.notArrays _ hmem).2⟩

theorem Reversible.isArray_old (h : Reversible classes m) (old new : String)
    (hget : m.classTable.get? old = some new) : Descriptor.isArray old = false :=
  (h.notArrays _ ((MappingSet.get?_classTable h.oldNames).mp hget)).1

/-- A name that no class is given as its new name comes back. -/
theorem Reversible.newName_back (h : Reversible classes m) {name : String}
    (hname : ∀ e ∈ m.classRenames, e.2 ≠ name) :
    newName m.reversed.classTable (newName m.classTable name) = name := by
  cases hget : m.classTable.get? name with
  | some new =>
    have hmem := (MappingSet.get?_classTable h.oldNames).mp hget
    have hback := (MappingSet.get?_classTable_reversed h.newNames).mpr hmem
    simp only [newName, hget, Option.getD_some, hback]
  | none =>
    have hnone : m.reversed.classTable.get? name = none := by
      cases hback : m.reversed.classTable.get? name with
      | none => rfl
      | some old =>
        have hmem := (MappingSet.get?_classTable_reversed h.newNames).mp hback
        exact absurd rfl (hname _ hmem)
    simp only [newName, hget, Option.getD_none, hnone]

/-! ## Texts and class names -/

theorem text_back (h : Reversible classes m) (hr : r.Holds classes m)
    (hr' : r'.Holds (classes.map r.pending.apply) m.reversed) {s : String} (hfree : MemberFree s)
    (hnames : ∀ e ∈ m.classRenames, e.2 ∉ textNames s) :
    r'.pending.signature (r.pending.signature s) = s := by
  have hforth : r.pending.classes = m.classTable := hr.classes
  have hback : r'.pending.classes = m.reversed.classTable := hr'.classes
  rw [Renaming.signature, Renaming.signature, hforth, hback]
  apply Signature.text_renameClasses_back h.newNamesArePlain.areNames hfree
  intro name hname
  exact h.newName_back fun e he heq => hnames e he (heq ▸ hname)

theorem classRef_back (h : Reversible classes m) (hr : r.Holds classes m)
    (hr' : r'.Holds (classes.map r.pending.apply) m.reversed) {name : String}
    (hfree : Descriptor.isArray name = true → MemberFree name)
    (hnames : ∀ e ∈ m.classRenames, e.2 ∉ refNames name) :
    r'.pending.classRef (r.pending.classRef name) = name := by
  have hforth : r.pending.classes = m.classTable := hr.classes
  have hback : r'.pending.classes = m.reversed.classTable := hr'.classes
  cases harray : Descriptor.isArray name with
  | true =>
    have hkeep : Descriptor.isArray (r.pending.signature name) = true := by
      rw [Renaming.isArray_signature, harray]
    rw [r.pending.classRef_of_isArray harray, r'.pending.classRef_of_isArray hkeep]
    apply text_back h hr hr' (hfree harray)
    simpa [refNames, harray] using hnames
  | false =>
    have hkeep : Descriptor.isArray (newName r.pending.classes name) = false := by
      rw [hforth]
      exact h.newNamesArePlain.isArray_newName harray
    rw [r.pending.classRef_of_not_isArray harray, r'.pending.classRef_of_not_isArray hkeep, hforth,
      hback]
    apply h.newName_back
    intro e he heq
    exact hnames e he (by simp [refNames, harray, heq])

/-! ## Members -/

/-- In a reversed list of renames with different new names, what is found under a new name is the old
name it was given to. -/
theorem eq_of_mem_reversed {l : List Entry} (hnodup : (l.map (·.new)).Nodup) {table : ClassTable}
    {e : Entry} (he : e ∈ l) {o d x : String}
    (h : ⟨o, d, e.new, x⟩ ∈ l.map (MappingSet.reverseEntry table)) : x = e.name := by
  obtain ⟨other, hother, heq⟩ := List.mem_map.mp h
  simp only [MappingSet.reverseEntry, Entry.mk.injEq] at heq
  obtain ⟨-, -, hnew, rfl⟩ := heq
  rw [List.inj_on_of_nodup_map hnodup hother he hnew]

theorem new_of_mem_reversed {l : List Entry} {table : ClassTable} {o d n x : String}
    (h : ⟨o, d, n, x⟩ ∈ l.map (MappingSet.reverseEntry table)) : ∃ e ∈ l, e.new = n := by
  obtain ⟨e, he, heq⟩ := List.mem_map.mp h
  simp only [MappingSet.reverseEntry, Entry.mk.injEq] at heq
  exact ⟨e, he, heq.2.2.1⟩

theorem mem_reversed (hr : r.Holds classes m) {l : List Entry} {o d n new : String}
    (h : ⟨o, d, n, new⟩ ∈ l) : ⟨r.pending.classRef o, r.pending.signature d, new, n⟩ ∈
      l.map (MappingSet.reverseEntry m.classTable) := by
  refine List.mem_map.mpr ⟨_, h, ?_⟩
  rw [← hr.classes]
  rfl

theorem methodName_back (hr : r.Holds classes m)
    (hr' : r'.Holds (classes.map r.pending.apply) m.reversed) (o d : String) {n : String}
    (hn : ∀ e ∈ m.methodRenames, e.new ≠ n) :
    r'.pending.methodName (r.pending.classRef o) (r.pending.signature d)
      (r.pending.methodName o d n) = n := by
  have hforth : r.pending.methods = r.methods := rfl
  have hback : r'.pending.methods = r'.methods := rfl
  rw [Renaming.methodName, Renaming.methodName, hforth, hback]
  cases hget : r.methods.get? o d n with
  | some new =>
    have hmem := mem_reversed hr ((hr.methods o d n new).mp hget)
    rw [← MappingSet.methodRenames_reversed] at hmem
    rw [Option.getD_some, (hr'.methods _ _ _ _).mpr hmem, Option.getD_some]
  | none =>
    rw [Option.getD_none]
    cases hfound : r'.methods.get? (r.pending.classRef o) (r.pending.signature d) n with
    | none => rfl
    | some x =>
      have hmem := (hr'.methods _ _ _ _).mp hfound
      rw [MappingSet.methodRenames_reversed] at hmem
      obtain ⟨e, he, heq⟩ := new_of_mem_reversed hmem
      exact absurd heq (hn e he)

theorem mem_fieldRenames_of_get? (hr : r.Holds classes m) {o d n new : String}
    (h : r.fields.get? o d n = some new) : ⟨o, d, n, new⟩ ∈ m.fieldRenames := by
  rw [hr.fields] at h
  rcases MemberTable.get?_foldl_put_eq_some h with hmem | hempty
  · exact hmem
  · simp at hempty

theorem get?_fields_reversed (h : Reversible classes m) (hr : r.Holds classes m)
    (hr' : r'.Holds (classes.map r.pending.apply) m.reversed) {o d n new : String}
    (hmem : ⟨o, d, n, new⟩ ∈ m.fieldRenames) :
    r'.fields.get? (r.pending.classRef o) (r.pending.signature d) new = some n := by
  rw [hr'.fields, MappingSet.fieldRenames_reversed]
  apply MemberTable.get?_foldl_put_of_mem (mem_reversed hr hmem)
  intro other hother
  exact eq_of_mem_reversed h.fieldNames hmem hother

/-- Whatever field rename is found on the way back is one of the reversed records. -/
theorem mem_reversed_of_get? (hr' : r'.Holds (classes.map r.pending.apply) m.reversed)
    {o d n x : String} (h : r'.pending.fields.get? o d n = some x) :
    ∃ o' d', ⟨o', d', n, x⟩ ∈ m.fieldRenames.map (MappingSet.reverseEntry m.classTable) := by
  rw [hr'.current.pending_fields] at h
  rw [← MappingSet.fieldRenames_reversed]
  rcases own_or_inherits_of_get? h with hown | ⟨c, f, hinherits⟩
  · exact ⟨o, d, mem_fieldRenames_of_get? hr' hown⟩
  · exact ⟨c.name, d, mem_fieldRenames_of_get? hr' hinherits.renamed⟩

/-! ## Fields seen through subclasses -/

theorem classRef_className (h : Reversible classes m) (hr : r.Holds classes m) {c : Class}
    (hc : c ∈ classes) : r.pending.classRef c.name = newName m.classTable c.name := by
  rw [r.pending.classRef_of_not_isArray (h.superNames c hc).1]
  exact congrArg (newName · c.name) hr.classes

theorem extendsDirectly_apply (h : Reversible classes m) (hr : r.Holds classes m)
    {above name : String} (hextends : ExtendsDirectly classes above name) :
    ExtendsDirectly (classes.map r.pending.apply) (newName m.classTable above)
      (newName m.classTable name) := by
  obtain ⟨c, hc, hsuper, rfl⟩ := hextends
  have harray : Descriptor.isArray above = false := (h.superNames c hc).2 above hsuper
  have hclasses : r.pending.classes = m.classTable := hr.classes
  refine ⟨r.pending.apply c, List.mem_map.mpr ⟨c, hc, rfl⟩, ?_, ?_⟩
  · simp only [Renaming.apply, hsuper, Option.map_some, r.pending.classRef_of_not_isArray harray,
      hclasses]
  · rw [← hclasses]
    rfl

theorem descends_apply (h : Reversible classes m) (hr : r.Holds classes m) {above name : String}
    (hdescends : Descends classes above name) :
    Descends (classes.map r.pending.apply) (newName m.classTable above)
      (newName m.classTable name) := by
  induction hdescends with
  | single hstep => exact .single (extendsDirectly_apply h hr hstep)
  | tail _ hstep ih => exact .tail ih (extendsDirectly_apply h hr hstep)

theorem exists_class_of_descends {above name : String} (h : Descends classes above name) :
    ∃ c ∈ classes, c.name = name := by
  cases h with
  | single hstep =>
    obtain ⟨c, hc, -, hname⟩ := hstep
    exact ⟨c, hc, hname⟩
  | tail _ hstep =>
    obtain ⟨c, hc, -, hname⟩ := hstep
    exact ⟨c, hc, hname⟩

theorem Class.name_mem_references (c : Class) : c.name ∈ c.references :=
  List.mem_flatMap.mpr ⟨.self c.name, by simp [Class.mentions], by simp [Mention.classes]⟩

theorem newName_className_back (h : Reversible classes m) {c : Class} (hc : c ∈ classes) :
    newName m.reversed.classTable (newName m.classTable c.name) = c.name :=
  h.newName_back fun e he heq => h.newClasses e he c hc (heq ▸ c.name_mem_references)

/-- A class that inherits a rename inherits the reversed one from the same class when both have been
renamed. -/
theorem inherits_back (h : Reversible classes m) (hr : r.Holds classes m)
    (hr' : r'.Holds (classes.map r.pending.apply) m.reversed) {o d n new : String} {c : Class}
    {f : Field} (hinherits : Inherits classes r.fields o d n new c f) :
    Inherits (classes.map r.pending.apply) r'.fields (r.pending.classRef o) (r.pending.signature d)
      new n (r.pending.apply c) (r.pending.field c.name f) := by
  obtain ⟨hc, hf, rfl, rfl, hrenamed, hother, hbelow, hvisible⟩ := hinherits
  obtain ⟨child, hchild, rfl⟩ := exists_class_of_descends hbelow
  have hmem := mem_fieldRenames_of_get? hr hrenamed
  have hclasses : r.pending.classes = m.classTable := hr.classes
  have hname : (r.pending.apply c).name = newName m.classTable c.name := by
    rw [← hclasses]
    rfl
  rw [classRef_className h hr hchild]
  refine ⟨List.mem_map.mpr ⟨c, hc, rfl⟩, List.mem_map.mpr ⟨f, hf, rfl⟩, rfl, ?_, ?_, ?_, ?_, ?_⟩
  · -- the declaration itself has the new name
    have hown : r.pending.fields.get? c.name f.descriptor f.name = some new := by
      rw [hr.current.pending_fields]
      exact get?_inheritedFields_of_own hrenamed
    simp only [Renaming.field, Renaming.fieldName, hown, Option.getD_some]
  · rw [hname, ← classRef_className h hr hc]
    exact get?_fields_reversed h hr hr' hmem
  · rw [hname]
    intro heq
    apply hother
    rw [← newName_className_back h hchild, heq, newName_className_back h hc]
  · rw [hname]
    exact descends_apply h hr hbelow
  · have hprivate : Access.isPrivate f.access = false := by
      simp only [Field.visibleFrom, Bool.and_eq_true, Bool.not_eq_true'] at hvisible
      exact hvisible.1
    have haccess := h.access _ hmem c hc rfl f hf rfl rfl hprivate
    simp only [Field.visibleFrom, Renaming.field, hprivate, Bool.not_false, Bool.true_and,
      Bool.or_eq_true]
    exact Or.inl haccess

theorem fieldName_back (h : Reversible classes m) (hr : r.Holds classes m)
    (hr' : r'.Holds (classes.map r.pending.apply) m.reversed) (o d : String) {n : String}
    (hn : ∀ e ∈ m.fieldRenames, e.new ≠ n) :
    r'.pending.fieldName (r.pending.classRef o) (r.pending.signature d)
      (r.pending.fieldName o d n) = n := by
  rw [Renaming.fieldName, Renaming.fieldName]
  cases hget : r.pending.fields.get? o d n with
  | none =>
    rw [Option.getD_none]
    cases hfound : r'.pending.fields.get? (r.pending.classRef o) (r.pending.signature d) n with
    | none => rfl
    | some x =>
      obtain ⟨o', d', hmem⟩ := mem_reversed_of_get? hr' hfound
      obtain ⟨e, he, heq⟩ := new_of_mem_reversed hmem
      exact absurd heq (hn e he)
  | some new =>
    rw [Option.getD_some]
    have hfields := hr'.current.pending_fields
    rw [hr'.targets] at hfields
    rw [hr.current.pending_fields, hr.targets] at hget
    rcases own_or_inherits_of_get? hget with hown | ⟨c, f, hinherits⟩
    · have hback := get?_fields_reversed h hr hr' (mem_fieldRenames_of_get? hr hown)
      rw [hfields, get?_inheritedFields_of_own hback, Option.getD_some]
    · have hsome := isSome_get?_inheritedFields (inherits_back h hr hr' hinherits)
      obtain ⟨x, hx⟩ := Option.isSome_iff_exists.mp hsome
      have hmem := mem_fieldRenames_of_get? hr hinherits.renamed
      rw [hfields, hx, Option.getD_some]
      rw [← hfields] at hx
      obtain ⟨o', d', hreversed⟩ := mem_reversed_of_get? hr' hx
      exact eq_of_mem_reversed h.fieldNames hmem hreversed

/-! ## Whole classes -/

/-- What a reversible set needs of one place of a class. -/
structure PlaceReversible (m : MappingSet) (x : Mention) : Prop where
  classes : ∀ e ∈ m.classRenames, e.2 ∉ x.classes
  fields : ∀ e ∈ m.fieldRenames, e.new ∉ x.memberNames
  methods : ∀ e ∈ m.methodRenames, e.new ∉ x.memberNames
  descriptors : ∀ d ∈ x.descriptors, Descriptor.IsPlain d
  signatures : ∀ s ∈ x.signatures, MemberFree s

theorem Reversible.place (h : Reversible classes m) {c : Class} (hc : c ∈ classes) {x : Mention}
    (hx : x ∈ c.mentions) : PlaceReversible m x where
  classes e he hmem := h.newClasses e he c hc (List.mem_flatMap.mpr ⟨x, hx, hmem⟩)
  fields e he hmem :=
    h.newMembers e (List.mem_append_left _ he) c hc (List.mem_flatMap.mpr ⟨x, hx, hmem⟩)
  methods e he hmem :=
    h.newMembers e (List.mem_append_right _ he) c hc (List.mem_flatMap.mpr ⟨x, hx, hmem⟩)
  descriptors d hd := h.descriptors c hc d (List.mem_flatMap.mpr ⟨x, hx, hd⟩)
  signatures s hs := h.signatures c hc s (List.mem_flatMap.mpr ⟨x, hx, hs⟩)

/-- Each name and type at a place goes back to itself. -/
structure PlaceUndone (r r' : Renaming) (x : Mention) : Prop where
  owner : ∀ name ∈ x.owners, r'.classRef (r.classRef name) = name
  descriptor : ∀ d ∈ x.descriptors, r'.signature (r.signature d) = d
  field : ∀ o d, ∀ n ∈ x.memberNames,
    r'.fieldName (r.classRef o) (r.signature d) (r.fieldName o d n) = n
  method : ∀ o d, ∀ n ∈ x.memberNames,
    r'.methodName (r.classRef o) (r.signature d) (r.methodName o d n) = n

theorem PlaceReversible.undone (h : Reversible classes m) (hr : r.Holds classes m)
    (hr' : r'.Holds (classes.map r.pending.apply) m.reversed) {x : Mention}
    (hx : PlaceReversible m x) : PlaceUndone r.pending r'.pending x where
  owner name hname := by
    have hmembers : Descriptor.isArray name = true → MemberFree name := by
      intro harray
      apply hx.signatures
      cases x <;> simp_all [Mention.owners, Mention.signatures]
    exact classRef_back h hr hr' hmembers fun e he hmem =>
      hx.classes e he (Mention.mem_classes_of_owner hname hmem)
  descriptor d hd :=
    text_back h hr hr' (hx.descriptors d hd).memberFree fun e he hmem =>
      hx.classes e he (Mention.mem_classes_of_descriptor hd hmem)
  field o d n hn := fieldName_back h hr hr' o d fun e he heq => hx.fields e he (heq ▸ hn)
  method o d n hn := methodName_back hr hr' o d fun e he heq => hx.methods e he (heq ▸ hn)

theorem mention_back (h : Reversible classes m) (hr : r.Holds classes m)
    (hr' : r'.Holds (classes.map r.pending.apply) m.reversed) {c : Class} (hc : c ∈ classes)
    {x : Mention} (hin : x.IsIn c.name) (hx : PlaceReversible m x) :
    r'.pending.mention (r.pending.mention x) = x := by
  obtain ⟨howner, hdescriptor, hfield, hmethod⟩ := hx.undone h hr hr'
  have hforth : r.pending.classes = m.classTable := hr.classes
  have hback : r'.pending.classes = m.reversed.classTable := hr'.classes
  have hself : newName r'.pending.classes (newName r.pending.classes c.name) = c.name := by
    rw [hforth, hback, newName_className_back h hc]
  have hselfRef : newName r.pending.classes c.name = r.pending.classRef c.name := by
    rw [hforth, classRef_className h hr hc]
  cases x with
  | self name =>
    obtain rfl : name = c.name := hin
    simp only [Renaming.mention, hself]
  | ofClass name => simp only [Renaming.mention, howner name List.mem_cons_self]
  | descriptor text => simp only [Renaming.mention, hdescriptor text List.mem_cons_self]
  | signature text =>
    have hfree := hx.signatures text List.mem_cons_self
    simp only [Renaming.mention, text_back h hr hr' hfree hx.classes]
  | declaredField name text member | recordComponent name text member =>
    obtain rfl : name = c.name := hin
    have hname := hfield c.name text member List.mem_cons_self
    simp only [Renaming.mention, hself, hdescriptor text List.mem_cons_self]
    rw [hselfRef, hname]
  | declaredMethod name text member =>
    obtain rfl : name = c.name := hin
    have hname := hmethod c.name text member List.mem_cons_self
    simp only [Renaming.mention, hself, hdescriptor text List.mem_cons_self]
    rw [hselfRef, hname]
  | fieldAccess owner text member =>
    have hname := hfield owner text member List.mem_cons_self
    simp only [Renaming.mention, howner owner List.mem_cons_self,
      hdescriptor text List.mem_cons_self, hname]
  | methodCall owner text member =>
    have hname := hmethod owner text member List.mem_cons_self
    have harray : Descriptor.isArray (r.pending.classRef owner) = Descriptor.isArray owner := by
      apply Renaming.isArray_classRef
      rw [hforth]
      exact h.newNamesArePlain
    simp only [Renaming.mention, howner owner List.mem_cons_self,
      hdescriptor text List.mem_cons_self, harray]
    split
    · rfl
    · rw [hname]
  | handle handle =>
    have hclass := howner handle.owner List.mem_cons_self
    have htext := hdescriptor handle.descriptor List.mem_cons_self
    have hfieldName := hfield handle.owner handle.descriptor handle.name List.mem_cons_self
    have hmethodName := hmethod handle.owner handle.descriptor handle.name List.mem_cons_self
    have hkind : (r.pending.handle handle).isField = handle.isField := rfl
    simp only [Renaming.mention, Mention.handle.injEq]
    rw [Renaming.handle, hkind]
    cases hisField : handle.isField <;>
      simp only [Renaming.handle, hisField, hclass, htext, hfieldName, hmethodName, if_true,
        Bool.false_eq_true, if_false]
  | enumConstant text member =>
    have htype : Descriptor.internalName? (r.pending.signature text) =
        (Descriptor.internalName? text).map r.pending.classRef := by
      apply r.pending.internalName?_signature _ (hx.descriptors text List.mem_cons_self)
      rw [hforth]
      exact h.isArray_old
    simp only [Renaming.mention, hdescriptor text List.mem_cons_self, htype]
    cases Descriptor.internalName? text with
    | none => rfl
    | some owner =>
      have hname := hfield owner text member List.mem_cons_self
      simp only [Option.map_some, hname]
  | enclosingMethod owner text member =>
    have hname := hmethod owner text member List.mem_cons_self
    simp only [Renaming.mention, howner owner List.mem_cons_self,
      hdescriptor text List.mem_cons_self, hname]

theorem innerName_back (h : Reversible classes m) (hr : r.Holds classes m)
    (hr' : r'.Holds (classes.map r.pending.apply) m.reversed) {c : Class} (hc : c ∈ classes)
    {i : InnerClass} (hi : i ∈ c.innerClasses) :
    (r'.pending.innerClass (r.pending.innerClass i)).innerName = i.innerName := by
  have hforth : r.pending.classes = m.classTable := hr.classes
  have hback : r'.pending.classes = m.reversed.classTable := hr'.classes
  cases hinner : i.innerName with
  | none => simp only [Renaming.innerClass, hinner, Option.map_none]
  | some inner =>
    simp only [Renaming.innerClass, hinner, Option.map_some, hforth, hback]
    cases hget : m.classTable.get? i.name with
    | some new =>
      have hmem := (MappingSet.get?_classTable h.oldNames).mp hget
      have hnew : r.pending.classRef i.name = new := by
        rw [r.pending.classRef_of_not_isArray (h.notArrays _ hmem).1, hforth, newName, hget]
        rfl
      have hold := (MappingSet.get?_classTable_reversed h.newNames).mpr hmem
      have hsimple := h.innerNames c hc i hi (List.mem_map.mpr ⟨_, hmem, rfl⟩) inner hinner
      simp only [hnew, hold, hsimple]
    | none =>
      -- the name is not looked up on the way back, because it is no new name
      have hnone : m.reversed.classTable.get? (r.pending.classRef i.name) = none := by
        cases hfound : m.reversed.classTable.get? (r.pending.classRef i.name) with
        | none => rfl
        | some old =>
          have hmem := (MappingSet.get?_classTable_reversed h.newNames).mp hfound
          have harray : Descriptor.isArray i.name = false := by
            rw [← r.pending.isArray_classRef (by rw [hforth]; exact h.newNamesArePlain) i.name]
            exact (h.notArrays _ hmem).2
          have hsame : r.pending.classRef i.name = i.name := by
            rw [r.pending.classRef_of_not_isArray harray, hforth, newName, hget]
            rfl
          rw [hsame] at hmem
          refine absurd (List.mem_flatMap.mpr ⟨.ofClass i.name, ?_, ?_⟩) (h.newClasses _ hmem c hc)
          · have hmentions : Mention.ofClass i.name ∈ i.mentions := by simp [InnerClass.mentions]
            have hinners := List.mem_flatMap.mpr ⟨i, hi, hmentions⟩
            simp only [Class.mentions, List.mem_append]
            simp [hinners]
          · simp [Mention.classes, refNames, harray]
      simp only [hnone]

theorem apply_back (h : Reversible classes m) (hr : r.Holds classes m)
    (hr' : r'.Holds (classes.map r.pending.apply) m.reversed) {c : Class} (hc : c ∈ classes) :
    r'.pending.apply (r.pending.apply c) = c := by
  apply Renaming.undo_apply
  · intro x hx hin
    exact mention_back h hr hr' hc hin (h.place hc hx)
  · intro i hi
    exact innerName_back h hr hr' hc hi

theorem names_apply_nodup (h : Reversible classes m) (hr : r.Holds classes m) :
    ((classes.map r.pending.apply).map (·.name)).Nodup := by
  have hnames : (classes.map r.pending.apply).map (·.name) =
      (classes.map (·.name)).map (newName m.classTable) := by
    rw [List.map_map, List.map_map, ← hr.classes]
    rfl
  rw [hnames]
  refine List.Nodup.map_on ?_ h.classNames
  intro a ha b hb heq
  obtain ⟨c, hc, rfl⟩ := List.mem_map.mp ha
  obtain ⟨d, hd, rfl⟩ := List.mem_map.mp hb
  rw [← newName_className_back h hc, heq, newName_className_back h hd]

theorem process_forth (h : Reversible classes m) (hr : r.Holds classes m) :
    ∃ targets, r.process = (.ok (), { Remapper.new with targets }) ∧
      targets.classes = classes.map r.pending.apply := by
  have hnodup : ((r.targets.classes.map r.pending.apply).map (·.name)).Nodup := by
    rw [hr.targets]
    exact names_apply_nodup h hr
  obtain ⟨targets, hprocess⟩ := Remapper.process_of_nodup hnodup
  have hclasses := r.classes_process
  rw [hprocess, hr.targets] at hclasses
  exact ⟨targets, hprocess, hclasses⟩

theorem process_back (h : Reversible classes m) (hr : r.Holds classes m)
    (hr' : r'.Holds (classes.map r.pending.apply) m.reversed) :
    ∃ restored, r'.process = (.ok (), restored) ∧ restored.targets.classes = classes := by
  have hsame : r'.targets.classes.map r'.pending.apply = classes := by
    rw [hr'.targets, List.map_map]
    exact map_eq_self fun c hc => apply_back h hr hr' hc
  have hnodup : ((r'.targets.classes.map r'.pending.apply).map (·.name)).Nodup := by
    rw [hsame]
    exact h.classNames
  obtain ⟨targets, hprocess⟩ := Remapper.process_of_nodup hnodup
  refine ⟨_, hprocess, ?_⟩
  have hclasses := r'.classes_process
  rw [hprocess, hsame] at hclasses
  exact hclasses

theorem Reversible.consistent_reversed (h : Reversible classes m) : m.reversed.Consistent := by
  intro o d n a b ha hb
  rw [MappingSet.methodRenames_reversed] at ha hb
  obtain ⟨e, he, rfl⟩ := new_of_mem_reversed ha
  rw [eq_of_mem_reversed h.methodNames he ha, eq_of_mem_reversed h.methodNames he hb]

end RoundTrip

/-- Renaming by a mapping set and then by the reversed set gives the classes again, whether the second
pass is made by a new remapper or by the one that made the first. The set can be applied unless it gives
one method two new names; the reversed set always can. -/
theorem reversed_undoes {classes : List Class} {m : MappingSet} (h : Reversible classes m) :
    (m.Consistent → ∃ r renamed, Command.prepare classes m = .ok r ∧
      r.process = (.ok (), renamed) ∧
      (∃ r' restored, Command.prepare renamed.targets.classes m.reversed = .ok r' ∧
        r'.process = (.ok (), restored) ∧ restored.targets.classes = classes) ∧
      ∃ r' restored, m.reversed.apply renamed = (.ok (), r') ∧
        r'.process = (.ok (), restored) ∧ restored.targets.classes = classes) ∧
    (¬m.Consistent → ∃ failure, Command.prepare classes m = .error failure) := by
  refine ⟨fun hconsistent => ?_, Command.prepare_of_not_consistent h.classNames⟩
  obtain ⟨r, hprepare, hr⟩ := Command.prepare_of_consistent h.classNames hconsistent
  obtain ⟨targets, hprocess, hclasses⟩ := process_forth h hr
  have hnodup := names_apply_nodup h hr
  refine ⟨r, _, hprepare, hprocess, ?_, ?_⟩
  · obtain ⟨r', hprepare', hr'⟩ := Command.prepare_of_consistent hnodup h.consistent_reversed
    obtain ⟨restored, hprocess', hrestored⟩ := process_back h hr hr'
    exact ⟨r', restored, by rw [hclasses]; exact hprepare', hprocess', hrestored⟩
  · obtain ⟨r', happly⟩ := MappingSet.exists_apply (r := { Remapper.new with targets })
      h.consistent_reversed rfl
    have hr' := MappingSet.holds_of_apply happly rfl rfl rfl (Remapper.current_withTargets targets)
    rw [hclasses] at hr'
    obtain ⟨restored, hprocess', hrestored⟩ := process_back h hr hr'
    exact ⟨r', restored, happly, hprocess', hrestored⟩

namespace Samples

/-- A class with a field that its subclass sees. -/
def base : Class where
  name := "p/Base"
  superName := some "java/lang/Object"
  fields := [{ access := 4, name := "count", descriptor := "I" }]
  methods := [{ access := 1, name := "add", descriptor := "(Lp/Base;)V" }]

/-- A subclass that uses the field as its own. -/
def derived : Class where
  name := "p/Derived"
  superName := some "p/Base"
  signature := some "Lp/Base;Ljava/lang/Comparable<Lp/Derived;>;"
  methods := [{
    name := "use"
    descriptor := "()V"
    instructions := [.field 0xb4 "p/Derived" "count" "I",
      .method 0xb6 "p/Base" "add" "(Lp/Base;)V" false] }]

/-- New names for the class, the field and the method. -/
def baseRenames : MappingSet where
  source := "old"
  target := "new"
  entries := [⟨2, .ofClass "p/Base" "q/Root"⟩, ⟨3, .ofField "p/Base" "I" "count" "total"⟩,
    ⟨4, .ofMethod "p/Base" "(Lp/Base;)V" "add" "plus"⟩]

theorem reversible_baseRenames : Reversible [base, derived] baseRenames where
  oldNames := by decide +kernel
  newNames := by decide +kernel
  notArrays := by decide +kernel
  areNames := by decide +kernel
  newClasses := by decide +kernel
  fieldNames := by decide +kernel
  methodNames := by decide +kernel
  newMembers := by decide +kernel
  descriptors := by decide +kernel
  signatures := by
    have hdots : ∀ c ∈ [base, derived], ∀ s ∈ c.signatures, '.' ∉ s.toList := by decide +kernel
    exact fun c hc s hs => Signature.memberFree_of_notMem (hdots c hc s hs)
  superNames := by decide +kernel
  innerNames := by decide +kernel
  access := by decide +kernel
  classNames := by decide +kernel

end Samples

theorem reversed_undoes_baseRenames : ∃ r renamed,
    Command.prepare [Samples.base, Samples.derived] Samples.baseRenames = .ok r ∧
    r.process = (.ok (), renamed) ∧ renamed.targets.classes.map (·.name) = ["q/Root", "p/Derived"] ∧
    ∃ r' restored,
      Command.prepare renamed.targets.classes Samples.baseRenames.reversed = .ok r' ∧
      r'.process = (.ok (), restored) ∧
      restored.targets.classes = [Samples.base, Samples.derived] := by
  have hconsistent : Samples.baseRenames.Consistent := by
    intro o d n a b ha hb
    simp_all [MappingSet.methodRenames, MappingRecord.methodRename?, Samples.baseRenames]
  obtain ⟨r, renamed, hprepare, hprocess, hback, -⟩ :=
    (reversed_undoes Samples.reversible_baseRenames).1 hconsistent
  have hnames : (Command.prepare [Samples.base, Samples.derived] Samples.baseRenames).toOption.map
      (fun r => r.process.2.targets.classes.map (·.name)) = some ["q/Root", "p/Derived"] := by
    decide +kernel
  rw [hprepare] at hnames
  simp only [Except.toOption, Option.map_some, hprocess, Option.some.injEq] at hnames
  exact ⟨r, renamed, hprepare, hprocess, hnames, hback⟩

end Classmith
