import Classmith.Proofs.Rename.References

/-!
# Members and their uses

A member that a class declares is used in many places of many classes: by instructions, by handles at
any depth of a constant, by annotations, by records and by local classes. All of them are renamed as the
declaration is, although owner, descriptor and name are looked up and replaced one by one.
-/
namespace Classmith

open Signature (newName)

def Mention.handle? : Mention → Option Handle
  | .handle h => some h
  | _ => none

/-- The enumeration type and the name of a constant. -/
def Mention.enumConstant? : Mention → Option (String × String)
  | .enumConstant type name => some (type, name)
  | _ => none

namespace Class

/-- The handles of a class, at any depth of its constants, in the order of the places they are in. -/
def handles (c : Class) : List Handle := c.mentions.filterMap Mention.handle?

/-- The constants of enumerations in annotations, at any depth, in the order of their places. -/
def enumConstants (c : Class) : List (String × String) := c.mentions.filterMap Mention.enumConstant?

def instructionAt? (c : Class) (method position : Nat) : Option Instruction :=
  c.methods[method]?.bind fun m => m.instructions[position]?

end Class

/-- The places of a class `t` that use a field `f` of a class `c` use, in a class `t'`, a field `f'` of
a class `c'`. -/
structure FieldUsesFollow (c c' : Class) (f f' : Field) (t t' : Class) : Prop where
  instruction : ∀ method position opcode,
    t.instructionAt? method position = some (.field opcode c.name f.name f.descriptor) →
      t'.instructionAt? method position = some (.field opcode c'.name f'.name f'.descriptor)
  handle : ∀ (place : Nat) (h : Handle), t.handles[place]? = some h → h.isField = true →
    h.owner = c.name → h.name = f.name → h.descriptor = f.descriptor →
      t'.handles[place]? =
        some { h with owner := c'.name, name := f'.name, descriptor := f'.descriptor }
  enumConstant : ∀ place : Nat, f.descriptor = "L" ++ c.name ++ ";" →
    t.enumConstants[place]? = some (f.descriptor, f.name) →
      t'.enumConstants[place]? = some (f'.descriptor, f'.name)

/-- The places of a class `t` that use a method `m` of a class `c` use, in a class `t'`, a method `m'`
of a class `c'`. -/
structure MethodUsesFollow (c c' : Class) (m m' : Method) (t t' : Class) : Prop where
  instruction : ∀ method position opcode isInterface,
    t.instructionAt? method position =
        some (.method opcode c.name m.name m.descriptor isInterface) →
      t'.instructionAt? method position =
        some (.method opcode c'.name m'.name m'.descriptor isInterface)
  handle : ∀ (place : Nat) (h : Handle), t.handles[place]? = some h → h.isField = false →
    h.owner = c.name → h.name = m.name → h.descriptor = m.descriptor →
      t'.handles[place]? =
        some { h with owner := c'.name, name := m'.name, descriptor := m'.descriptor }
  enclosing : t.outerClass = some c.name → t.outerMethod = some m.name →
    t.outerMethodDescriptor = some m.descriptor →
      t'.outerClass = some c'.name ∧ t'.outerMethod = some m'.name ∧
        t'.outerMethodDescriptor = some m'.descriptor

/-- A record component that stands for a field. -/
def RecordComponent.StandsFor (component : RecordComponent) (f : Field) : Prop :=
  component.name = f.name ∧ component.descriptor = f.descriptor

theorem Descriptor.internalName?_objectType (name : String) :
    Descriptor.internalName? ("L" ++ name ++ ";") = some name := by
  have hlist : ("L" ++ name ++ ";").toList = 'L' :: (name.toList ++ [';']) := by
    simp
  simp [Descriptor.internalName?, hlist]

theorem Descriptor.internalName?_eq_some_iff {type name : String} :
    Descriptor.internalName? type = some name ↔ type = "L" ++ name ++ ";" := by
  refine ⟨fun h => ?_, fun h => h ▸ internalName?_objectType name⟩
  unfold internalName? at h
  split at h
  · rename_i rest htype
    split at h
    · rename_i hlast
      obtain rfl := Option.some.inj h
      apply String.toList_injective
      obtain ⟨front, rfl⟩ := List.getLast?_eq_some_iff.mp hlast
      simp [htype]
    · cases h
  · cases h

namespace Renaming

variable (r : Renaming)

theorem handles_apply (t : Class) : (r.apply t).handles = t.handles.map r.handle := by
  rw [Class.handles, mentions_apply, List.filterMap_map, Class.handles, List.map_filterMap]
  congr 1
  funext x
  cases x <;> rfl

/-- What becomes of the constant of an enumeration. -/
def enumConstant (constant : String × String) : String × String :=
  (r.signature constant.1,
    match Descriptor.internalName? constant.1 with
    | some owner => r.fieldName owner constant.1 constant.2
    | none => constant.2)

theorem enumConstants_apply (t : Class) :
    (r.apply t).enumConstants = t.enumConstants.map r.enumConstant := by
  rw [Class.enumConstants, mentions_apply, List.filterMap_map, Class.enumConstants,
    List.map_filterMap]
  congr 1
  funext x
  cases x <;> rfl

theorem instructionAt?_apply (t : Class) (method position : Nat) :
    (r.apply t).instructionAt? method position =
      (t.instructionAt? method position).map r.instruction := by
  have hmethods : (r.apply t).methods[method]? = t.methods[method]?.map (r.method t.name) :=
    List.getElem?_map
  rw [Class.instructionAt?, Class.instructionAt?, hmethods]
  cases t.methods[method]? with
  | none => rfl
  | some m => exact List.getElem?_map

variable {c : Class}

theorem fieldUsesFollow (hname : Descriptor.isArray c.name = false) (f : Field) (t : Class) :
    FieldUsesFollow c (r.apply c) f (r.field c.name f) t (r.apply t) where
  instruction := by
    intro method position opcode hat
    rw [instructionAt?_apply, hat]
    simp only [Option.map_some, instruction, r.classRef_of_not_isArray hname]
    rfl
  handle := by
    intro place h hat hfield howner hmember hdescriptor
    rw [handles_apply, List.getElem?_map, hat]
    simp only [Option.map_some, handle, hfield, if_true, howner, hmember, hdescriptor,
      r.classRef_of_not_isArray hname]
    rfl
  enumConstant := by
    intro place htype hat
    have howner : Descriptor.internalName? f.descriptor = some c.name := by
      rw [htype, Descriptor.internalName?_objectType]
    rw [enumConstants_apply, List.getElem?_map, hat]
    simp only [Option.map_some, enumConstant, howner]
    rfl

theorem methodUsesFollow (hname : Descriptor.isArray c.name = false) (m : Method) (t : Class) :
    MethodUsesFollow c (r.apply c) m (r.method c.name m) t (r.apply t) where
  instruction := by
    intro method position opcode isInterface hat
    rw [instructionAt?_apply, hat]
    simp only [Option.map_some, instruction, hname, Bool.false_eq_true, if_false,
      r.classRef_of_not_isArray hname]
    rfl
  handle := by
    intro place h hat hfield howner hmember hdescriptor
    rw [handles_apply, List.getElem?_map, hat]
    simp only [Option.map_some, handle, hfield, Bool.false_eq_true, if_false, howner, hmember,
      hdescriptor, r.classRef_of_not_isArray hname]
    rfl
  enclosing := by
    intro howner hmember hdescriptor
    simp only [apply, outerMethod, howner, hmember, hdescriptor, Option.map_some,
      r.classRef_of_not_isArray hname]
    exact ⟨rfl, rfl, rfl⟩

theorem standsFor_recordComponent {component : RecordComponent} {f : Field} (owner : String)
    (h : component.StandsFor f) :
    (r.recordComponent owner component).StandsFor (r.field owner f) := by
  obtain ⟨hname, hdescriptor⟩ := h
  constructor
  · simp only [recordComponent, field, hname, hdescriptor]
  · simp only [recordComponent, field, hdescriptor]

end Renaming

/-- After a pass every use of a declared member, in whatever class, names what the declaration has
become; so do the components of the declaring class that stand for a field. -/
theorem uses_follow_declarations (r : Remapper) {i k : Nat} {c t : Class}
    (hc : r.targets.classes[i]? = some c) (ht : r.targets.classes[k]? = some t)
    (hname : Descriptor.isArray c.name = false) :
    ∃ c' t', r.process.2.targets.classes[i]? = some c' ∧
      r.process.2.targets.classes[k]? = some t' ∧
      (∀ (j : Nat) (f : Field), c.fields[j]? = some f → ∃ f', c'.fields[j]? = some f' ∧
        FieldUsesFollow c c' f f' t t' ∧
        ∀ (q : Nat) (component : RecordComponent), c.recordComponents[q]? = some component →
          component.StandsFor f →
            ∃ component', c'.recordComponents[q]? = some component' ∧ component'.StandsFor f') ∧
      ∀ (j : Nat) (m : Method), c.methods[j]? = some m → ∃ m', c'.methods[j]? = some m' ∧
        MethodUsesFollow c c' m m' t t' := by
  refine ⟨r.pending.apply c, r.pending.apply t, ?_, ?_, ?_, ?_⟩
  · rw [r.classes_process, List.getElem?_map, hc, Option.map_some]
  · rw [r.classes_process, List.getElem?_map, ht, Option.map_some]
  · intro j f hf
    refine ⟨r.pending.field c.name f, ?_, r.pending.fieldUsesFollow hname f t, ?_⟩
    · simp only [Renaming.apply, List.getElem?_map, hf, Option.map_some]
    · intro q component hq hstands
      refine ⟨r.pending.recordComponent c.name component, ?_,
        r.pending.standsFor_recordComponent c.name hstands⟩
      simp only [Renaming.apply, List.getElem?_map, hq, Option.map_some]
  · intro j m hm
    refine ⟨r.pending.method c.name m, ?_, r.pending.methodUsesFollow hname m t⟩
    simp only [Renaming.apply, List.getElem?_map, hm, Option.map_some]

namespace Samples

/-- An enumeration with a constant and a method. -/
def mode : Class where
  name := "p/Mode"
  superName := some "java/lang/Enum"
  fields := [{ access := 9, name := "ON", descriptor := "Lp/Mode;" }]
  methods := [{ access := 9, name := "read", descriptor := "(I)Lp/Mode;" }]

/-- A local class of the method that loads the constant, and the method through a nested handle. -/
def modeUser : Class where
  name := "p/User"
  superName := some "java/lang/Object"
  outerClass := some "p/Mode"
  outerMethod := some "read"
  outerMethodDescriptor := some "(I)Lp/Mode;"
  methods := [{
    name := "use"
    descriptor := "()V"
    instructions := [.field 0xb2 "p/Mode" "ON" "Lp/Mode;",
      .ldc (.dynamic "k" "I" { tag := 6, owner := "p/Boot", name := "make", descriptor := "()V" }
        [.handle { tag := 6, owner := "p/Mode", name := "read", descriptor := "(I)Lp/Mode;" }])]
    annotations := [.mk "Lp/Tag;" true [("value", .enumConstant "Lp/Mode;" "ON")]] }]

/-- Both classes, about to have the enumeration and its members renamed. -/
def renameMode : Remapper :=
  { Remapper.new with
    targets := ⟨[mode, modeUser], (Table.empty.insert "p/Mode" 0).insert "p/User" 1⟩
    classes := Table.empty.insert "p/Mode" "q/State"
    fields := MemberTable.empty.insert "p/Mode" "Lp/Mode;" "ON" "ACTIVE"
    methods := MemberTable.empty.insert "p/Mode" "(I)Lp/Mode;" "read" "decode"
    stale := true }

end Samples

theorem uses_follow_declarations_renameMode :
    ∃ c' t' : Class, ∃ f' : Field, ∃ m' : Method,
      (f'.name = "ACTIVE" ∧ f'.descriptor = "Lq/State;" ∧ m'.name = "decode") ∧
      t'.instructionAt? 0 0 = some (.field 0xb2 c'.name f'.name f'.descriptor) ∧
      t'.enumConstants[0]? = some (f'.descriptor, f'.name) ∧
      t'.handles[1]? =
        some { tag := 6, owner := c'.name, name := m'.name, descriptor := m'.descriptor } ∧
      t'.outerMethod = some m'.name := by
  obtain ⟨c', t', hc', -, hfields, hmethods⟩ :=
    uses_follow_declarations (i := 0) (k := 1) Samples.renameMode rfl rfl (by decide +kernel)
  obtain ⟨f', hf', huses, -⟩ := hfields 0 _ rfl
  obtain ⟨m', hm', hcalls⟩ := hmethods 0 _ rfl
  have hfield : Samples.renameMode.process.2.targets.classes[0]?.bind (fun c =>
      c.fields[0]?.map fun f => (f.name, f.descriptor)) = some ("ACTIVE", "Lq/State;") := by
    decide +kernel
  have hmethod : Samples.renameMode.process.2.targets.classes[0]?.bind (fun c =>
      c.methods[0]?.map fun m => m.name) = some "decode" := by
    decide +kernel
  simp only [hc', Option.bind_some, hf', hm', Option.map_some, Option.some.injEq,
    Prod.mk.injEq] at hfield hmethod
  exact ⟨c', t', f', m', ⟨hfield.1, hfield.2, hmethod⟩, huses.instruction 0 0 0xb2 rfl,
    huses.enumConstant 0 rfl rfl, hcalls.handle 1 _ rfl (by decide) rfl rfl rfl,
    (hcalls.enclosing rfl rfl rfl).2.1⟩

end Classmith
