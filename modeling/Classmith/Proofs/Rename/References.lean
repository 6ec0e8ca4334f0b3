import Classmith.Proofs.Rename.Mentions
import Classmith.Proofs.Rename.Remapper

/-!
# Class references

The class names that a class mentions, in any of the ways in which it can. A renaming replaces each of
them by its new name and leaves none out, so no old name is left over after all classes have been
renamed.
-/
namespace Classmith

open Signature (ClassTable IsName NewNamesAreNames newName textNames)

/-- The classes that a name stands for: those in it if it is an array type, else itself. -/
def refNames (name : String) : List String :=
  if Descriptor.isArray name then textNames name else [name]

def Mention.classes : Mention → List String
  | .self name => [name]
  | .ofClass name => refNames name
  | .descriptor text | .signature text | .declaredField _ text _ | .declaredMethod _ text _
  | .recordComponent _ text _ | .enumConstant text _ => textNames text
  | .fieldAccess owner text _ | .methodCall owner text _ | .enclosingMethod owner text _ =>
    refNames owner ++ textNames text
  | .handle h => refNames h.owner ++ textNames h.descriptor

/-- Every class name that a class mentions. -/
def Class.references (c : Class) : List String := c.mentions.flatMap Mention.classes

/-- The new names of a table can be written wherever a class name can. -/
def NewNamesArePlain (classes : ClassTable) : Prop :=
  ∀ old new, classes.get? old = some new → IsName new ∧ Descriptor.isArray new = false

instance (name : String) : Decidable (IsName name) :=
  decidable_of_iff (name.toList.all fun c => !Signature.endsName c) (by simp [IsName])

theorem newNamesArePlain_iff (classes : ClassTable) : NewNamesArePlain classes ↔
    ∀ e ∈ classes.entries, IsName e.2 ∧ Descriptor.isArray e.2 = false := by
  simp only [NewNamesArePlain, Table.get?_eq_some_iff, Prod.forall]

instance (classes : ClassTable) : Decidable (NewNamesArePlain classes) :=
  decidable_of_iff _ (newNamesArePlain_iff classes).symm

theorem NewNamesArePlain.areNames {classes : ClassTable} (h : NewNamesArePlain classes) :
    NewNamesAreNames classes := fun old new hget => (h old new hget).1

theorem NewNamesArePlain.isArray_newName {classes : ClassTable} (h : NewNamesArePlain classes)
    {name : String} (hname : Descriptor.isArray name = false) :
    Descriptor.isArray (newName classes name) = false := by
  unfold newName
  cases hget : classes.get? name with
  | none => exact hname
  | some new => exact (h _ _ hget).2

namespace Renaming

variable (r : Renaming)

theorem isArray_signature (text : String) :
    Descriptor.isArray (r.signature text) = Descriptor.isArray text := by
  simp only [Descriptor.isArray, signature, Signature.head?_text_renameClasses]

theorem classRef_of_isArray {name : String} (h : Descriptor.isArray name = true) :
    r.classRef name = r.signature name := by
  simp [classRef, signature, Signature.renameName, h]

theorem classRef_of_not_isArray {name : String} (h : Descriptor.isArray name = false) :
    r.classRef name = newName r.classes name := by
  unfold classRef newName Signature.renameName
  simp only [h, Bool.false_eq_true, if_false]
  cases r.classes.get? name <;> rfl

theorem isArray_classRef (hplain : NewNamesArePlain r.classes) (name : String) :
    Descriptor.isArray (r.classRef name) = Descriptor.isArray name := by
  cases h : Descriptor.isArray name with
  | true => rw [r.classRef_of_isArray h, isArray_signature, h]
  | false => rw [r.classRef_of_not_isArray h, hplain.isArray_newName h]

theorem refNames_classRef (hplain : NewNamesArePlain r.classes) (name : String) :
    refNames (r.classRef name) = (refNames name).map (newName r.classes) := by
  cases h : Descriptor.isArray name with
  | true =>
    rw [r.classRef_of_isArray h]
    simp only [refNames, isArray_signature, h, if_true]
    exact Signature.textNames_renameClasses hplain.areNames name
  | false =>
    rw [r.classRef_of_not_isArray h]
    simp [refNames, h, hplain.isArray_newName h]

theorem classes_mention (hplain : NewNamesArePlain r.classes) (m : Mention) :
    (r.mention m).classes = m.classes.map (newName r.classes) := by
  have htext : ∀ text, textNames (r.signature text) = (textNames text).map (newName r.classes) :=
    Signature.textNames_renameClasses hplain.areNames
  cases m <;>
    simp only [mention, handle, Mention.classes, htext, r.refNames_classRef hplain, List.map_append,
      List.map_cons, List.map_nil]

theorem references_apply (hplain : NewNamesArePlain r.classes) (c : Class) :
    (r.apply c).references = c.references.map (newName r.classes) := by
  simp only [Class.references, mentions_apply, List.flatMap_map, List.map_flatMap,
    r.classes_mention hplain]

end Renaming

/-- No old name that is not a new name too is a new name of anything. -/
theorem newName_ne_of_contains {classes : ClassTable} {old : String}
    (hold : classes.contains old = true) (hnew : ∀ other, classes.get? other ≠ some old)
    (name : String) : newName classes name ≠ old := by
  intro heq
  unfold newName at heq
  cases hget : classes.get? name with
  | none =>
    rw [hget, Option.getD_none] at heq
    simp [Table.contains, ← heq, hget] at hold
  | some new =>
    rw [hget, Option.getD_some] at heq
    exact hnew name (by rw [hget, heq])

/-- Renaming acts on every class reference: the references of a renamed class are the new names of its
references, in the same order, whatever members are renamed; and after a pass no class mentions an old
name, unless it is a new name too. -/
theorem references_renamed (r : Remapper) (hplain : NewNamesArePlain r.classes) :
    (∀ (fields methods : MemberTable) (c : Class),
      (Renaming.apply ⟨r.classes, fields, methods⟩ c).references =
        c.references.map (newName r.classes)) ∧
    ∀ c ∈ r.process.2.targets.classes, ∀ old, r.classes.contains old = true →
      (∀ other, r.classes.get? other ≠ some old) → old ∉ c.references := by
  refine ⟨fun fields methods c => Renaming.references_apply ⟨r.classes, fields, methods⟩ hplain c, ?_⟩
  intro c hc old hold hnew hmem
  rw [r.classes_process] at hc
  obtain ⟨before, -, rfl⟩ := List.mem_map.mp hc
  rw [Renaming.references_apply r.pending hplain before] at hmem
  obtain ⟨name, -, hname⟩ := List.mem_map.mp hmem
  exact newName_ne_of_contains hold hnew name hname

namespace Samples

/-- A list node that mentions itself as a declaration, an array type and a type argument. -/
def node : Class where
  version := 61
  name := "p/Node"
  superName := some "java/lang/Object"
  signature := some "Ljava/lang/Object;Ljava/lang/Iterable<Lp/Node;>;"
  fields := [{ access := 1, name := "next", descriptor := "[Lp/Node;" }]

/-- The node, about to be moved to another package. -/
def moveNode : Remapper :=
  { Remapper.new with
    targets := ⟨[node], Table.empty.insert "p/Node" 0⟩
    classes := Table.empty.insert "p/Node" "q/Link" }

end Samples

theorem references_renamed_moveNode :
    Samples.node.references = ["p/Node", "java/lang/Object", "java/lang/Object", "java/lang/Iterable",
      "p/Node", "p/Node"] ∧
    (Renaming.apply ⟨Samples.moveNode.classes, MemberTable.empty, MemberTable.empty⟩
      Samples.node).references = ["q/Link", "java/lang/Object", "java/lang/Object",
        "java/lang/Iterable", "q/Link", "q/Link"] ∧
    ∀ c ∈ Samples.moveNode.process.2.targets.classes, "p/Node" ∉ c.references := by
  have h := references_renamed Samples.moveNode (by decide +kernel)
  refine ⟨by decide +kernel, ?_, fun c hc => h.2 c hc "p/Node" (by decide +kernel) ?_⟩
  · rw [h.1]
    decide +kernel
  · intro other
    simp only [ne_eq, Table.get?_eq_some_iff]
    simp [Samples.moveNode, Table.insert, Table.put, Table.empty]

end Classmith
