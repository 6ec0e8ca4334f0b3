import Classmith.Proofs.Hierarchy.Subclasses
import Classmith.Rename.Inherited

/-!
# Inherited field renames

What the table of inherited renames answers: a rename that a class has itself is kept, any other comes
from a field of a class above it, and no field that can be seen is left out.
-/
namespace Classmith

open MemberTable (Entry put)

/-- A class above the given one declares the field, has it renamed and lets the class see it. -/
structure Inherits (classes : List Class) (renames : MemberTable) (o d n new : String)
    (c : Class) (f : Field) : Prop where
  declares : c ∈ classes
  field : f ∈ c.fields
  descriptor : f.descriptor = d
  name : f.name = n
  renamed : renames.get? c.name d n = some new
  other : o ≠ c.name
  below : Descends classes c.name o
  visible : f.visibleFrom c.name o = true

/-- The renames that the rename of one field gives to the subclasses that see it. -/
def heirs (index : Table NameSet) (owner : String) (f : Field) (new : String) : List Entry :=
  ((descendants index owner).toNames.filter (f.visibleFrom owner)).map fun child =>
    ⟨child, f.descriptor, f.name, new⟩

/-- The inherited renames in the order in which they are found. -/
def inheritedEntries (classes : List Class) (renames : MemberTable) : List Entry :=
  classes.flatMap fun c => c.fields.flatMap fun f =>
    match renames.get? c.name f.descriptor f.name with
    | some new => heirs (subclassIndex classes) c.name f new
    | none => []

theorem inheritField_eq (index : Table NameSet) (owner : String) (f : Field) (new : String)
    (table : MemberTable) :
    inheritField index owner f new table = (heirs index owner f new).foldl put table := by
  rw [heirs, List.foldl_map, List.foldl_filter]
  rfl

theorem inheritedFields_eq (classes : List Class) (renames : MemberTable) :
    inheritedFields classes renames =
      renames.toList.foldl put ((inheritedEntries classes renames).foldl put MemberTable.empty) := by
  simp only [inheritedFields, inheritedEntries, List.foldl_flatMap]
  change List.foldl put _ _ = _
  congr 2
  funext table c
  congr 1
  funext table f
  cases renames.get? c.name f.descriptor f.name with
  | none => rfl
  | some new => exact inheritField_eq _ _ _ _ _

/-- The inherited renames that the fields of one class give. -/
def bequests (index : Table NameSet) (renames : MemberTable) (c : Class) : List Entry :=
  c.fields.flatMap fun f =>
    (renames.get? c.name f.descriptor f.name).elim [] (heirs index c.name f)

theorem inheritedEntries_eq (classes : List Class) (renames : MemberTable) :
    inheritedEntries classes renames = classes.flatMap (bequests (subclassIndex classes) renames) := by
  unfold inheritedEntries
  congr 1
  funext c
  congr 1
  funext f
  cases renames.get? c.name f.descriptor f.name <;> rfl

theorem mem_bequests {classes : List Class} {renames : MemberTable} {o d n new : String} {c : Class}
    (hc : c ∈ classes) : ⟨o, d, n, new⟩ ∈ bequests (subclassIndex classes) renames c ↔
      ∃ f, Inherits classes renames o d n new c f := by
  unfold bequests
  rw [List.mem_flatMap]
  constructor
  · rintro ⟨f, hf, h⟩
    cases hget : renames.get? c.name f.descriptor f.name with
    | none => simp [hget] at h
    | some value =>
      simp only [hget, Option.elim_some, heirs, List.mem_map, List.mem_filter, Entry.mk.injEq] at h
      obtain ⟨child, ⟨hchild, hvisible⟩, rfl, rfl, rfl, rfl⟩ := h
      obtain ⟨hother, hbelow⟩ := (mem_descendants classes c.name child).mp hchild
      exact ⟨f, hc, hf, rfl, rfl, hget, hother, hbelow, hvisible⟩
  · rintro ⟨f, -, hf, rfl, rfl, hget, hother, hbelow, hvisible⟩
    have hchild := (mem_descendants classes c.name o).mpr ⟨hother, hbelow⟩
    refine ⟨f, hf, ?_⟩
    simp only [hget, Option.elim_some, heirs, List.mem_map, List.mem_filter]
    exact ⟨o, ⟨hchild, hvisible⟩, rfl⟩

theorem mem_inheritedEntries {classes : List Class} {renames : MemberTable} {o d n new : String} :
    ⟨o, d, n, new⟩ ∈ inheritedEntries classes renames ↔
      ∃ c f, Inherits classes renames o d n new c f := by
  rw [inheritedEntries_eq, List.mem_flatMap]
  constructor
  · rintro ⟨c, hc, h⟩
    exact ⟨c, (mem_bequests hc).mp h⟩
  · rintro ⟨c, f, h⟩
    exact ⟨c, h.declares, (mem_bequests h.declares).mpr ⟨f, h⟩⟩

section Lookups

variable {classes : List Class} {renames : MemberTable} {o d n new : String}

/-- A rename that a class has itself wins. -/
theorem get?_inheritedFields_of_own (h : renames.get? o d n = some new) :
    (inheritedFields classes renames).get? o d n = some new := by
  rw [inheritedFields_eq]
  apply MemberTable.get?_foldl_put_of_mem
  · exact renames.mem_toList.mpr h
  · intro other hother
    rw [renames.mem_toList, h] at hother
    exact (Option.some.inj hother).symm

theorem own_or_inherits_of_get? (h : (inheritedFields classes renames).get? o d n = some new) :
    renames.get? o d n = some new ∨ ∃ c f, Inherits classes renames o d n new c f := by
  rw [inheritedFields_eq] at h
  rcases MemberTable.get?_foldl_put_eq_some h with hown | h
  · exact Or.inl (renames.mem_toList.mp hown)
  · rcases MemberTable.get?_foldl_put_eq_some h with hinherited | hempty
    · exact Or.inr (mem_inheritedEntries.mp hinherited)
    · simp at hempty

theorem isSome_get?_inheritedFields {c : Class} {f : Field}
    (h : Inherits classes renames o d n new c f) :
    ((inheritedFields classes renames).get? o d n).isSome := by
  rw [inheritedFields_eq]
  apply MemberTable.isSome_get?_foldl_put
  apply Or.inr
  apply MemberTable.isSome_get?_foldl_put
  exact Or.inl ⟨new, mem_inheritedEntries.mpr ⟨c, f, h⟩⟩

end Lookups

end Classmith
