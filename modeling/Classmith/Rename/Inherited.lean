import Classmith.Hierarchy.Subclasses
import Classmith.MemberTable

/-!
# Inherited field renames

A renamed field is renamed in every subclass that can see it: a public or protected field in all
subclasses, a package-visible one in the subclasses of its package, a private one in none. A rename
that a subclass has itself wins.
-/
namespace Classmith

/-- Whether a field of a class can be seen from a subclass. -/
def Field.visibleFrom (f : Field) (owner child : String) : Bool :=
  !Access.isPrivate f.access &&
    (Access.isPublic f.access || Access.isProtected f.access ||
      Name.package child = Name.package owner)

/-- Adds the rename of a field for the subclasses that see it. -/
def inheritField (index : Table NameSet) (owner : String) (f : Field) (new : String)
    (table : MemberTable) : MemberTable :=
  (descendants index owner).toNames.foldl (fun table child =>
    if f.visibleFrom owner child then table.insert child f.descriptor f.name new else table) table

/-- The renames of fields as seen through every class. -/
def inheritedFields (classes : List Class) (renames : MemberTable) : MemberTable :=
  let index := subclassIndex classes
  let inherited := classes.foldl (fun table c =>
    c.fields.foldl (fun table f =>
      match renames.get? c.name f.descriptor f.name with
      | some new => inheritField index c.name f new table
      | none => table) table) MemberTable.empty
  renames.toList.foldl (fun table e => table.insert e.owner e.descriptor e.name e.new) inherited

end Classmith
