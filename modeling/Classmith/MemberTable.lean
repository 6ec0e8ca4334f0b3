import Classmith.Error
import Classmith.Table

/-!
# Member renames

New names of fields or methods by owner, old name and descriptor. A table has no owner without names
and no name without descriptors.
-/
namespace Classmith

/-- New names by owner, then by old name, then by descriptor. -/
structure MemberTable where
  owners : Table (Table (Table String))
deriving Inhabited

namespace MemberTable

def empty : MemberTable := ⟨Table.empty⟩

instance : EmptyCollection MemberTable := ⟨empty⟩

def get? (t : MemberTable) (owner descriptor name : String) : Option String :=
  ((t.owners.get? owner).bind fun names => names.get? name).bind fun descriptors =>
    descriptors.get? descriptor

/-- Binds a member to a new name, and gives the one it had before. -/
def replace (t : MemberTable) (owner descriptor name new : String) : Option String × MemberTable :=
  let names := (t.owners.get? owner).getD Table.empty
  let descriptors := (names.get? name).getD Table.empty
  (descriptors.get? descriptor,
    ⟨t.owners.insert owner (names.insert name (descriptors.insert descriptor new))⟩)

/-- Binds a member to a new name, in place of the one it had. -/
def insert (t : MemberTable) (owner descriptor name new : String) : MemberTable :=
  (t.replace owner descriptor name new).2

/-- Binds a member that has no other new name yet. -/
def insertUnique (t : MemberTable) (owner descriptor name new : String) :
    Except Error MemberTable :=
  match t.get? owner descriptor name with
  | some existing =>
    if existing = new then .ok t else .error (.conflict owner descriptor name existing new)
  | none => .ok (t.insert owner descriptor name new)

/-- Unbinds a member and drops what becomes empty, and gives the new name it had. -/
def remove (t : MemberTable) (owner descriptor name : String) : Option String × MemberTable :=
  match t.owners.get? owner with
  | none => (none, t)
  | some names =>
    match names.get? name with
    | none => (none, t)
    | some descriptors =>
      let rest := descriptors.erase descriptor
      let names := if rest.isEmpty then names.erase name else names.insert name rest
      (descriptors.get? descriptor,
        ⟨if names.isEmpty then t.owners.erase owner else t.owners.insert owner names⟩)

def erase (t : MemberTable) (owner descriptor name : String) : MemberTable :=
  (t.remove owner descriptor name).2

def isEmpty (t : MemberTable) : Bool := t.owners.isEmpty

/-- A rename of a member. -/
structure Entry where
  owner : String
  descriptor : String
  name : String
  new : String
deriving DecidableEq, Repr

/-- The renames in ascending order of owner, name and descriptor. -/
def toList (t : MemberTable) : List Entry :=
  t.owners.toList.flatMap fun (owner, names) =>
    names.toList.flatMap fun (name, descriptors) =>
      descriptors.toList.map fun (descriptor, new) => ⟨owner, descriptor, name, new⟩

def size (t : MemberTable) : Nat := t.toList.length

end MemberTable

end Classmith
