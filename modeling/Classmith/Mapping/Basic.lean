import Classmith.Rename.Remapper

/-!
# Mapping sets

A mapping set is a list of renames between two namespaces. It can be turned around, extended and
registered with a remapper.
-/
namespace Classmith

/-- A rename of a class or of a member. -/
inductive MappingRecord where
  | ofClass (old new : String)
  | ofField (owner descriptor old new : String)
  | ofMethod (owner descriptor old new : String)
deriving DecidableEq, Repr, Inhabited

/-- A record and the line it comes from, zero for one that was added later. -/
structure MappingEntry where
  line : Nat
  record : MappingRecord
deriving DecidableEq, Repr, Inhabited

structure MappingSet where
  source : String
  target : String
  entries : List MappingEntry
deriving DecidableEq, Repr, Inhabited

namespace MappingSet

def empty : MappingSet := ⟨"", "", []⟩

/-- The renames of classes; of two for one class the later one counts. -/
def classTable (m : MappingSet) : Signature.ClassTable :=
  Table.ofList <| m.entries.filterMap fun e =>
    match e.record with
    | .ofClass old new => some (old, new)
    | _ => none

/-- A record in the opposite direction; owners and descriptors are given in the new names. -/
def reverseRecord (classes : Signature.ClassTable) : MappingRecord → MappingRecord
  | .ofClass old new => .ofClass new old
  | .ofField owner descriptor old new =>
    .ofField (Signature.renameName classes owner).text (Signature.renameClasses classes descriptor).text
      new old
  | .ofMethod owner descriptor old new =>
    .ofMethod (Signature.renameName classes owner).text (Signature.renameClasses classes descriptor).text
      new old

/-- The renames from the target to the source. -/
def reversed (m : MappingSet) : MappingSet where
  source := m.target
  target := m.source
  entries := m.entries.map fun e => { e with record := reverseRecord m.classTable e.record }

/-- Adds renames of classes that were derived. -/
def extendClasses (m : MappingSet) (renames : Signature.ClassTable) : MappingSet :=
  { m with entries := m.entries ++ renames.toList.map fun (old, new) => ⟨0, .ofClass old new⟩ }

/-- The old names of renamed classes that are not known. -/
def unmatchedClasses (m : MappingSet) (known : String → Bool) : List String :=
  m.entries.filterMap fun e =>
    match e.record with
    | .ofClass old _ => if known old then none else some old
    | _ => none

/-- A record that contradicts an earlier one. -/
structure Conflict where
  line : Nat
  error : Error
deriving DecidableEq, Repr

def Conflict.context (c : Conflict) : String := s!"mapping line {c.line}"

def register (r : Remapper) : MappingRecord → Except Error Remapper
  | .ofClass old new => .ok (r.renameClass old new)
  | .ofField owner descriptor old new => .ok (r.renameField owner descriptor old new)
  | .ofMethod owner descriptor old new => r.renameMethod owner descriptor old new

def registerAll (r : Remapper) : List MappingEntry → Except Conflict Unit × Remapper
  | [] => (.ok (), r)
  | e :: rest =>
    match register r e.record with
    | .ok r => registerAll r rest
    | .error error => (.error ⟨e.line, error⟩, r)

/-- Registers the records in order, up to the first that contradicts an earlier one. -/
def apply (m : MappingSet) (r : Remapper) : Except Conflict Unit × Remapper :=
  registerAll r m.entries

end MappingSet

end Classmith
