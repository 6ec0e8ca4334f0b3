import Classmith.Rename.Inherited
import Classmith.Rename.Renaming

/-!
# Remappers

A remapper collects classes and renames and applies the renames in one pass. The renames of fields as
seen through subclasses are worked out when they are first needed and again after anything they
depend on has changed.
-/
namespace Classmith

open Signature (ClassTable)

structure Remapper where
  targets : Pool
  classes : ClassTable
  fields : MemberTable
  methods : MemberTable
  /-- The field renames with those inherited, as of the last time they were worked out. -/
  inherited : MemberTable
  /-- Whether `inherited` is out of date. -/
  stale : Bool

namespace Remapper

def new : Remapper := ⟨Pool.empty, Table.empty, MemberTable.empty, MemberTable.empty,
  MemberTable.empty, false⟩

instance : Inhabited Remapper := ⟨new⟩

def addTarget (r : Remapper) (c : Class) : Except Error Remapper :=
  (r.targets.insert c).map fun targets => { r with targets, stale := true }

/-- Adds classes up to the first whose name is taken. -/
def addTargets (r : Remapper) : List Class → Except Error Unit × Remapper
  | [] => (.ok (), r)
  | c :: rest =>
    match r.addTarget c with
    | .ok r => addTargets r rest
    | .error e => (.error e, r)

def removeTarget? (r : Remapper) (name : String) : Option (Class × Remapper) :=
  (r.targets.remove? name).map fun (c, targets) => (c, { r with targets, stale := true })

def clearTargets (r : Remapper) : Remapper := { r with targets := Pool.empty, stale := true }

def renameClass (r : Remapper) (old new : String) : Remapper :=
  { r with classes := r.classes.insert old new }

def renameField (r : Remapper) (owner descriptor old new : String) : Remapper :=
  { r with fields := r.fields.insert owner descriptor old new, stale := true }

/-- Renames a method of exactly this owner, not the methods that override it. -/
def renameMethod (r : Remapper) (owner descriptor old new : String) : Except Error Remapper :=
  (r.methods.insertUnique owner descriptor old new).map fun methods => { r with methods }

def removeMethodRename (r : Remapper) (owner descriptor name : String) : Remapper :=
  { r with methods := r.methods.erase owner descriptor name }

/-- Works out the inherited field renames if they are out of date. -/
def refresh (r : Remapper) : Remapper :=
  if r.stale then
    { r with inherited := inheritedFields r.targets.classes r.fields, stale := false }
  else r

/-- The new name of a field as seen through a class. -/
def fieldName? (r : Remapper) (owner descriptor name : String) : Option String × Remapper :=
  let r := r.refresh
  (r.inherited.get? owner descriptor name, r)

def className? (r : Remapper) (name : String) : Option String := r.classes.get? name

def methodName? (r : Remapper) (owner descriptor name : String) : Option String :=
  r.methods.get? owner descriptor name

/-- Renames in every class and forgets all renames; fails if classes end up with the same name. -/
def process (r : Remapper) : Except Error Unit × Remapper :=
  let r := r.refresh
  let names : Renaming := ⟨r.classes, r.inherited, r.methods⟩
  let targets := r.targets.mapClasses names.apply
  match targets.reindex with
  | .ok targets => (.ok (), { new with targets })
  | .error e => (.error e, { new with targets })

end Remapper

end Classmith
