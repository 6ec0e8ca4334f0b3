import Classmith.ClassFile.Basic
import Classmith.Error
import Classmith.Table

/-!
# Class pools

The registered classes in the order of their registration, with an index of their names. Classes may
be changed in place; the index follows only when it is rebuilt.
-/
namespace Classmith

structure Pool where
  classes : List Class
  /-- The position of a class by the name it was registered or indexed under. -/
  index : Table Nat
deriving Inhabited

namespace Pool

def empty : Pool := ⟨[], Table.empty⟩

/-- Indexes classes from a position on; the second part lists the names met again. -/
def positions : List Class → Nat → Table Nat → Table Nat × List String
  | [], _, index => (index, [])
  | c :: rest, position, index =>
    let (result, repeated) := positions rest (position + 1) (index.insert c.name position)
    (result, if index.contains c.name then c.name :: repeated else repeated)

/-- Rebuilds the index; fails if classes share a name. -/
def reindex (p : Pool) : Except Error Pool :=
  match positions p.classes 0 Table.empty with
  | (index, []) => .ok { p with index }
  | (_, repeated) => .error (.duplicate (NameSet.ofNames repeated).toNames)

/-- The pool of a list of classes with distinct names. -/
def ofClasses (classes : List Class) : Except Error Pool := reindex ⟨classes, Table.empty⟩

def get? (p : Pool) (name : String) : Option Class :=
  (p.index.get? name).bind fun position => p.classes[position]?

def contains (p : Pool) (name : String) : Bool := p.index.contains name

/-- Registers a class under a name that is not taken. -/
def insert (p : Pool) (c : Class) : Except Error Pool :=
  if p.index.contains c.name then .error (.duplicate [c.name])
  else .ok ⟨p.classes ++ [c], p.index.insert c.name p.classes.length⟩

/-- Takes out the class that the index has under a name. -/
def remove? (p : Pool) (name : String) : Option (Class × Pool) := do
  let position ← p.index.get? name
  let c ← p.classes[position]?
  return (c, {
    classes := p.classes.eraseIdx position
    index := (p.index.erase name).map fun i => if position < i then i - 1 else i })

/-- Changes every class in place. -/
def mapClasses (p : Pool) (f : Class → Class) : Pool := { p with classes := p.classes.map f }

/-- Renames the class at a position in place. -/
def renameAt? (p : Pool) (position : Nat) (name : String) : Option Pool :=
  if position < p.classes.length then
    some { p with classes := p.classes.modify position fun c => { c with name } }
  else none

def size (p : Pool) : Nat := p.classes.length

def isEmpty (p : Pool) : Bool := p.classes.isEmpty

def names (p : Pool) : List String := p.classes.map (·.name)

end Pool

end Classmith
