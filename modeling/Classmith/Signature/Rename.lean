import Classmith.Descriptor
import Classmith.Name
import Classmith.Signature.Parser
import Classmith.Table

/-!
# Renaming classes in signatures

A table of class renames acts on the syntax tree of a signature: the outermost name of a class type
is looked up as it is, a member class by the binary name that its outer classes give it. A text that
is no signature is left as it is.
-/
namespace Classmith.Signature

/-- New names of classes by their old names. -/
abbrev ClassTable := Table String

/-- The simple name of a member class inside its outer class, if its binary name shows it. -/
def memberName? (outer binary : String) : Option String :=
  match Text.dropHead? outer.toList binary.toList with
  | some ('$' :: rest) => some (String.ofList rest)
  | _ => none

/-- The binary name of a member class after renaming: its own new name, or its old simple name
inside the new name of its outer class. -/
def newBinary (classes : ClassTable) (oldOuter newOuter name : String) : String :=
  (classes.get? (Name.nested oldOuter name)).getD (Name.nested newOuter name)

/-- The simple name to be written for a member class; a new name outside the new outer class cannot
be written, and the old one is kept. -/
def newMember (classes : ClassTable) (oldOuter newOuter name : String) : String :=
  (memberName? newOuter (newBinary classes oldOuter newOuter name)).getD name

mutual

def TypeSig.rename (classes : ClassTable) : TypeSig → TypeSig
  | .base letter => .base letter
  | .typeVar name => .typeVar name
  | .array element => .array (element.rename classes)
  | .object name arguments members =>
    let new := (classes.get? name).getD name
    .object new (arguments.rename classes) (members.rename classes name new)

def Arguments.rename (classes : ClassTable) : Arguments → Arguments
  | .absent => .absent
  | .given list => .given (list.rename classes)

def ArgumentList.rename (classes : ClassTable) : ArgumentList → ArgumentList
  | .nil => .nil
  | .any rest => .any (rest.rename classes)
  | .type bound type rest => .type bound (type.rename classes) (rest.rename classes)

/-- Renames members inside the outer class with the given old and new binary names. -/
def Members.rename (classes : ClassTable) (oldOuter newOuter : String) : Members → Members
  | .nil => .nil
  | .cons name arguments rest =>
    .cons (newMember classes oldOuter newOuter name) (arguments.rename classes)
      (rest.rename classes (Name.nested oldOuter name) (newBinary classes oldOuter newOuter name))

end

mutual

/-- Whether renaming meets a name of the table or writes another simple name. -/
def TypeSig.touched (classes : ClassTable) : TypeSig → Bool
  | .base _ => false
  | .typeVar _ => false
  | .array element => element.touched classes
  | .object name arguments members =>
    classes.contains name || arguments.touched classes ||
      members.touched classes name ((classes.get? name).getD name)

def Arguments.touched (classes : ClassTable) : Arguments → Bool
  | .absent => false
  | .given list => list.touched classes

def ArgumentList.touched (classes : ClassTable) : ArgumentList → Bool
  | .nil => false
  | .any rest => rest.touched classes
  | .type _ type rest => type.touched classes || rest.touched classes

def Members.touched (classes : ClassTable) (oldOuter newOuter : String) : Members → Bool
  | .nil => false
  | .cons name arguments rest =>
    newMember classes oldOuter newOuter name ≠ name || arguments.touched classes ||
      rest.touched classes (Name.nested oldOuter name) (newBinary classes oldOuter newOuter name)

end

namespace Tree

def rename (classes : ClassTable) (t : Tree) : Tree where
  formals := t.formals.map fun formals => formals.map fun f =>
    { f with
      classBound := f.classBound.map (TypeSig.rename classes)
      interfaceBounds := f.interfaceBounds.map (TypeSig.rename classes) }
  items := t.items.map fun
    | .mark c => .mark c
    | .type type => .type (type.rename classes)

def touched (classes : ClassTable) (t : Tree) : Bool :=
  (t.formals.getD []).any (fun f =>
    f.classBound.any (TypeSig.touched classes) || f.interfaceBounds.any (TypeSig.touched classes)) ||
  t.items.any fun
    | .mark _ => false
    | .type type => type.touched classes

end Tree

/-- A text after renaming, and whether renaming touched it. -/
structure Renamed where
  text : String
  changed : Bool
deriving DecidableEq, Repr

/-- Renames the classes in a descriptor or signature. -/
def renameClasses (classes : ClassTable) (signature : String) : Renamed :=
  if classes.isEmpty then ⟨signature, false⟩
  else
    match parse? signature.toList with
    | none => ⟨signature, false⟩
    | some tree =>
      if tree.touched classes then ⟨String.ofList (tree.rename classes).print, true⟩
      else ⟨signature, false⟩

/-- Renames a class name, or the classes in an array type standing in for one. -/
def renameName (classes : ClassTable) (name : String) : Renamed :=
  if Descriptor.isArray name then renameClasses classes name
  else
    match classes.get? name with
    | some new => ⟨new, true⟩
    | none => ⟨name, false⟩

end Classmith.Signature
