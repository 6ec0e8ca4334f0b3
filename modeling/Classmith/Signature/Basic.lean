/-!
# Generic signatures

The syntax tree of a descriptor or generic signature and its spelling. A signature is an optional
list of formal type parameters and a sequence of types and the marks `(`, `)` and `^`; descriptors
are signatures without type arguments.
-/
namespace Classmith.Signature

mutual

/-- A type. -/
inductive TypeSig where
  /-- A primitive type or `V`. -/
  | base (letter : Char)
  | typeVar (name : String)
  | array (element : TypeSig)
  /-- A class by its outermost name, with the member classes that follow it. -/
  | object (name : String) (arguments : Arguments) (members : Members)

/-- The type arguments of a class, if any are given. -/
inductive Arguments where
  | absent
  | given (list : ArgumentList)

inductive ArgumentList where
  | nil
  /-- The unbounded wildcard. -/
  | any (rest : ArgumentList)
  /-- A type, bounded above (`+`) or below (`-`) or neither. -/
  | type (bound : Option Char) (type : TypeSig) (rest : ArgumentList)

/-- Member classes, each by its simple name. -/
inductive Members where
  | nil
  | cons (name : String) (arguments : Arguments) (rest : Members)

end

/-- A formal type parameter with its class bound and its interface bounds. -/
structure Formal where
  name : String
  classBound : Option TypeSig
  interfaceBounds : List TypeSig

/-- A part of a signature after the formal parameters. -/
inductive Item where
  | mark (c : Char)
  | type (t : TypeSig)

/-- A whole signature. -/
structure Tree where
  formals : Option (List Formal)
  items : List Item

/-- The letters of the primitive types and of `void`. -/
def isBase (c : Char) : Bool :=
  c = 'B' || c = 'C' || c = 'D' || c = 'F' || c = 'I' || c = 'J' || c = 'S' || c = 'Z' || c = 'V'

/-- The marks between types. -/
def isMark (c : Char) : Bool := c = '(' || c = ')' || c = '^'

mutual

def TypeSig.print : TypeSig → List Char
  | .base letter => [letter]
  | .typeVar name => 'T' :: name.toList ++ [';']
  | .array element => '[' :: element.print
  | .object name arguments members =>
    'L' :: name.toList ++ arguments.print ++ members.print ++ [';']

def Arguments.print : Arguments → List Char
  | .absent => []
  | .given list => '<' :: list.print ++ ['>']

def ArgumentList.print : ArgumentList → List Char
  | .nil => []
  | .any rest => '*' :: rest.print
  | .type bound type rest => bound.toList ++ type.print ++ rest.print

def Members.print : Members → List Char
  | .nil => []
  | .cons name arguments rest => '.' :: name.toList ++ arguments.print ++ rest.print

end

def Formal.print (f : Formal) : List Char :=
  f.name.toList ++ ':' :: (f.classBound.map TypeSig.print).getD [] ++
    f.interfaceBounds.flatMap fun t => ':' :: t.print

def Item.print : Item → List Char
  | .mark c => [c]
  | .type t => t.print

/-- The spelling of a signature. -/
def Tree.print (t : Tree) : List Char :=
  (match t.formals with
    | none => []
    | some formals => '<' :: formals.flatMap Formal.print ++ ['>']) ++
  t.items.flatMap Item.print

end Classmith.Signature
