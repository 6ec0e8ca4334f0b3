import Classmith.Signature.Basic
import Classmith.Text.Cut

/-!
# Reading signatures

A recursive descent over the characters with one character of look-ahead. Every recursive call is
made with less fuel and, except where a list starts with its first element, on less text, so the
length of the text bounds the fuel that is needed.
-/
namespace Classmith.Signature

open Text

/-- The characters that end a class name. -/
def endsName (c : Char) : Bool := c = '<' || c = '.' || c = ';'

/-- A name up to a character that ends it. -/
def name? : List Char → Option (List Char × List Char)
  | [] => none
  | c :: rest =>
    if endsName c then some ([], c :: rest)
    else (name? rest).map fun (name, after) => (c :: name, after)

mutual

def type? : (fuel : Nat) → List Char → Option (TypeSig × List Char)
  | 0, _ => none
  | _ + 1, [] => none
  | fuel + 1, 'L' :: s => do
    let (name, s) ← name? s
    let (arguments, s) ← match s with
      | '<' :: s => (argumentList? fuel s).map fun (list, s) => (Arguments.given list, s)
      | s => some (.absent, s)
    let (members, s) ← members? fuel s
    match s with
    | ';' :: s => some (.object (String.ofList name) arguments members, s)
    | _ => none
  | _ + 1, 'T' :: s => (cutFirst? ';' s).map fun (name, s) => (.typeVar (String.ofList name), s)
  | fuel + 1, '[' :: s => (type? fuel s).map fun (element, s) => (.array element, s)
  | _ + 1, c :: s => if isBase c then some (.base c, s) else none

/-- The arguments after `<`, up to and including `>`. -/
def argumentList? : (fuel : Nat) → List Char → Option (ArgumentList × List Char)
  | 0, _ => none
  | _ + 1, '>' :: s => some (.nil, s)
  | fuel + 1, '*' :: s => (argumentList? fuel s).map fun (rest, s) => (.any rest, s)
  | fuel + 1, s => do
    let (bound, s) := match s with
      | '+' :: s => (some '+', s)
      | '-' :: s => (some '-', s)
      | s => (none, s)
    let (type, s) ← type? fuel s
    let (rest, s) ← argumentList? fuel s
    return (.type bound type rest, s)

/-- The member classes after a class name and its arguments. -/
def members? : (fuel : Nat) → List Char → Option (Members × List Char)
  | 0, _ => none
  | fuel + 1, '.' :: s => do
    let (name, s) ← name? s
    let (arguments, s) ← match s with
      | '<' :: s => (argumentList? fuel s).map fun (list, s) => (Arguments.given list, s)
      | s => some (.absent, s)
    let (rest, s) ← members? fuel s
    return (.cons (String.ofList name) arguments rest, s)
  | _ + 1, s => some (.nil, s)

end

/-- The interface bounds of a formal parameter. -/
def bounds? : (fuel : Nat) → List Char → Option (List TypeSig × List Char)
  | 0, _ => none
  | fuel + 1, ':' :: s => do
    let (type, s) ← type? fuel s
    let (rest, s) ← bounds? fuel s
    return (type :: rest, s)
  | _ + 1, s => some ([], s)

/-- Whether a class bound starts here: not every type can be one. -/
def startsBound : List Char → Bool
  | 'L' :: _ => true
  | 'T' :: _ => true
  | '[' :: _ => true
  | _ => false

/-- The formal parameters after `<`, up to and including `>`. -/
def formals? : (fuel : Nat) → List Char → Option (List Formal × List Char)
  | 0, _ => none
  | _ + 1, '>' :: s => some ([], s)
  | fuel + 1, s => do
    let (name, s) ← cutFirst? ':' s
    let (classBound, s) ←
      if startsBound s then (type? fuel s).map fun (type, s) => (some type, s) else some (none, s)
    let (interfaceBounds, s) ← bounds? fuel s
    let (rest, s) ← formals? fuel s
    return (⟨String.ofList name, classBound, interfaceBounds⟩ :: rest, s)

/-- The items up to the end of the text. -/
def items? : (fuel : Nat) → List Char → Option (List Item)
  | 0, _ => none
  | _ + 1, [] => some []
  | fuel + 1, c :: s =>
    if isMark c then (items? fuel s).map fun rest => .mark c :: rest
    else do
      let (type, s) ← type? fuel (c :: s)
      let rest ← items? fuel s
      return .type type :: rest

/-- The tree of a signature, if the text is one. -/
def parse? (s : List Char) : Option Tree :=
  match s with
  | '<' :: rest => do
    let (formals, rest) ← formals? (s.length + 2) rest
    let items ← items? (s.length + 2) rest
    return ⟨some formals, items⟩
  | s => (items? (s.length + 2) s).map fun items => ⟨none, items⟩

end Classmith.Signature
