import Classmith.Number.Numeral

/-!
# JSON trees

A tree holds what a text says up to the point where it stops being JSON. Whether a defect matters
depends on whether the value it is in is read or passed over, so three kinds of defect are part of
the tree: a text that breaks off (`cut`), a string that is not Unicode (`unreadable`) and a container
that is nested too deep (`deep`).
-/
namespace Classmith

open Number (Numeral)

/-- A JSON value as read, or to be written. -/
inductive Json where
  | null
  | bool (value : Bool)
  | number (value : Numeral)
  | string (value : String)
  /-- The members in the order of the text; a key that is not Unicode is absent. -/
  | object (members : List (Option String × Json))
  | array (items : List Json)
  /-- A string token that does not spell a text. -/
  | unreadable
  /-- A container nested deeper than the limit. -/
  | deep (content : Json)
  /-- The text stops being JSON here. -/
  | cut
deriving Inhabited

namespace Json

/-- How deep arrays and objects may be nested in a value that is read. -/
def nestingLimit : Nat := 127

def int (n : Int) : Json := .number (Numeral.ofInt n)

def nat (n : Nat) : Json := .number (Numeral.ofInt n)

/-- An object with the given members. -/
def record (members : List (String × Json)) : Json :=
  .object (members.map fun (key, value) => (some key, value))

/-- The value, or `null` for an absent one. -/
def optional {α : Type} (encode : α → Json) : Option α → Json
  | none => .null
  | some a => encode a

def strings (l : List String) : Json := .array (l.map .string)

/-- The first member with the given key. -/
def member? (key : String) : Json → Option Json
  | .object members => (members.find? fun m => m.1 = some key).map (·.2)
  | _ => none

mutual

/-- Whether no part of the value is cut off. -/
def complete : Json → Bool
  | .object members => membersComplete members
  | .array items => itemsComplete items
  | .deep content => complete content
  | .cut => false
  | _ => true

def membersComplete : List (Option String × Json) → Bool
  | [] => true
  | (_, value) :: rest => complete value && membersComplete rest

def itemsComplete : List Json → Bool
  | [] => true
  | item :: rest => complete item && itemsComplete rest

end

mutual

/-- Whether the whole value can be read: nothing is cut off, unreadable, too deep or out of range. -/
def readable : Json → Bool
  | .object members => membersReadable members
  | .array items => itemsReadable items
  | .number n => n.double?.isSome
  | .unreadable => false
  | .deep _ => false
  | .cut => false
  | _ => true

def membersReadable : List (Option String × Json) → Bool
  | [] => true
  | (key, value) :: rest => key.isSome && readable value && membersReadable rest

def itemsReadable : List Json → Bool
  | [] => true
  | item :: rest => readable item && itemsReadable rest

end

end Json

end Classmith
