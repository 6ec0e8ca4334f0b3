import Classmith.Json.Basic

/-!
# Writing JSON

Two spellings of a tree: on one line without blanks, and indented by two blanks a level.
-/
namespace Classmith.Json

/-- The hexadecimal digit of a number below sixteen. -/
def hexDigit (n : Nat) : Char := Nat.digitChar n

/-- A character of a string: only the quote, the backslash and control characters are escaped. -/
def escapeChar (c : Char) : List Char :=
  if c = '"' then ['\\', '"']
  else if c = '\\' then ['\\', '\\']
  else if c.toNat = 0x08 then ['\\', 'b']
  else if c = '\t' then ['\\', 't']
  else if c = '\n' then ['\\', 'n']
  else if c.toNat = 0x0C then ['\\', 'f']
  else if c = '\r' then ['\\', 'r']
  else if c.toNat < 0x20 then
    ['\\', 'u', '0', '0', hexDigit (c.toNat / 16), hexDigit (c.toNat % 16)]
  else [c]

def quote (s : String) : String := "\"" ++ String.ofList (s.toList.flatMap escapeChar) ++ "\""

/-- A value that is neither array nor object; a defect is written as `null`. -/
def scalar : Json → String
  | .bool true => "true"
  | .bool false => "false"
  | .number n => n.text
  | .string s => quote s
  | _ => "null"

mutual

/-- Appends the value, on one line, to a text. -/
def appendCompact (out : String) : Json → String
  | .object members => appendMembers (out ++ "\x7b") true members ++ "\x7d"
  | .array items => appendItems (out ++ "[") true items ++ "]"
  | other => out ++ scalar other

def appendMembers (out : String) (first : Bool) : List (Option String × Json) → String
  | [] => out
  | (key, value) :: rest =>
    let out := out ++ (if first then "" else ",") ++ quote (key.getD "") ++ ":"
    appendMembers (appendCompact out value) false rest

def appendItems (out : String) (first : Bool) : List Json → String
  | [] => out
  | item :: rest =>
    appendItems (appendCompact (out ++ (if first then "" else ",")) item) false rest

end

/-- The value on one line. -/
def compact (j : Json) : String := appendCompact "" j

/-- A line break and the indentation of a level. -/
def newline (level : Nat) : String := String.ofList ('\n' :: List.replicate (2 * level) ' ')

mutual

/-- Appends the value, over several lines, to a text; an empty container stays on its line. -/
def appendPretty (out : String) (level : Nat) : Json → String
  | .object [] => out ++ "\x7b\x7d"
  | .object (m :: members) =>
    appendPrettyMembers (out ++ "\x7b") (level + 1) true (m :: members) ++ newline level ++ "\x7d"
  | .array [] => out ++ "[]"
  | .array (i :: items) =>
    appendPrettyItems (out ++ "[") (level + 1) true (i :: items) ++ newline level ++ "]"
  | other => out ++ scalar other

def appendPrettyMembers (out : String) (level : Nat) (first : Bool) :
    List (Option String × Json) → String
  | [] => out
  | (key, value) :: rest =>
    let out := out ++ (if first then "" else ",") ++ newline level ++ quote (key.getD "") ++ ": "
    appendPrettyMembers (appendPretty out level value) level false rest

def appendPrettyItems (out : String) (level : Nat) (first : Bool) : List Json → String
  | [] => out
  | item :: rest =>
    let out := out ++ (if first then "" else ",") ++ newline level
    appendPrettyItems (appendPretty out level item) level false rest

end

/-- The value over several lines, from the left margin. -/
def pretty (j : Json) : String := appendPretty "" 0 j

end Classmith.Json
