import Classmith.Json.Basic

/-!
# Decoding JSON

Decoders turn trees into values and visit a tree in the order of its text, so that of several defects
the first one is reported. A value that does not fit is reported with its place; where the text itself
is defective there is no place.
-/
namespace Classmith.Json

/-- A step from a value to a part of it. -/
inductive Segment where
  | key (name : String)
  | index (i : Nat)
deriving DecidableEq, Repr

/-- A place in a tree, outermost step first. -/
abbrev Path := List Segment

namespace Path

def textFrom (separator : String) : Path → String
  | [] => ""
  | .key name :: rest => separator ++ name ++ textFrom "." rest
  | .index i :: rest => s!"[{i}]" ++ textFrom "." rest

/-- The place in words: the top level is a single point. -/
def text (p : Path) : String := if p.isEmpty then "." else textFrom "" p

end Path

inductive DecodeError where
  /-- The text is no JSON, or none that can be read. -/
  | malformed
  /-- The value at this place is not of the expected form. -/
  | mismatch (path : Path)
deriving DecidableEq, Repr

abbrev Decoder (α : Type) := Json → Except DecodeError α

variable {α β : Type}

/-- Reports an error from the value that has the part. -/
def within (segment : Segment) : Except DecodeError α → Except DecodeError α
  | .ok a => .ok a
  | .error .malformed => .error .malformed
  | .error (.mismatch path) => .error (.mismatch (segment :: path))

/-- The error for a value of another form; an unreadable value is not even that. -/
def reject : Json → DecodeError
  | .cut => .malformed
  | .unreadable => .malformed
  | .number n => if n.double?.isSome then .mismatch [] else .malformed
  | _ => .mismatch []

namespace Decoder

def map (f : α → β) (d : Decoder α) : Decoder β := fun j => (d j).map f

def text : Decoder String
  | .string s => .ok s
  | j => .error (reject j)

def flag : Decoder Bool
  | .bool b => .ok b
  | j => .error (reject j)

/-- An integer within bounds. -/
def integer (low high : Int) : Decoder Int
  | .number n =>
    match n.word? with
    | some i => if low ≤ i ∧ i ≤ high then .ok i else .error (.mismatch [])
    | none => .error (reject (.number n))
  | j => .error (reject j)

def uint8 : Decoder UInt8 := (integer 0 0xFF).map fun i => .ofNat i.toNat

def uint16 : Decoder UInt16 := (integer 0 0xFFFF).map fun i => .ofNat i.toNat

def uint32 : Decoder UInt32 := (integer 0 0xFFFFFFFF).map fun i => .ofNat i.toNat

def uint64 : Decoder UInt64 := (integer 0 0xFFFFFFFFFFFFFFFF).map fun i => .ofNat i.toNat

def int8 : Decoder Int8 := (integer (-0x80) 0x7F).map .ofInt

def int16 : Decoder Int16 := (integer (-0x8000) 0x7FFF).map .ofInt

def int32 : Decoder Int32 := (integer (-0x80000000) 0x7FFFFFFF).map .ofInt

def int64 : Decoder Int64 := (integer (-0x8000000000000000) 0x7FFFFFFFFFFFFFFF).map .ofInt

def single : Decoder Number.Single
  | .number n =>
    match n.single? with
    | some x => .ok x
    | none => .error .malformed
  | j => .error (reject j)

def double : Decoder Number.Double
  | .number n =>
    match n.double? with
    | some x => .ok x
    | none => .error .malformed
  | j => .error (reject j)

/-- A value, or `null` for none. -/
def option (d : Decoder α) : Decoder (Option α)
  | .null => .ok none
  | j => (d j).map some

/-- Decodes items from an index on. -/
def items (d : Decoder α) : (index : Nat) → List Json → Except DecodeError (List α)
  | _, [] => .ok []
  | index, item :: rest => do
    let a ← within (.index index) (d item)
    let more ← items d (index + 1) rest
    return a :: more

def list (d : Decoder α) : Decoder (List α)
  | .array all => items d 0 all
  | .deep (.array _) => .error .malformed
  | j => .error (reject j)

/-- A field of a record: what its value does to the record read so far. -/
structure Entry (α : Type) where
  name : String
  required : Bool
  read : Json → Except DecodeError (α → α)

/-- A field that has to be there. -/
def required (name : String) (d : Decoder β) (set : β → α → α) : Entry α :=
  ⟨name, true, d.map set⟩

/-- A field that may be left out. -/
def defaulted (name : String) (d : Decoder β) (set : β → α → α) : Entry α :=
  ⟨name, false, d.map set⟩

/-- Reads members in order. A field may be given once; other members are passed over. -/
def members (entries : List (Entry α)) (seen : List String) :
    List (Option String × Json) → α → Except DecodeError α
  | [], a =>
    if entries.any fun e => e.required && !seen.contains e.name then .error (.mismatch []) else .ok a
  | (none, _) :: _, _ => .error .malformed
  | (some key, value) :: rest, a =>
    match entries.find? fun e => e.name = key with
    | none => if value.complete then members entries seen rest a else .error .malformed
    | some e =>
      if seen.contains key then .error (.mismatch [])
      else do
        let set ← within (.key key) (e.read value)
        members entries (key :: seen) rest (set a)

/-- Reads the fields of a record written as an array, in the order of their declaration. -/
def positional (index : Nat) : List (Entry α) → List Json → α → Except DecodeError α
  | entries, [], a => if entries.any Entry.required then .error (.mismatch []) else .ok a
  | [], _ :: _, _ => .error .malformed
  | e :: entries, item :: rest, a => do
    let set ← within (.index index) (e.read item)
    positional (index + 1) entries rest (set a)

/-- A record as an object or as an array of its fields; `start` has the values of fields left out. -/
def record (entries : List (Entry α)) (start : α) : Decoder α
  | .object all => members entries [] all start
  | .array all => positional 0 entries all start
  | .deep _ => .error .malformed
  | j => .error (reject j)

/-- A choice written as an object with one member, named for the case. -/
def variant (cases : List (String × Decoder α)) : Decoder α
  | .object [] => .error .malformed
  | .object ((none, _) :: _) => .error .malformed
  | .object ((some name, value) :: rest) =>
    match cases.lookup name with
    | none => .error (.mismatch [])
    | some d => do
      let a ← within (.key name) (d value)
      if rest.isEmpty then return a else .error .malformed
  | .string name =>
    match cases.lookup name with
    | none => .error (.mismatch [])
    | some _ => .error (.mismatch [.key name])
  | _ => .error .malformed

end Decoder

end Classmith.Json
