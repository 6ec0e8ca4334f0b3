import Classmith.Json.Basic

/-!
# Reading JSON

The reader turns the bytes of a text into a tree and what follows it. It never fails: where the text
stops being JSON the tree has a `cut` and nothing follows.
-/
namespace Classmith.Json

open Number (Numeral)

/-- The bytes of a text still to be read. -/
abbrev Input := List UInt8

/-- Whether a byte is blank between tokens. -/
def isSpace (b : UInt8) : Bool := b = 0x20 || b = 0x0A || b = 0x09 || b = 0x0D

def skipSpace (s : Input) : Input := s.dropWhile isSpace

/-- What follows the given bytes. -/
def afterBytes? : List UInt8 → Input → Option Input
  | [], s => some s
  | _, [] => none
  | a :: word, b :: s => if a = b then afterBytes? word s else none

/-- What follows the given ASCII word. -/
def afterWord? (word : String) (s : Input) : Option Input := afterBytes? word.toUTF8.toList s

def isDigit (b : UInt8) : Bool := 0x30 ≤ b && b ≤ 0x39

/-- The digits at the start of a text, as numbers, and what follows them. -/
def digits : Input → List Nat × Input
  | [] => ([], [])
  | b :: s =>
    if isDigit b then
      let (ds, rest) := digits s
      ((b.toNat - 0x30) :: ds, rest)
    else ([], b :: s)

def ofDigits (ds : List Nat) : Nat := ds.foldl (fun n d => 10 * n + d) 0

/-- The digits of a whole part, which has no leading zero. -/
def whole? (s : Input) : Option (Nat × Input) :=
  match digits s with
  | ([], _) => none
  | (0 :: _ :: _, _) => none
  | (ds, rest) => some (ofDigits ds, rest)

/-- A point and at least one digit, or no point. -/
def fraction? : Input → Option (List Nat × Input)
  | 0x2E :: s =>
    match digits s with
    | ([], _) => none
    | (ds, rest) => some (ds, rest)
  | s => some ([], s)

/-- The digits of an exponent after its sign. -/
def exponentDigits? (negative : Bool) (s : Input) : Option (Option Int × Input) :=
  match digits s with
  | ([], _) => none
  | (ds, rest) => some (some (if negative then -(ofDigits ds : Int) else ofDigits ds), rest)

/-- An exponent, or none. -/
def exponent? : Input → Option (Option Int × Input)
  | 0x65 :: s | 0x45 :: s =>
    match s with
    | 0x2B :: s => exponentDigits? false s
    | 0x2D :: s => exponentDigits? true s
    | s => exponentDigits? false s
  | s => some (none, s)

/-- The numeral at the start of a text. -/
def numeral? (s : Input) : Option (Numeral × Input) := do
  let (negative, s) := match s with
    | 0x2D :: s => (true, s)
    | s => (false, s)
  let (whole, s) ← whole? s
  let (fraction, s) ← fraction? s
  let (exponent, s) ← exponent? s
  return (⟨negative, whole, fraction, exponent⟩, s)

/-- The value of a hexadecimal digit. -/
def hexValue? (b : UInt8) : Option Nat :=
  if 0x30 ≤ b && b ≤ 0x39 then some (b.toNat - 0x30)
  else if 0x61 ≤ b && b ≤ 0x66 then some (b.toNat - 0x61 + 10)
  else if 0x41 ≤ b && b ≤ 0x46 then some (b.toNat - 0x41 + 10)
  else none

/-- The value of four hexadecimal digits. -/
def unit? (a b c d : UInt8) : Option Nat := do
  return (((← hexValue? a) * 16 + (← hexValue? b)) * 16 + (← hexValue? c)) * 16 + (← hexValue? d)

/-- The character that a short escape stands for. -/
def shortEscape? (b : UInt8) : Option UInt8 :=
  if b = 0x22 then some 0x22
  else if b = 0x5C then some 0x5C
  else if b = 0x2F then some 0x2F
  else if b = 0x62 then some 0x08
  else if b = 0x66 then some 0x0C
  else if b = 0x6E then some 0x0A
  else if b = 0x72 then some 0x0D
  else if b = 0x74 then some 0x09
  else none

/-- The text of a string token as far as it has been read: its bytes, none once it has a surrogate
without its other half, and the first half of a pair that waits for the second. -/
structure Spelling where
  bytes : Option ByteArray
  pending : Option Nat

namespace Spelling

def start : Spelling := ⟨some ByteArray.empty, none⟩

/-- A character other than half of a pair. -/
def plain (s : Spelling) (bs : List UInt8) : Spelling :=
  match s.pending with
  | some _ => ⟨none, none⟩
  | none => ⟨s.bytes.map fun bytes => bs.foldl ByteArray.push bytes, none⟩

def utf8 (n : Nat) : List UInt8 := (String.singleton (Char.ofNat n)).toUTF8.toList

/-- A 16-bit unit. -/
def unit (s : Spelling) (n : Nat) : Spelling :=
  if 0xD800 ≤ n ∧ n < 0xDC00 then
    match s.pending with
    | some _ => ⟨none, none⟩
    | none => ⟨s.bytes, some n⟩
  else if 0xDC00 ≤ n ∧ n < 0xE000 then
    match s.pending with
    | some high =>
      plain ⟨s.bytes, none⟩ (utf8 (0x10000 + (high - 0xD800) * 0x400 + (n - 0xDC00)))
    | none => ⟨none, none⟩
  else s.plain (utf8 n)

/-- The text, if the bytes spell one. -/
def finish (s : Spelling) : Option String :=
  match s.pending, s.bytes with
  | none, some bytes => String.fromUTF8? bytes
  | _, _ => none

end Spelling

/-- The rest of a string token after its opening quote: its text, if it spells one, and what follows
the token. None if the token does not end or has a control character or an unknown escape. -/
def stringFrom? (acc : Spelling) : Input → Option (Option String × Input)
  | [] => none
  | 0x22 :: s => some (acc.finish, s)
  | 0x5C :: 0x75 :: a :: b :: c :: d :: s =>
    match unit? a b c d with
    | some n => stringFrom? (acc.unit n) s
    | none => none
  | 0x5C :: e :: s =>
    match shortEscape? e with
    | some b => stringFrom? (acc.plain [b]) s
    | none => none
  | b :: s => if b < 0x20 || b = 0x5C then none else stringFrom? (acc.plain [b]) s

/-- A value and what follows it; nothing follows a value that is cut off. -/
abbrev Reading := Json × Option Input

def broken : Reading := (.cut, none)

/-- A word that stands for a value. -/
def constant (word : String) (value : Json) (s : Input) : Reading :=
  match afterWord? word s with
  | some rest => (value, some rest)
  | none => broken

/-- Marks a container at the given level, counted from 1, if it lies below the limit. -/
def limit (max level : Nat) (j : Json) : Json := if max < level then .deep j else j

/-- A container of items, and what follows it. -/
def closeItems (max level : Nat) (items : List Json × Option Input) : Reading :=
  (limit max level (.array items.1), items.2)

def closeMembers (max level : Nat) (members : List (Option String × Json) × Option Input) : Reading :=
  (limit max level (.object members.1), members.2)

mutual

/-- The value at the start of a text, inside `level` containers. -/
def value (max : Nat) : (fuel level : Nat) → Input → Reading
  | 0, _, _ => broken
  | fuel + 1, level, s =>
    match skipSpace s with
    | 0x6E :: s => constant "ull" .null s
    | 0x74 :: s => constant "rue" (.bool true) s
    | 0x66 :: s => constant "alse" (.bool false) s
    | 0x22 :: s =>
      match stringFrom? .start s with
      | some (some text, rest) => (.string text, some rest)
      | some (none, rest) => (.unreadable, some rest)
      | none => broken
    | 0x5B :: s => closeItems max (level + 1) (items max fuel (level + 1) true s)
    | 0x7B :: s => closeMembers max (level + 1) (members max fuel (level + 1) true s)
    | s =>
      match numeral? s with
      | some (n, rest) => (.number n, some rest)
      | none => broken

/-- The items of an array, up to and including its closing bracket. -/
def items (max : Nat) : (fuel level : Nat) → (first : Bool) → Input → List Json × Option Input
  | 0, _, _, _ => ([.cut], none)
  | fuel + 1, level, first, s =>
    match skipSpace s with
    | [] => ([.cut], none)
    | 0x5D :: rest => ([], some rest)
    | b :: rest =>
      if !first && b ≠ 0x2C then ([.cut], none)
      else
        let (item, next) := value max fuel level (if first then b :: rest else rest)
        match next with
        | none => ([item], none)
        | some next =>
          let (more, last) := items max fuel level false next
          (item :: more, last)

/-- The members of an object, up to and including its closing brace. -/
def members (max : Nat) : (fuel level : Nat) → (first : Bool) → Input →
    List (Option String × Json) × Option Input
  | 0, _, _, _ => ([(none, .cut)], none)
  | fuel + 1, level, first, s =>
    match skipSpace s with
    | [] => ([(none, .cut)], none)
    | 0x7D :: rest => ([], some rest)
    | b :: rest =>
      if !first && b ≠ 0x2C then ([(none, .cut)], none)
      else
        match skipSpace (if first then b :: rest else rest) with
        | 0x22 :: s =>
          match stringFrom? .start s with
          | none => ([(none, .cut)], none)
          | some (key, s) =>
            match skipSpace s with
            | 0x3A :: s =>
              let (item, next) := value max fuel level s
              match next with
              | none => ([(key, item)], none)
              | some next =>
                let (more, last) := members max fuel level false next
                ((key, item) :: more, last)
            | _ => ([(key, .cut)], none)
        | _ => ([(none, .cut)], none)

end

/-- The value that the bytes start with; containers nested deeper than `max` are marked. -/
def read (max : Nat) (bytes : ByteArray) : Json :=
  (value max (2 * bytes.size + 2) 0 bytes.toList).1

end Classmith.Json
