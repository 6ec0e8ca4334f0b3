import Classmith.Files.FileError

/-!
# Lines

A text falls into lines at line feeds. A carriage return before the line feed belongs to the line
break, and nothing follows a last line feed.
-/
namespace Classmith.Text

/-- Removes a carriage return at the end of a line; the line is given backwards. -/
def withoutReturn : List UInt8 → List UInt8
  | 0x0D :: rest => rest
  | line => line

/-- The lines of bytes; `current` is the line at hand, backwards. -/
def byteLines (current : List UInt8) : List UInt8 → List (List UInt8)
  | [] => if current.isEmpty then [] else [current.reverse]
  | b :: rest =>
    if b = 0x0A then (withoutReturn current).reverse :: byteLines [] rest
    else byteLines (b :: current) rest

/-- The text of bytes, if they are Unicode. -/
def decode (bytes : List UInt8) : Except FileError String :=
  match String.fromUTF8? ⟨bytes.toArray⟩ with
  | some s => .ok s
  | none => .error .notText

/-- The lines of a text, each by itself Unicode or not. -/
def lines (bytes : ByteArray) : List (Except FileError String) :=
  (byteLines [] bytes.toList).map decode

end Classmith.Text
