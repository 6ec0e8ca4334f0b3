import Classmith.Mapping.Basic
import Classmith.Text.Blank
import Classmith.Text.Cut
import Classmith.Text.Lines

/-!
# The Tiny format, version 1

A header with the two namespaces, then one record a line, in columns divided by blanks. A hash sign
starts a comment, and lines without content do not count.
-/
namespace Classmith

namespace Tiny

open Text

/-- What is wrong with a record. -/
inductive RecordDefect where
  | unknownKind (kind : String)
  | wrongColumns (kind : String) (expected found : Nat)
deriving DecidableEq, Repr

def RecordDefect.message : RecordDefect → String
  | unknownKind kind => s!"unknown record kind {kind}"
  | wrongColumns kind expected found => s!"{kind} records take {expected} columns, found {found}"

/-- Why a text is no mapping set. -/
inductive ReadError where
  | unreadable (line : Nat) (cause : FileError)
  | badHeader (line : Nat) (found : String)
  | badRecord (line : Nat) (found : String) (defect : RecordDefect)
  | noHeader
deriving DecidableEq, Repr

def ReadError.message : ReadError → String
  | unreadable line cause => s!"failed to read mapping line {line}: {cause.message}"
  | badHeader line found => s!"line {line}: expected header `v1 <from> <to>`, found `{found}`"
  | badRecord line found defect => s!"line {line}: invalid record `{found}`: {defect.message}"
  | noHeader => "mapping file has no `v1` header"

/-- The columns of a line without its comment; the first part is the line without blanks at its
ends. -/
def columns (line : String) : String × List String :=
  let content := line.toList.takeWhile (· ≠ '#')
  (String.ofList (trim content), (words content).map String.ofList)

/-- The record kinds are written in any case. -/
def upper (s : String) : String := String.ofList (s.toList.map Char.toUpper)

def parseRecord : List String → Except RecordDefect MappingRecord
  | [] => .error (.unknownKind "")
  | first :: rest =>
    let kind := upper first
    if kind = "CLASS" then
      match rest with
      | [old, new] => .ok (.ofClass old new)
      | _ => .error (.wrongColumns kind 3 (rest.length + 1))
    else if kind = "FIELD" then
      match rest with
      | [owner, descriptor, old, new] => .ok (.ofField owner descriptor old new)
      | _ => .error (.wrongColumns kind 5 (rest.length + 1))
    else if kind = "METHOD" then
      match rest with
      | [owner, descriptor, old, new] => .ok (.ofMethod owner descriptor old new)
      | _ => .error (.wrongColumns kind 5 (rest.length + 1))
    else .error (.unknownKind first)

/-- Reads the records from a line on. -/
def parseRecords (number : Nat) :
    List (Except FileError String) → Except ReadError (List MappingEntry)
  | [] => .ok []
  | .error cause :: _ => .error (.unreadable number cause)
  | .ok line :: rest =>
    match columns line with
    | (_, []) => parseRecords (number + 1) rest
    | (trimmed, all) =>
      match parseRecord all with
      | .error defect => .error (.badRecord number trimmed defect)
      | .ok record => (parseRecords (number + 1) rest).map fun more => ⟨number, record⟩ :: more

/-- Reads the header, which is the first line with content, and what follows it. -/
def parseFrom (number : Nat) : List (Except FileError String) → Except ReadError MappingSet
  | [] => .error .noHeader
  | .error cause :: _ => .error (.unreadable number cause)
  | .ok line :: rest =>
    match columns line with
    | (_, []) => parseFrom (number + 1) rest
    | (_, ["v1", source, target]) =>
      (parseRecords (number + 1) rest).map fun entries => ⟨source, target, entries⟩
    | (trimmed, _) => .error (.badHeader number trimmed)

def parse (lines : List (Except FileError String)) : Except ReadError MappingSet :=
  parseFrom 1 lines

/-- The columns of a record. -/
def recordColumns : MappingRecord → List String
  | .ofClass old new => ["CLASS", old, new]
  | .ofField owner descriptor old new => ["FIELD", owner, descriptor, old, new]
  | .ofMethod owner descriptor old new => ["METHOD", owner, descriptor, old, new]

/-- A line of columns, divided by tabs. -/
def printLine (columns : List String) : String := "\t".intercalate columns ++ "\n"

def print (m : MappingSet) : String :=
  (m.entries.map fun e => printLine (recordColumns e.record)).foldl (· ++ ·)
    (printLine ["v1", m.source, m.target])

end Tiny

end Classmith
