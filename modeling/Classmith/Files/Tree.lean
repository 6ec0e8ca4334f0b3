import Classmith.Files.FileError
import Classmith.Table
import Classmith.Text.Cut

/-!
# File trees

A snapshot of files and directories as seen from a working directory. Paths are resolved name by
name: every name but the last has to be a directory.
-/
namespace Classmith

structure FileTree where
  /-- The contents of files by their normalised paths. -/
  files : Table ByteArray
  /-- The normalised paths of directories, without the working directory. -/
  directories : NameSet
deriving Inhabited

/-- The names on the way to a place; an absolute place starts with an empty name. -/
abbrev Location := List String

/-- What a path leads to. -/
inductive FileEntry where
  | file (bytes : ByteArray)
  | directory

namespace FileTree

def empty : FileTree := ⟨Table.empty, Table.empty⟩

/-- The normalised path of a place. -/
def key (l : Location) : String := "/".intercalate l

/-- The names of a path, empty ones included. -/
def names (path : String) : List String := (Text.pieces '/' path.toList).map String.ofList

/-- The names on the way to a normalised path. -/
def locationOf (key : String) : Location := if key = "" then [] else names key

def isDirectoryAt (t : FileTree) (l : Location) : Bool :=
  l.isEmpty || l == [""] || t.directories.contains (key l)

/-- The place above a directory, as far as it is inside the tree. -/
def parent (l : Location) : Location :=
  match l.getLast? with
  | none => [".."]
  | some ".." => l ++ [".."]
  | some "" => l
  | some _ => l.dropLast

/-- Follows names from a directory. -/
def follow (t : FileTree) (l : Location) : List String → Except FileError (Location × FileEntry)
  | [] => .ok (l, .directory)
  | name :: rest =>
    if name = "" ∨ name = "." then t.follow l rest
    else
      let next := if name = ".." then parent l else l ++ [name]
      if t.isDirectoryAt next then t.follow next rest
      else
        match t.files.get? (key next) with
        | some bytes => if rest.isEmpty then .ok (next, .file bytes) else .error .notADirectory
        | none => .error .notFound

/-- The directory a path starts from, and its names. -/
def start (path : String) : Location × List String :=
  match names path with
  | "" :: rest => ([""], rest)
  | all => ([], all)

/-- The place a path spells, whatever the tree holds there. -/
def place (path : String) : Location :=
  (start path).2.foldl (fun l name =>
    if name = "" ∨ name = "." then l else if name = ".." then parent l else l ++ [name])
    (start path).1

/-- What a path leads to. -/
def entry (t : FileTree) (path : String) : Except FileError (Location × FileEntry) :=
  if path = "" then .error .notFound else t.follow (start path).1 (start path).2

def fileExists (t : FileTree) (path : String) : Bool :=
  match t.entry path with
  | .ok _ => true
  | .error _ => false

/-- The names in a directory, in ascending order. -/
def children (t : FileTree) (l : Location) : List String :=
  let named (key : String) : Option String :=
    let names := locationOf key
    if names.dropLast = l then names.getLast? else none
  (NameSet.ofNames ((t.files.keys ++ t.directories.toNames).filterMap named)).toNames

/-- The names of a path without empty ones at its end, and whether there were any. -/
def dropSlashes (names : List String) : List String × Bool :=
  let kept := (names.reverse.dropWhile (· = "")).reverse
  (kept, kept.length < names.length)

/-- Writes a file anew. -/
def write (t : FileTree) (path : String) (bytes : ByteArray) : Except FileError FileTree :=
  if path = "" then .error .notFound
  else
    let (base, all) := start path
    let (names, slash) := dropSlashes all
    match names.getLast? with
    | none => .error .isADirectory
    | some last =>
      match t.follow base names.dropLast with
      | .error e => .error e
      | .ok (_, .file _) => .error .notADirectory
      | .ok (l, .directory) =>
        if slash ∨ last = "." ∨ last = ".." ∨ t.isDirectoryAt (l ++ [last]) then .error .isADirectory
        else .ok { t with files := t.files.insert (key (l ++ [last])) bytes }

/-- The directories above a place, outermost first. -/
def above (l : Location) : List Location := (List.range (l.length - 1)).map fun n => l.take (n + 1)

def addDirectory (t : FileTree) (l : Location) : FileTree :=
  { t with directories := (above l ++ [l]).foldl (fun d l => d.add (key l)) t.directories }

/-- Adds a file and the directories above it. -/
def addFile (t : FileTree) (l : Location) (bytes : ByteArray) : FileTree where
  files := t.files.insert (key l) bytes
  directories := (above l).foldl (fun d l => d.add (key l)) t.directories

/-- The files that another tree does not have, or has with other contents. -/
def changesFrom (t before : FileTree) : List (String × ByteArray) :=
  t.files.toList.filter fun (key, bytes) => (before.files.get? key).all fun old => old != bytes

end FileTree

end Classmith
