import Classmith.Command.Run

/-!
# The command line

Gathers the files a command reads, runs it on them and writes back what it changed. Paths name single
files here; a directory is reported as an error.
-/
namespace Classmith

def usage : String :=
  "usage: remap --input PATH --mappings PATH [--reverse] [--fix-inner-classes]\n" ++
  "             [--write-mappings PATH] [--output PATH]\n" ++
  "       hierarchy --input PATH [--classpath PATH]... [--output PATH]\n" ++
  "             (subtype SUPER SUB | common-super FIRST SECOND | interfaces NAME)\n" ++
  "       walk --input PATH --class NAME --method NAME [--descriptor DESC] [--output PATH]\n" ++
  "       generics --input PATH [--classpath PATH]... [--output PATH]"

/-- The files a command reads, and the directories of those it may write. -/
def snapshot (c : Command) : IO FileTree := do
  let mut tree := FileTree.empty
  for path in c.outputs do
    tree := tree.addDirectory (FileTree.place path).dropLast
  for path in c.sources do
    match ← (IO.FS.readBinFile path).toBaseIO with
    | .ok bytes => tree := tree.addFile (FileTree.place path) bytes
    | .error (.noFileOrDirectory ..) => pure ()
    | .error e => throw e
  return tree

/-- A failure with the place of a decoding error. -/
def report (f : Failure) : String :=
  match f.cause with
  | .json (.mismatch path) => f.message ++ " at " ++ path.text
  | .json .malformed => f.message ++ ": not readable as JSON"
  | _ => f.message

end Classmith

open Classmith in
def main (args : List String) : IO UInt32 := do
  match Command.parse? args with
  | none =>
    IO.eprintln usage
    return 2
  | some command =>
    let before ← snapshot command
    let (outcome, after) := command.runOn before
    for (path, bytes) in after.tree.changesFrom before do
      IO.FS.writeBinFile path bytes
    IO.print after.stdout
    match outcome with
    | .ok () => return 0
    | .error f =>
      IO.eprintln s!"error: {report f}"
      return 1
