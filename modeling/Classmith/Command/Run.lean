import Classmith.ClassFile.Encode
import Classmith.Collections
import Classmith.Command.Args
import Classmith.Files.Loading
import Classmith.Json.Writer
import Classmith.Mapping.Tiny
import Classmith.Platform
import Classmith.Rename.InnerClasses

/-!
# Running commands

A command reads from a file tree and leaves a changed tree and a printed text. What it has written
before it fails stays written.
-/
namespace Classmith

/-- What commands act on. -/
structure World where
  tree : FileTree
  stdout : String

abbrev Action := ExceptT Failure (StateM World)

namespace Command

/-- The result of something that can fail for reasons of the domain. -/
def check {α : Type} : Except Error α → Action α
  | .ok a => pure a
  | .error e => throw (.of (.error e))

def attempt {α : Type} : Except Failure α → Action α
  | .ok a => pure a
  | .error f => throw f

def writeFile (path text : String) : Action Unit := do
  let world ← get
  match world.tree.write path text.toUTF8 with
  | .ok tree => set { world with tree }
  | .error e => throw ⟨[.openFile path], .file e⟩

/-- Whether an output path stands for the standard output: a lone dash, however many slashes and
points follow it. -/
def isStdout (path : String) : Bool :=
  match FileTree.names path with
  | "-" :: rest => rest.all fun name => name = "" || name = "."
  | _ => false

/-- Prints a text or writes it to a file. -/
def emit (output : Option String) (text : String) : Action Unit := do
  let toFile := output.filter fun path => !isStdout path
  match toFile with
  | some path => writeFile path text
  | none => modify fun world => { world with stdout := world.stdout ++ text }

def loadInput (path : String) : Action (List Class) := do
  let tree := (← get).tree
  if tree.fileExists path then attempt (tree.loadClasses path)
  else throw (.of (.inputNotFound path))

/-- The classes of the class path first, then those of the platform. -/
def classpathLoader (paths : List String) : Action Loader := do
  let tree := (← get).tree
  match paths.find? fun path => !tree.fileExists path with
  | some path => throw (.of (.classpathEntryNotFound path))
  | none =>
    let classes ← attempt (tree.loadClasspath paths)
    let library ← check (Pool.ofClasses classes)
    return .chain [.ofPool library, Platform.loader]

def loadHierarchy (input : String) (classpath : List String) : Action Hierarchy := do
  let classes ← loadInput input
  let pool ← check (Pool.ofClasses classes)
  return ⟨pool, ← classpathLoader classpath⟩

def loadMappings (path : String) : Action MappingSet := do
  match (← get).tree.entry path with
  | .error e => throw ⟨[.openMappings path], .file e⟩
  | .ok (_, entry) =>
    let lines := match entry with
      | .file bytes => Text.lines bytes
      | .directory => [.error .isADirectory]
    match Tiny.parse lines with
    | .ok mappings => return mappings
    | .error e => throw ⟨[.parseMappings path], .mappings e⟩

/-- Registers classes and mappings with a new remapper. -/
def prepare (classes : List Class) (mappings : MappingSet) : Except Failure Remapper :=
  match Remapper.new.addTargets classes with
  | (.error e, _) => .error (.of (.error e))
  | (.ok (), remapper) =>
    match mappings.apply remapper with
    | (.error conflict, _) => .error ⟨[.applyMapping conflict.line], .error conflict.error⟩
    | (.ok (), remapper) => .ok remapper

def runRemap (input mappings : String) (reverse followOuter : Bool)
    (writeMappings output : Option String) : Action Unit := do
  let classes ← loadInput input
  let read ← loadMappings mappings
  let set := if reverse then read.reversed else read
  let remapper ← attempt (prepare classes set)
  let (remapper, added) :=
    if followOuter then remapper.followOuterClasses else (remapper, Table.empty)
  match writeMappings with
  | some path => writeFile path (Tiny.print (set.extendClasses added))
  | none => pure ()
  let (result, remapper) := remapper.process
  check result
  let document := Json.array (remapper.targets.classes.map (Class.toJson .document))
  emit output (document.pretty ++ "\n")

/-- The answer to a question, as text. -/
def answer (h : Hierarchy) : Question → Query String
  | .subtype super sub => return if ← h.isSubtype super sub then "true" else "false"
  | .commonSuper first second => return (← h.commonSuperclass first second).name
  | .interfaces name => return "\n".intercalate (← h.allInterfaces name).toNames

def runHierarchy (input : String) (classpath : List String) (output : Option String)
    (question : Question) : Action Unit := do
  let h ← loadHierarchy input classpath
  let text ← check (answer h question Memo.empty).1
  emit output (text ++ "\n")

/-- Pads a text with blanks before it. -/
def padLeft (width : Nat) (s : String) : String :=
  String.ofList (List.replicate (width - s.length) ' ') ++ s

/-- Pads a text with blanks after it. -/
def padRight (width : Nat) (s : String) : String :=
  s ++ String.ofList (List.replicate (width - s.length) ' ')

/-- The stack after an instruction, on a line. -/
def stackLine (position : Nat) (instruction : Instruction) (after : Simulation.State) : String :=
  let stack := ", ".intercalate (after.stackValues.map Simulation.Value.text)
  padLeft 4 (toString position) ++ " " ++ padRight 14 instruction.groupName ++ " [" ++ stack ++ "]\n"

/-- The listing of a walk. -/
def listing (visits : List Simulation.Visit) : String :=
  visits.foldl (fun text v =>
    match v.after with
    | some after => text ++ stackLine v.position v.instruction after
    | none => text) ""

def runWalk (input owner method : String) (descriptor output : Option String) : Action Unit := do
  let classes ← loadInput input
  let pool ← check (Pool.ofClasses classes)
  match pool.get? owner with
  | none => throw (.of (.classNotFound owner input))
  | some c =>
    match c.findMethod? method descriptor with
    | none => throw (.of (.methodNotFound method owner))
    | some m =>
      let walk := Simulation.walk c m
      match walk.outcome with
      | .error e => throw ⟨[.walkMethod owner method m.descriptor], .error e⟩
      | .ok .skipped =>
        emit output s!"skipped: class version {c.version.toNat} has no stack map frames\n"
      | .ok .walked => emit output (listing walk.visits)

def guessToJson (g : Collections.Guess) : Json := .record [
  ("owner", .string g.owner),
  ("name", .string g.name),
  ("descriptor", .string g.descriptor),
  ("element", .string g.element)]

def runGenerics (input : String) (classpath : List String) (output : Option String) :
    Action Unit := do
  let h ← loadHierarchy input classpath
  let document := Json.array ((Collections.guesses h).map guessToJson)
  emit output (document.pretty ++ "\n")

def run : Command → Action Unit
  | .remap input mappings reverse followOuter writeMappings output =>
    runRemap input mappings reverse followOuter writeMappings output
  | .hierarchy input classpath output question => runHierarchy input classpath output question
  | .walk input owner method descriptor output => runWalk input owner method descriptor output
  | .generics input classpath output => runGenerics input classpath output

/-- Runs a command on a tree: how it ends, and the tree and the printed text afterwards. -/
def runOn (c : Command) (tree : FileTree) : Except Failure Unit × World :=
  (run c).run ⟨tree, ""⟩

end Command

end Classmith
