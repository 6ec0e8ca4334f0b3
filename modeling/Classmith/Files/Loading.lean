import Classmith.ClassFile.Decode
import Classmith.Files.Failure
import Classmith.Files.Tree
import Classmith.Json.Reader

/-!
# Loading classes

Classes come from a file with an array of classes, or from all such files below a directory, in the
order of their paths.
-/
namespace Classmith.FileTree

/-- The classes of the contents of a file. -/
def parseClasses (path : String) (bytes : ByteArray) : Except Failure (List Class) :=
  match ClassFile.classes (Json.read Json.nestingLimit bytes) with
  | .ok classes => .ok classes
  | .error e => .error ⟨[.parseClasses path], .json e⟩

def loadFile (t : FileTree) (path : String) : Except Failure (List Class) :=
  match t.entry path with
  | .ok (_, .file bytes) => parseClasses path bytes
  | .ok (_, .directory) => .error ⟨[.openFile path], .file .isADirectory⟩
  | .error e => .error ⟨[.openFile path], .file e⟩

/-- The path of a name in a directory. -/
def joinPath (path name : String) : String :=
  if path.toList.getLast? = some '/' then path ++ name else path ++ "/" ++ name

/-- What stands after the last point of a name, unless that is its first character. -/
def extension? (name : String) : Option String :=
  match Text.cutLast? '.' name.toList with
  | some (_ :: _, after) => some (String.ofList after)
  | _ => none

mutual

/-- The classes of the files below a directory; the depth of the tree bounds the fuel. -/
def loadDirectory (t : FileTree) :
    (fuel : Nat) → (path : String) → Location → Except Failure (List Class)
  | 0, _, _ => .ok []
  | fuel + 1, path, l => t.loadChildren fuel path l (t.children l)

def loadChildren (t : FileTree) :
    (fuel : Nat) → (path : String) → Location → List String → Except Failure (List Class)
  | _, _, _, [] => .ok []
  | fuel, path, l, name :: rest => do
    let next := l ++ [name]
    let classes ←
      if t.isDirectoryAt next then t.loadDirectory fuel (joinPath path name) next
      else if extension? name = some "json" then t.loadFile (joinPath path name)
      else pure []
    let more ← t.loadChildren fuel path l rest
    return classes ++ more

end

/-- The classes at a path. -/
def loadClasses (t : FileTree) (path : String) : Except Failure (List Class) :=
  match t.entry path with
  | .ok (l, .directory) => t.loadDirectory (t.directories.size + 1) path l
  | _ => t.loadFile path

/-- The classes of all entries of a class path. -/
def loadClasspath (t : FileTree) : List String → Except Failure (List Class)
  | [] => .ok []
  | path :: rest => do
    let classes ← (t.loadClasses path).mapError (Failure.during (.loadClasspathEntry path))
    let more ← t.loadClasspath rest
    return classes ++ more

end Classmith.FileTree
