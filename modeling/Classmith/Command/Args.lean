import Classmith.Text.Cut

/-!
# Command line arguments

A command is a word followed by options. An option is written `--name value` or `--name=value`, and
given once unless it may be repeated; a lone `--` ends the options.
-/
namespace Classmith

/-- A question about the hierarchy. -/
inductive Question where
  | subtype (super sub : String)
  | commonSuper (first second : String)
  | interfaces (name : String)
deriving DecidableEq, Repr

inductive Command where
  | remap (input mappings : String) (reverse followOuter : Bool)
      (writeMappings output : Option String)
  | hierarchy (input : String) (classpath : List String) (output : Option String)
      (question : Question)
  | walk (input owner method : String) (descriptor output : Option String)
  | generics (input : String) (classpath : List String) (output : Option String)
deriving DecidableEq, Repr

namespace Args

/-- What an option takes. -/
inductive OptionKind where
  | flag
  /-- A text. -/
  | text
  /-- A path, which is not empty. -/
  | path
  /-- A path, any number of times. -/
  | paths
deriving DecidableEq, Repr

abbrev Spec := List (String × OptionKind)

/-- The options found so far with their values, last first. -/
abbrev Found := List (String × String)

/-- How an argument is taken. -/
inductive Shape where
  | terminator
  | long (name : String) (value : Option String)
  | short
  | plain

def shape (arg : String) : Shape :=
  match arg.toList with
  | ['-', '-'] => .terminator
  | '-' :: '-' :: rest =>
    match Text.cutFirst? '=' rest with
    | some (name, value) => .long (String.ofList name) (some (String.ofList value))
    | none => .long (String.ofList rest) none
  | '-' :: _ :: _ => .short
  | _ => .plain

def isPlain (arg : String) : Bool :=
  match shape arg with
  | .plain => true
  | _ => false

/-- Adds the value of an option, if it may have it. -/
def accept? (kind : OptionKind) (name value : String) (found : Found) : Option Found :=
  let repeated := (found.lookup name).isSome
  match kind with
  | .flag => none
  | .text => if repeated then none else some ((name, value) :: found)
  | .path => if repeated ∨ value = "" then none else some ((name, value) :: found)
  | .paths => if value = "" then none else some ((name, value) :: found)

/-- Takes options up to the first argument that is none. -/
def options? (spec : Spec) : List String → Found → Option (Found × List String)
  | [], found => some (found, [])
  | arg :: rest, found =>
    match shape arg with
    | .terminator => some (found, arg :: rest)
    | .plain => some (found, arg :: rest)
    | .short => none
    | .long name value =>
      match spec.lookup name, value with
      | none, _ => none
      | some .flag, some _ => none
      | some .flag, none =>
        if (found.lookup name).isSome then none else options? spec rest ((name, "") :: found)
      | some kind, some value => (accept? kind name value found).bind (options? spec rest)
      | some kind, none =>
        match rest with
        | [] => none
        | value :: rest =>
          if isPlain value then (accept? kind name value found).bind (options? spec rest) else none

/-- Options only, perhaps with a terminator at their end. -/
def optionsOnly? (spec : Spec) (args : List String) : Option Found :=
  match options? spec args [] with
  | some (found, []) => some found
  | some (found, ["--"]) => some found
  | _ => none

/-- Arguments that are no options; after a terminator every argument is one. -/
def positionals? : List String → Option (List String)
  | [] => some []
  | arg :: rest =>
    match shape arg with
    | .terminator => some rest
    | .plain => (positionals? rest).map (arg :: ·)
    | _ => none

/-- The values of an option that may be repeated, in order. -/
def values (found : Found) (name : String) : List String :=
  (found.filter fun e => e.1 = name).reverse.map (·.2)

def question? : List String → Option Question
  | [] => none
  | word :: rest => do
    match word, ← positionals? rest with
    | "subtype", [super, sub] => some (.subtype super sub)
    | "common-super", [first, second] => some (.commonSuper first second)
    | "interfaces", [name] => some (.interfaces name)
    | _, _ => none

def parseRemap? (args : List String) : Option Command := do
  let found ← optionsOnly? [("input", .path), ("mappings", .path), ("reverse", .flag),
    ("fix-inner-classes", .flag), ("write-mappings", .path), ("output", .path)] args
  return .remap (← found.lookup "input") (← found.lookup "mappings")
    (found.lookup "reverse").isSome (found.lookup "fix-inner-classes").isSome
    (found.lookup "write-mappings") (found.lookup "output")

def parseHierarchy? (args : List String) : Option Command := do
  let (found, rest) ← options? [("input", .path), ("classpath", .paths), ("output", .path)] args []
  return .hierarchy (← found.lookup "input") (values found "classpath") (found.lookup "output")
    (← question? rest)

def parseWalk? (args : List String) : Option Command := do
  let found ← optionsOnly? [("input", .path), ("class", .text), ("method", .text),
    ("descriptor", .text), ("output", .path)] args
  return .walk (← found.lookup "input") (← found.lookup "class") (← found.lookup "method")
    (found.lookup "descriptor") (found.lookup "output")

def parseGenerics? (args : List String) : Option Command := do
  let found ← optionsOnly? [("input", .path), ("classpath", .paths), ("output", .path)] args
  return .generics (← found.lookup "input") (values found "classpath") (found.lookup "output")

end Args

/-- The command that arguments spell, if they do. -/
def Command.parse? : List String → Option Command
  | "remap" :: args => Args.parseRemap? args
  | "hierarchy" :: args => Args.parseHierarchy? args
  | "walk" :: args => Args.parseWalk? args
  | "generics" :: args => Args.parseGenerics? args
  | _ => none

/-- The paths a command reads. -/
def Command.sources : Command → List String
  | .remap input mappings _ _ _ _ => [input, mappings]
  | .hierarchy input classpath _ _ => input :: classpath
  | .walk input _ _ _ _ => [input]
  | .generics input classpath _ => input :: classpath

/-- The paths a command may write. -/
def Command.outputs : Command → List String
  | .remap _ _ _ _ writeMappings output => writeMappings.toList ++ output.toList
  | .hierarchy _ _ output _ | .walk _ _ _ _ output | .generics _ _ output => output.toList

end Classmith
