import Classmith.Error
import Classmith.Files.FileError
import Classmith.Json.Decode
import Classmith.Mapping.Tiny

/-!
# Failures of commands

A failure is a cause and what was being done when it arose.
-/
namespace Classmith

/-- What was being done, outermost first in a failure. -/
inductive Activity where
  | loadClasspathEntry (path : String)
  | openFile (path : String)
  | parseClasses (path : String)
  | openMappings (path : String)
  | parseMappings (path : String)
  | applyMapping (line : Nat)
  | walkMethod (owner name descriptor : String)
deriving DecidableEq, Repr

def Activity.message : Activity → String
  | loadClasspathEntry path => s!"failed to load classpath entry {path}"
  | openFile path => s!"failed to open {path}"
  | parseClasses path => s!"failed to parse classes in {path}"
  | openMappings path => s!"failed to open mappings {path}"
  | parseMappings path => s!"failed to parse mappings {path}"
  | applyMapping line => s!"mapping line {line}"
  | walkMethod owner name descriptor => s!"failed to walk {owner}.{name}{descriptor}"

inductive Cause where
  | error (error : Error)
  | file (error : FileError)
  /-- Classes could not be decoded; without a path the text itself is defective. -/
  | json (error : Json.DecodeError)
  | mappings (error : Tiny.ReadError)
  | inputNotFound (path : String)
  | classpathEntryNotFound (path : String)
  | classNotFound (name path : String)
  | methodNotFound (name owner : String)
deriving DecidableEq, Repr

/-- The text of a cause; that of a decoding error is its path, which is told apart. -/
def Cause.message? : Cause → Option String
  | error e => some e.message
  | file e => some e.message
  | json _ => none
  | mappings e => some e.message
  | inputNotFound path => some s!"input not found: {path}"
  | classpathEntryNotFound path => some s!"classpath entry not found: {path}"
  | classNotFound name path => some s!"class {name} not found in {path}"
  | methodNotFound name owner => some s!"method {name} not found in {owner}"

structure Failure where
  activities : List Activity
  cause : Cause
deriving DecidableEq, Repr

namespace Failure

def of (cause : Cause) : Failure := ⟨[], cause⟩

def during (activity : Activity) (f : Failure) : Failure :=
  { f with activities := activity :: f.activities }

def message (f : Failure) : String :=
  ": ".intercalate (f.activities.map Activity.message ++ f.cause.message?.toList)

end Failure

end Classmith
