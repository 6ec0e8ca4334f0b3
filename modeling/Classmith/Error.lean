import Classmith.Simulation.Fault

/-!
# Errors
-/
namespace Classmith

/-- An instruction of a method. -/
structure Site where
  owner : String
  method : String
  descriptor : String
  index : Nat
deriving DecidableEq, Repr

/-- Failures of hierarchy queries, simulations and renaming. -/
inductive Error where
  /-- No source knows the class. -/
  | unresolved (name : String)
  /-- Following supertypes leads back to the class. -/
  | cyclic (name : String)
  | unsupported (site : Site) (cause : Simulation.Unmodelled)
  | malformed (site : Site) (cause : Simulation.Malformation)
  /-- A member has already been renamed otherwise. -/
  | conflict (owner descriptor name existing requested : String)
  /-- Names that several classes have. -/
  | duplicate (names : List String)
deriving DecidableEq, Repr

def Site.place (s : Site) : String := s!"{s.owner}.{s.method}{s.descriptor} at instruction {s.index}"

def Error.message : Error → String
  | unresolved name => s!"unable to resolve class {name}"
  | cyclic name => s!"unable to resolve class {name} (cyclic hierarchy)"
  | unsupported site cause => s!"unsupported bytecode in {site.place}: {cause.message}"
  | malformed site cause => s!"malformed bytecode in {site.place}: {cause.message}"
  | conflict owner descriptor name existing requested =>
    s!"conflicting mapping for {owner}.{name}{descriptor}: already renamed to {existing}, " ++
      s!"refusing {requested}"
  | duplicate names => "duplicate class " ++ ", ".intercalate names

end Classmith
