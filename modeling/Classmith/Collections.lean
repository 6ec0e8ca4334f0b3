import Classmith.Hierarchy.Query
import Classmith.MemberTable
import Classmith.Simulation.Walk

/-!
# Element types of collections

A guess at what the collections hold that static methods without a generic signature return: the
types of the values added to a collection are merged, and so are the collections a method returns.
-/
namespace Classmith.Collections

open Simulation (State Visit)

def collectionName : String := "java/util/Collection"

/-- The descriptor of the method that adds an element. -/
def addDescriptor : String := "(Ljava/lang/Object;)Z"

/-- What is known of the collections of a method. -/
structure Tracker where
  /-- The merged element type of a collection, by the number of its value. -/
  elements : List (Nat × String)
  returned : Option String

namespace Tracker

def start : Tracker := ⟨[], none⟩

def element? (t : Tracker) (id : Nat) : Option String := t.elements.lookup id

/-- Merges a type into what is known. -/
def merge (h : Hierarchy) (known : Option String) (added : String) : Query String := do
  match known with
  | some known => return (← h.commonSuperclass known added).name
  | none => return (← h.resolve added).name

/-- Whether a class is a collection. -/
def isCollection (h : Hierarchy) (name : String) : Query Bool := do
  let interfaces ← h.allInterfaces name
  return interfaces.contains collectionName

/-- Notes a call that adds an element. -/
def noteAdd (h : Hierarchy) (owner : String) (s : State) (t : Tracker) : Query Tracker := do
  if ← isCollection h owner then
    match s.stack with
    | element :: collection :: _ =>
      match element.className? with
      | none => return t
      | some added =>
        let id := collection.stripCasts.id
        let merged ← merge h (t.element? id) added
        return { t with elements := (id, merged) :: t.elements }
    | _ => return t
  else return t

/-- Notes that a collection is returned. -/
def noteReturn (h : Hierarchy) (s : State) (t : Tracker) : Query Tracker := do
  match s.stack with
  | [] => return t
  | top :: _ =>
    match t.element? top.stripCasts.id with
    | none => return t
    | some element =>
      let merged ← merge h t.returned element
      return { t with returned := some merged }

def visit (h : Hierarchy) (t : Tracker) (v : Visit) : Query Tracker :=
  match v.instruction with
  | .method _ owner name descriptor _ =>
    if name = "add" ∧ descriptor = addDescriptor then t.noteAdd h owner v.before else pure t
  | .insn 0xb0 => t.noteReturn h v.before
  | _ => pure t

end Tracker

/-- The answer of a query, or none if it fails. -/
def attempt {α : Type} (q : Query α) : Query (Option α) := fun memo =>
  match q memo with
  | (.ok a, memo) => (.ok (some a), memo)
  | (.error _, memo) => (.ok none, memo)

/-- Whether a method returns a collection. -/
def returnsCollection (h : Hierarchy) (m : Method) : Query Bool := do
  match Descriptor.returnedClass? m.descriptor with
  | none => return false
  | some returned => return (← attempt (Tracker.isCollection h returned)).getD false

/-- The element type of the collections that a method returns. -/
def elementType (h : Hierarchy) (c : Class) (m : Method) : Query (Option String) := do
  if !m.isStatic || m.signature.isSome then return none
  else if !(← returnsCollection h m) then return none
  else
    let walk := Simulation.walk c m
    let tracker ← attempt (walk.visits.foldlM (Tracker.visit h) .start)
    match walk.outcome with
    | .ok _ => return tracker.bind Tracker.returned
    | .error _ => return none

/-- A method and the element type of what it returns. -/
structure Guess where
  owner : String
  name : String
  descriptor : String
  element : String
deriving DecidableEq, Repr

/-- A guess that a class is the root says nothing. -/
def informative (h : Hierarchy) (element : String) : Query Bool := do
  match ← attempt (h.resolve element) with
  | some info => return info.superName.isSome
  | none => return false

/-- The guesses for methods of a class, added to those at hand. -/
def guessMethods (h : Hierarchy) (c : Class) (guesses : MemberTable) :
    List Method → Query MemberTable
  | [] => return guesses
  | m :: rest => do
    match ← elementType h c m with
    | some element => guessMethods h c (guesses.insert c.name m.descriptor m.name element) rest
    | none => guessMethods h c guesses rest

def guessClasses (h : Hierarchy) (guesses : MemberTable) : List Class → Query MemberTable
  | [] => return guesses
  | c :: rest => do
    let guesses ← guessMethods h c guesses c.methods
    guessClasses h guesses rest

/-- The informative guesses for all methods of the pool, in ascending order of owner, name and
descriptor. -/
def guess (h : Hierarchy) : Query (List Guess) := do
  let all ← guessClasses h MemberTable.empty h.pool.classes
  let kept ← all.toList.filterM fun e => informative h e.new
  return kept.map fun e => ⟨e.owner, e.name, e.descriptor, e.new⟩

/-- The guesses with nothing remembered before. -/
def guesses (h : Hierarchy) : List Guess :=
  match guess h Memo.empty with
  | (.ok guesses, _) => guesses
  | (.error _, _) => []

end Classmith.Collections
