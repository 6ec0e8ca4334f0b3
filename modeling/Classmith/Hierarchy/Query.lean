import Classmith.Hierarchy.Basic

/-!
# Hierarchy queries

Questions about supertypes, answered from the sources and remembered. What is remembered outlives a
change of the loader until it is dropped, also what was found out by a query that failed later.

Every walk over supertypes carries the names it may still visit. A name that resolves and may not be
visited again closes a cycle, and a step removes a name, so the walk ends.
-/
namespace Classmith

/-- What earlier queries have found out. -/
structure Memo where
  infos : Table ClassInfo
  closures : Table NameSet
deriving Inhabited

namespace Memo

def empty : Memo := ⟨Table.empty, Table.empty⟩

end Memo

/-- A query: an answer or an error, and what is remembered afterwards in either case. -/
abbrev Query := ExceptT Error (StateM Memo)

/-- The names but one. -/
def without (name : String) (names : List String) : List String := names.filter (· ≠ name)

theorem mem_without {name other : String} {names : List String} :
    other ∈ without name names ↔ other ∈ names ∧ other ≠ name := by
  simp [without]

theorem length_without_lt {name : String} {names : List String} (h : name ∈ names) :
    (without name names).length < names.length := by
  rw [without, List.length_filter_lt_length_iff_exists]
  exact ⟨name, h, by simp⟩

namespace Hierarchy

/-- The supertypes of a class. -/
def resolve (h : Hierarchy) (name : String) : Query ClassInfo := do
  match (← get).infos.get? name with
  | some info => return info
  | none =>
    match h.lookup? name with
    | none => throw (.unresolved name)
    | some info =>
      modify fun memo => { memo with infos := memo.infos.insert name info }
      return info

/-- Every name that can resolve now. -/
def resolvable (h : Hierarchy) : Query (List String) := do
  return h.names ++ (← get).infos.keys

/-- Whether a walk along superclasses from a class meets the class with the given name. -/
def climb (h : Hierarchy) (target : String) (remaining : List String) (current : ClassInfo) :
    Query Bool :=
  if current.name = target then return true
  else
    match current.superName with
    | none => return false
    | some above => do
      let next ← h.resolve above
      if _hmem : above ∈ remaining then
        h.climb target (without above remaining) next
      else throw (.cyclic above)
termination_by remaining.length
decreasing_by exact length_without_lt _hmem

/-- The names of all interfaces that a class implements, directly or through supertypes; an interface
implements itself. -/
def collect (h : Hierarchy) (remaining : List String) (name : String) : Query NameSet := do
  match (← get).closures.get? name with
  | some closure => return closure
  | none =>
    let info ← h.resolve name
    if _hmem : name ∈ remaining then
      let own : NameSet := if info.isInterface then NameSet.ofNames [info.name] else Table.empty
      let declared ← info.interfaces.foldlM (fun (closure : NameSet) above => do
        let inherited ← h.collect (without name remaining) above
        return (closure.add above).join inherited) own
      let closure ← match info.superName with
        | none => pure declared
        | some above => do
          let inherited ← h.collect (without name remaining) above
          pure (declared.join inherited)
      modify fun memo => { memo with closures := memo.closures.insert name closure }
      return closure
    else throw (.cyclic name)
termination_by remaining.length
decreasing_by all_goals exact length_without_lt _hmem

def allInterfaces (h : Hierarchy) (name : String) : Query NameSet := do
  h.collect (← h.resolvable) name

/-- Whether values of the class `sub` can be assigned to the class `super`. -/
def isSubtype (h : Hierarchy) (super sub : String) : Query Bool := do
  let target ← h.resolve super
  if target.isInterface then
    let closure ← h.allInterfaces sub
    return closure.contains target.name
  else
    let start ← h.resolve sub
    h.climb target.name (← h.resolvable) start

/-- Moves the second class up until the two are comparable. -/
def meet (h : Hierarchy) (a : ClassInfo) (remaining : List String) (b : ClassInfo) :
    Query ClassInfo := do
  if a.name = ClassInfo.rootName then return a
  else if b.name = ClassInfo.rootName then return b
  else if ← h.isSubtype a.name b.name then return a
  else if ← h.isSubtype b.name a.name then return b
  else if a.isInterface || b.isInterface then h.resolve ClassInfo.rootName
  else
    let above := b.superName.getD ClassInfo.rootName
    let next ← h.resolve above
    if _hmem : above ∈ remaining then h.meet a (without above remaining) next
    else throw (.cyclic above)
termination_by remaining.length
decreasing_by exact length_without_lt _hmem

/-- The closest class above both, as a verifier merges them. -/
def commonSuperclass (h : Hierarchy) (a b : String) : Query ClassInfo := do
  let a ← h.resolve a
  let b ← h.resolve b
  h.meet a (← h.resolvable) b

/-- Forgets all earlier answers. -/
def invalidate : Query Unit := set Memo.empty

end Hierarchy

end Classmith
