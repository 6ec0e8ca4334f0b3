import Classmith.Hierarchy.Basic

/-!
# Subclasses among registered classes
-/
namespace Classmith

/-- The names of direct subclasses by the name of their superclass. -/
def subclassIndex (classes : List Class) : Table NameSet :=
  classes.foldl (fun index c =>
    match c.superName with
    | none => index
    | some above => index.insert above (((index.get? above).getD Table.empty).add c.name))
    Table.empty

/-- Whether a name is listed below another. -/
def isBelow (index : Table NameSet) (above name : String) : Bool :=
  (index.get? above).any fun names => names.contains name

/-- The names listed below another, and the others. -/
def partitionBelow (index : Table NameSet) (above : String) (names : List String) :
    List String × List String :=
  names.partition (isBelow index above)

theorem length_partitionBelow (index : Table NameSet) (above : String) (names : List String) :
    (partitionBelow index above names).1.length + (partitionBelow index above names).2.length =
      names.length := by
  simp only [partitionBelow, List.partition_eq_filter_filter]
  induction names with
  | nil => rfl
  | cons name rest ih => cases h : isBelow index above name <;> simp_all <;> omega

/-- The names among `remaining` that can be reached downwards from the pending ones. A name leaves
`remaining` when it becomes pending, so the two together shrink with every step. -/
def reach (index : Table NameSet) (remaining : List String) : (pending : List String) → List String
  | [] => []
  | current :: pending =>
    let found := (partitionBelow index current remaining).1
    found ++ reach index (partitionBelow index current remaining).2 (found ++ pending)
termination_by pending => remaining.length + pending.length
decreasing_by
  have := length_partitionBelow index current remaining
  simp only [List.length_append, List.length_cons]
  omega

/-- Every name listed in the index. -/
def listed (index : Table NameSet) : NameSet :=
  index.toList.foldl (fun all entry => all.join entry.2) Table.empty

/-- All subclasses of a class, direct or not. -/
def descendants (index : Table NameSet) (name : String) : NameSet :=
  (NameSet.ofNames (reach index (listed index).toNames [name])).erase name

end Classmith
