import Classmith.Text.Cut

/-!
# Internal class names

A class name has its package before the last slash; the name of a member class has the name of its
outer class before the last dollar sign.
-/
namespace Classmith.Name

open Text

/-- The package of a class, empty for the default package. -/
def package (name : String) : String :=
  match cutLast? '/' name.toList with
  | some (before, _) => String.ofList before
  | none => ""

/-- The name without outer classes and package. -/
def simple (name : String) : String :=
  match cutLast? '$' name.toList with
  | some (_, after) => String.ofList after
  | none =>
    match cutLast? '/' name.toList with
    | some (_, after) => String.ofList after
    | none => name

/-- The outer class of a member class, and the rest of the name without the dollar sign. -/
def outer? (name : String) : Option (String × String) :=
  (cutLast? '$' name.toList).map fun (before, after) => (String.ofList before, String.ofList after)

/-- The name of a member of an outer class. -/
def nested (outer inner : String) : String := outer ++ "$" ++ inner

theorem nested_of_outer? {name outer inner : String} (h : outer? name = some (outer, inner)) :
    nested outer inner = name := by
  simp only [outer?, Option.map_eq_some_iff, Prod.mk.injEq, Prod.exists] at h
  obtain ⟨before, after, hcut, rfl, rfl⟩ := h
  have hname := cutLast?_eq_some hcut
  apply String.toList_injective
  simp [nested, hname]

end Classmith.Name
