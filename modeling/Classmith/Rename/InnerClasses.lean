import Classmith.Rename.Remapper

/-!
# Inner classes that follow their outer class

When a class is renamed, its registered member classes without a rename of their own are moved into
the new name; then the members of those, and so on until nothing is left to move.
-/
namespace Classmith

open Signature (ClassTable)

/-- The registered member classes by the name of their outer class. -/
abbrev MemberGroups := Table (List String)

def memberGroups (classes : List Class) : MemberGroups :=
  classes.foldl (fun groups c =>
    match Name.outer? c.name with
    | none => groups
    | some (outer, _) => groups.insert outer ((groups.get? outer).getD [] ++ [c.name]))
    Table.empty

/-- The renames of members of one renamed class. -/
def followers (classes : ClassTable) (newOuter : String) (members : List String)
    (found : ClassTable) : ClassTable :=
  members.foldl (fun found member =>
    if classes.contains member then found
    else
      match Name.outer? member with
      | none => found
      | some (_, inner) => found.insert member (Name.nested newOuter inner)) found

/-- Looks at renamed classes in order: the renames found and the groups not yet looked at. -/
def followFrom (classes : ClassTable) :
    List (String × String) → ClassTable → MemberGroups → ClassTable × MemberGroups
  | [], found, groups => (found, groups)
  | (old, new) :: rest, found, groups =>
    match groups.get? old with
    | none => followFrom classes rest found groups
    | some members =>
      followFrom classes rest (followers classes new members found) (groups.erase old)

/-- One round over all renamed classes. -/
def followRound (classes : ClassTable) (groups : MemberGroups) : ClassTable × MemberGroups :=
  followFrom classes classes.toList Table.empty groups

theorem Table.size_erase_le {α : Type} (t : Table α) (key : String) :
    (t.erase key).size ≤ t.size := List.length_filter_le _ _

theorem Table.size_erase_lt {α : Type} {t : Table α} {key : String} (h : (t.get? key).isSome) :
    (t.erase key).size < t.size := by
  simp only [Table.erase, Table.size, List.length_filter_lt_length_iff_exists]
  obtain ⟨entry, hmem, hkey⟩ := List.mem_map.1 (Table.mem_keys_of_get? h)
  exact ⟨entry, hmem, by simp [hkey]⟩

theorem size_followFrom (classes : ClassTable) (l : List (String × String)) (found : ClassTable)
    (groups : MemberGroups) : (followFrom classes l found groups).2.size ≤ groups.size := by
  induction l generalizing found groups with
  | nil => exact Nat.le_refl _
  | cons head rest ih =>
    simp only [followFrom]
    split
    · exact ih found groups
    · exact Nat.le_trans (ih _ _) (Table.size_erase_le groups _)

/-- A round that finds a rename uses up a group. -/
theorem size_followRound (classes : ClassTable) (groups : MemberGroups) :
    (followRound classes groups).2.size < groups.size ∨
      (followRound classes groups).1 = Table.empty := by
  suffices h : ∀ l found, (followFrom classes l found groups).2.size < groups.size ∨
      (followFrom classes l found groups).1 = found from h _ _
  intro l found
  induction l with
  | nil => exact Or.inr rfl
  | cons head rest ih =>
    simp only [followFrom]
    split
    · exact ih
    · rename_i hget
      exact Or.inl (Nat.lt_of_le_of_lt (size_followFrom _ _ _ _)
        (Table.size_erase_lt (by simp [hget])))

/-- Rounds until one finds nothing: all classes renamed at the end, and those added. -/
def follow (classes : ClassTable) (groups : MemberGroups) (added : ClassTable) :
    ClassTable × ClassTable :=
  match _h : followRound classes groups with
  | (found, rest) =>
    if _hempty : found.isEmpty then (classes, added)
    else follow (classes.union found) rest (added.union found)
termination_by groups.size
decreasing_by
  have := size_followRound classes groups
  rw [_h] at this
  rcases this with hlt | hnone
  · exact hlt
  · exact absurd (by simp only at hnone; rw [hnone]; rfl) _hempty

namespace Remapper

/-- Adds the renames of inner classes that follow their outer class; the second part lists them. -/
def followOuterClasses (r : Remapper) : Remapper × ClassTable :=
  let (classes, added) := follow r.classes (memberGroups r.targets.classes) Table.empty
  ({ r with classes }, added)

end Remapper

end Classmith
