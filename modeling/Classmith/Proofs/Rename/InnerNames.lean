import Classmith.Proofs.Rename.Remapper
import Classmith.Proofs.Tables
import Classmith.Rename.InnerClasses

/-!
# Simple names of inner classes that follow their outer class

A class that follows its outer class keeps the part of its name after the last dollar sign, and a pass
writes this part as its simple name. A member class is called so in the source. The name of a local class
has a number in front of its simple name, and a simple name may itself have a dollar sign: these get
another simple name although only their outer class was renamed.
-/
namespace Classmith

open Signature (ClassTable)

/-! ## The last dollar sign -/

theorem Text.cutLast?_eq_none_iff {mark : Char} {s : List Char} :
    Text.cutLast? mark s = none ↔ mark ∉ s := by
  induction s with
  | nil => simp [Text.cutLast?]
  | cons c rest ih =>
    rw [Text.cutLast?, List.mem_cons, not_or, ← ih]
    cases Text.cutLast? mark rest with
    | some cut => simp
    | none => simp [eq_comm]

theorem Text.notMem_of_cutLast? {mark : Char} {s before after : List Char}
    (h : Text.cutLast? mark s = some (before, after)) : mark ∉ after := by
  induction s generalizing before with
  | nil => simp [Text.cutLast?] at h
  | cons c rest ih =>
    rw [Text.cutLast?] at h
    cases hrest : Text.cutLast? mark rest with
    | some cut =>
      rw [hrest] at h
      cases h
      exact ih hrest
    | none =>
      rw [hrest] at h
      by_cases hc : c = mark
      · simp only [hc, if_true] at h
        cases h
        exact Text.cutLast?_eq_none_iff.mp hrest
      · simp [hc] at h

theorem Text.cutLast?_append {mark : Char} (before : List Char) {after : List Char} (h : mark ∉ after) :
    Text.cutLast? mark (before ++ mark :: after) = some (before, after) := by
  induction before with
  | nil => simp [Text.cutLast?, Text.cutLast?_eq_none_iff.mpr h]
  | cons c before ih => rw [List.cons_append, Text.cutLast?, ih]

namespace Name

theorem simple_of_outer? {name outer inner : String} (h : outer? name = some (outer, inner)) :
    simple name = inner := by
  obtain ⟨⟨before, after⟩, hcut, heq⟩ := Option.map_eq_some_iff.mp h
  cases heq
  rw [simple, hcut]

/-- Another outer class leaves the rest of the name as it is. -/
theorem simple_nested_of_outer? {name outer inner : String} (h : outer? name = some (outer, inner))
    (newOuter : String) : simple (nested newOuter inner) = inner := by
  obtain ⟨⟨before, after⟩, hcut, heq⟩ := Option.map_eq_some_iff.mp h
  cases heq
  have hnested : (nested newOuter (String.ofList after)).toList = newOuter.toList ++ '$' :: after := by
    simp [nested]
  rw [simple, hnested, Text.cutLast?_append _ (Text.notMem_of_cutLast? hcut)]

end Name

/-! ## Derived renames -/

theorem Table.get?_union {α : Type} (t other : Table α) (key : String) :
    (t.union other).get? key = (other.get? key).or (t.get? key) := by
  obtain ⟨entries, hascending⟩ := other
  rw [union, get?.eq_1 ⟨entries, hascending⟩]
  induction entries generalizing t with
  | nil => rfl
  | cons head rest ih =>
    obtain ⟨k, value⟩ := head
    obtain ⟨hhead, hrest⟩ := List.pairwise_cons.mp hascending
    rw [List.foldl_cons, ih _ hrest, get?_insert, find]
    by_cases hkey : key = k
    · have hnone : find key rest = none := by
        rw [Option.eq_none_iff_forall_ne_some]
        intro other hother
        exact String.lt_irrefl k (hhead _ (hkey ▸ (find_eq_some_iff hrest).mp hother))
      rw [if_pos hkey, if_pos hkey, hnone]
      rfl
    · rw [if_neg hkey, if_neg hkey]

/-- The rename moves a class into the new name that the table has for its outer class. -/
def IsDerived (classes : ClassTable) (old new : String) : Prop :=
  ∃ outer inner newOuter, Name.outer? old = some (outer, inner) ∧
    classes.get? outer = some newOuter ∧ new = Name.nested newOuter inner

/-- Every group lists members of its outer class. -/
def MemberGroups.Listed (groups : MemberGroups) : Prop :=
  ∀ outer members, groups.get? outer = some members →
    ∀ member ∈ members, ∃ inner, Name.outer? member = some (outer, inner)

theorem listed_memberGroups (classes : List Class) : (memberGroups classes).Listed := by
  refine List.foldlRecOn (motive := MemberGroups.Listed) classes _ ?_ ?_
  · intro outer members hget
    simp at hget
  · intro groups hgroups c _
    cases houter : Name.outer? c.name with
    | none => exact hgroups
    | some cut =>
      obtain ⟨outer, inner⟩ := cut
      intro other members hget member hmember
      simp only [Table.get?_insert] at hget
      split at hget
      · rename_i hother
        cases hget
        rcases List.mem_append.mp hmember with hold | hnew
        · cases hgroup : groups.get? outer with
          | none => simp [hgroup] at hold
          | some known =>
            rw [hgroup] at hold
            exact hother ▸ hgroups outer known hgroup member hold
        · rw [List.mem_singleton.mp hnew, hother]
          exact ⟨inner, houter⟩
      · exact hgroups other members hget member hmember

theorem MemberGroups.Listed.erase {groups : MemberGroups} (h : groups.Listed) (key : String) :
    MemberGroups.Listed (groups.erase key) := by
  intro outer members hget
  rw [Table.get?_erase] at hget
  split at hget
  · cases hget
  · exact h outer members hget

/-- The renames that a round has found are derived from the table, which has none for these classes. -/
def FoundBeside (classes found : ClassTable) : Prop :=
  ∀ old new, found.get? old = some new → classes.get? old = none ∧ IsDerived classes old new

theorem foundBeside_followers {classes found : ClassTable} {outer newOuter : String} {members : List String}
    (houter : classes.get? outer = some newOuter)
    (hmembers : ∀ member ∈ members, ∃ inner, Name.outer? member = some (outer, inner))
    (hfound : FoundBeside classes found) :
    FoundBeside classes (followers classes newOuter members found) := by
  refine List.foldlRecOn (motive := FoundBeside classes) members _ hfound ?_
  intro found hfound member hmember
  obtain ⟨inner, hcut⟩ := hmembers member hmember
  split
  · exact hfound
  · rename_i hlisted
    simp only [hcut]
    intro old new hget
    rw [Table.get?_insert] at hget
    split at hget
    · rename_i hold
      cases hget
      rw [hold]
      refine ⟨by simpa [Table.contains] using hlisted, outer, inner, newOuter, hcut, houter, rfl⟩
    · exact hfound old new hget

theorem foundBeside_followFrom {classes : ClassTable} {l : List (String × String)}
    (hl : ∀ e ∈ l, classes.get? e.1 = some e.2) {found : ClassTable} {groups : MemberGroups}
    (hfound : FoundBeside classes found) (hgroups : groups.Listed) :
    FoundBeside classes (followFrom classes l found groups).1 ∧
      (followFrom classes l found groups).2.Listed := by
  induction l generalizing found groups with
  | nil => exact ⟨hfound, hgroups⟩
  | cons head rest ih =>
    obtain ⟨hhead, hrest⟩ := List.forall_mem_cons.mp hl
    rw [followFrom]
    cases hget : groups.get? head.1 with
    | none => exact ih hrest hfound hgroups
    | some members =>
      exact ih hrest (foundBeside_followers hhead (hgroups _ _ hget) hfound) (hgroups.erase _)

/-- The added renames are renames of the table, derived from others in it. -/
def AddedTo (classes added : ClassTable) : Prop :=
  ∀ old new, added.get? old = some new → classes.get? old = some new ∧ IsDerived classes old new

/-- What a round has found can be added: the table keeps its renames, so that what was derived from them
still is. -/
theorem AddedTo.union {classes added found : ClassTable} (hadded : AddedTo classes added)
    (hfound : FoundBeside classes found) : AddedTo (classes.union found) (added.union found) := by
  have hkept : ∀ old new, classes.get? old = some new → (classes.union found).get? old = some new := by
    intro old new hget
    have hnone : found.get? old = none := by
      rw [Option.eq_none_iff_forall_ne_some]
      intro other hother
      rw [(hfound old other hother).1] at hget
      cases hget
    rw [Table.get?_union, hnone, Option.none_or, hget]
  have hderived : ∀ old new, IsDerived classes old new → IsDerived (classes.union found) old new := by
    rintro old new ⟨outer, inner, newOuter, hcut, houter, hnew⟩
    exact ⟨outer, inner, newOuter, hcut, hkept _ _ houter, hnew⟩
  intro old new hget
  rw [Table.get?_union] at hget
  rcases Option.or_eq_some_iff.mp hget with hnow | ⟨hnone, hbefore⟩
  · refine ⟨?_, hderived _ _ (hfound old new hnow).2⟩
    rw [Table.get?_union, hnow, Option.some_or]
  · obtain ⟨hlisted, hfrom⟩ := hadded old new hbefore
    exact ⟨hkept _ _ hlisted, hderived _ _ hfrom⟩

theorem addedTo_follow (classes : ClassTable) (groups : MemberGroups) (added : ClassTable)
    (hgroups : groups.Listed) (hadded : AddedTo classes added) :
    AddedTo (follow classes groups added).1 (follow classes groups added).2 := by
  induction classes, groups, added using follow.induct with
  | case1 classes groups added found rest hround hempty =>
    rw [follow, hround]
    simpa [hempty] using hadded
  | case2 classes groups added found rest hround hempty ih =>
    have hall : ∀ e ∈ classes.toList, classes.get? e.1 = some e.2 := fun e he =>
      classes.get?_eq_some_iff.mpr he
    have hnothing : FoundBeside classes Table.empty := fun old new hget => by simp at hget
    have hfound := foundBeside_followFrom hall hnothing hgroups
    rw [followRound] at hround
    rw [hround] at hfound
    rw [follow, followRound, hround]
    simpa [hempty] using ih hfound.2 (hadded.union hfound.1)

theorem Remapper.addedTo_followOuterClasses (r : Remapper) :
    AddedTo r.followOuterClasses.1.classes r.followOuterClasses.2 :=
  addedTo_follow _ _ _ (listed_memberGroups r.targets.classes) fun old new hget => by simp at hget

/-- A class that follows its outer class gets the last part of its old name as its simple name. -/
theorem Renaming.innerName_of_isDerived {r : Renaming} {entry : InnerClass} {new : String}
    (hget : r.classes.get? entry.name = some new) (hderived : IsDerived r.classes entry.name new) :
    (r.innerClass entry).innerName = entry.innerName.map fun _ => Name.simple entry.name := by
  obtain ⟨outer, inner, newOuter, hcut, -, rfl⟩ := hderived
  rw [innerClass]
  simp only [hget]
  rw [Name.simple_nested_of_outer? hcut, Name.simple_of_outer? hcut]

/-- Renames that follow an outer class only replace the name of the outer class. An inner class with such
a rename keeps its simple name through the pass exactly if it has none or the last part of its name is
its simple name. -/
theorem derived_simple_name_kept_iff (r : Remapper) :
    (∀ old new, r.followOuterClasses.2.get? old = some new →
      ∃ outer inner newOuter, Name.outer? old = some (outer, inner) ∧
        r.followOuterClasses.1.className? outer = some newOuter ∧ new = Name.nested newOuter inner) ∧
    ∀ (i j : Nat) (c : Class) (entry : InnerClass), r.targets.classes[i]? = some c →
      c.innerClasses[j]? = some entry → r.followOuterClasses.2.contains entry.name = true →
      ∃ c' entry', r.followOuterClasses.1.process.2.targets.classes[i]? = some c' ∧
        c'.innerClasses[j]? = some entry' ∧
        (entry'.innerName = entry.innerName ↔
          ∀ simple ∈ entry.innerName, simple = Name.simple entry.name) := by
  have hadded := r.addedTo_followOuterClasses
  refine ⟨fun old new hget => (hadded old new hget).2, ?_⟩
  intro i j c entry hc hentry hfollows
  obtain ⟨new, hnew⟩ := Option.isSome_iff_exists.mp hfollows
  obtain ⟨hget, hderived⟩ := hadded entry.name new hnew
  have htarget : r.followOuterClasses.1.targets.classes[i]? = some c := hc
  refine ⟨r.followOuterClasses.1.pending.apply c, r.followOuterClasses.1.pending.innerClass entry, ?_, ?_, ?_⟩
  · rw [Remapper.classes_process, List.getElem?_map, htarget, Option.map_some]
  · rw [Renaming.apply, List.getElem?_map, hentry, Option.map_some]
  · rw [Renaming.innerName_of_isDerived hget hderived]
    cases entry.innerName with
    | none => simp
    | some simple => simp [eq_comm]

namespace Samples

/-- A class with a member class, a local class and an anonymous class. -/
def drawer : Class where
  version := 61
  name := "a/Drawer"
  superName := some "java/lang/Object"
  innerClasses := [
    { name := "a/Drawer$Knob", outerName := some "a/Drawer", innerName := some "Knob" },
    { name := "a/Drawer$1Label", innerName := some "Label" },
    { name := "a/Drawer$1" }]

def inDrawer (name : String) : Class :=
  { version := 61, name, superName := some "java/lang/Object" }

/-- The classes of the drawer, which is about to be moved. -/
def moveDrawer : Remapper :=
  (Remapper.new.addTargets [drawer, inDrawer "a/Drawer$Knob", inDrawer "a/Drawer$1Label",
    inDrawer "a/Drawer$1"]).2.renameClass "a/Drawer" "b/Chest"

end Samples

open Samples in
theorem derived_simple_name_kept_iff_moveDrawer :
    moveDrawer.followOuterClasses.2.get? "a/Drawer$Knob" = some "b/Chest$Knob" ∧
    ∃ c' entry', moveDrawer.followOuterClasses.1.process.2.targets.classes[0]? = some c' ∧
      c'.innerClasses[0]? = some entry' ∧ entry'.innerName = some "Knob" := by
  obtain ⟨-, hkept⟩ := derived_simple_name_kept_iff moveDrawer
  have hfollows : moveDrawer.followOuterClasses.2.get? "a/Drawer$Knob" = some "b/Chest$Knob" := by
    decide +kernel
  obtain ⟨c', entry', hc', hentry', hiff⟩ := hkept 0 0 drawer
    { name := "a/Drawer$Knob", outerName := some "a/Drawer", innerName := some "Knob" } rfl rfl
    (by rw [Table.contains, hfollows]; rfl)
  exact ⟨hfollows, c', entry', hc', hentry', hiff.mpr (by decide +kernel)⟩

/-- A local class that follows its outer class loses its simple name. -/
theorem local_class_loses_simple_name :
    Samples.moveDrawer.followOuterClasses.2.get? "a/Drawer$1Label" = some "b/Chest$1Label" ∧
    (Samples.moveDrawer.targets.classes.map fun c => c.innerClasses.map fun i => (i.name, i.innerName)) =
      [[("a/Drawer$Knob", some "Knob"), ("a/Drawer$1Label", some "Label"), ("a/Drawer$1", none)],
        [], [], []] ∧
    (Samples.moveDrawer.followOuterClasses.1.process.2.targets.classes.map fun c =>
      c.innerClasses.map fun i => (i.name, i.innerName)) =
      [[("b/Chest$Knob", some "Knob"), ("b/Chest$1Label", some "1Label"), ("b/Chest$1", none)],
        [], [], []] := by
  decide +kernel

end Classmith
