import Classmith.Proofs.Rename.InnerNames
import Mathlib.Data.List.Induction

/-!
# Where inner classes end up

The rounds in which inner classes follow their outer classes come to an end with a table that is determined
by the renames at hand and the names of the registered classes: each registered class without a rename of
its own has the name that it gets from its outer class, if that has a new one. A group of inner classes is
looked at once, when its outer class has a new name, and never too early: what it gives does not change any
more.
-/
namespace Classmith

open Signature (ClassTable)

namespace Name

theorem outer?_eq_some_iff {name outer inner : String} :
    outer? name = some (outer, inner) ↔ name = nested outer inner ∧ '$' ∉ inner.toList := by
  constructor
  · intro h
    refine ⟨(nested_of_outer? h).symm, ?_⟩
    obtain ⟨⟨before, after⟩, hcut, heq⟩ := Option.map_eq_some_iff.mp h
    cases heq
    rw [String.toList_ofList]
    exact Text.notMem_of_cutLast? hcut
  · rintro ⟨rfl, hinner⟩
    have hnested : (nested outer inner).toList = outer.toList ++ '$' :: inner.toList := by simp [nested]
    simp [outer?, hnested, Text.cutLast?_append _ hinner]

theorem length_lt_of_outer? {name outer inner : String} (h : outer? name = some (outer, inner)) :
    outer.length < name.length := by
  rw [← nested_of_outer? h, nested, String.length_append, String.length_append]
  have hdollar : "$".length = 1 := rfl
  omega

end Name

/-! ## The fixed point -/

/-- The name that a class gets from its outer class, if that has a new one. -/
def followed? (classes : ClassTable) (name : String) : Option String :=
  (Name.outer? name).bind fun cut => (classes.get? cut.1).map fun new => Name.nested new cut.2

theorem followed?_eq_some_iff {classes : ClassTable} {name new : String} :
    followed? classes name = some new ↔ IsDerived classes name new := by
  rw [followed?, Option.bind_eq_some_iff]
  constructor
  · rintro ⟨⟨outer, inner⟩, hcut, hnew⟩
    obtain ⟨newOuter, houter, rfl⟩ := Option.map_eq_some_iff.mp hnew
    exact ⟨outer, inner, newOuter, hcut, houter, rfl⟩
  · rintro ⟨outer, inner, newOuter, hcut, houter, rfl⟩
    exact ⟨(outer, inner), hcut, Option.map_eq_some_iff.mpr ⟨newOuter, houter, rfl⟩⟩

/-- The table has the renames of the first one, and gives every other of the names what it gets from its outer
class, by the table itself. -/
def Completes (classes start : ClassTable) (names : List String) : Prop :=
  ∀ name, classes.get? name =
    (start.get? name).or (if name ∈ names then followed? classes name else none)

/-- An outer class has a shorter name, so there is no more than one such table. -/
theorem Completes.unique {start t u : ClassTable} {names names' : List String} (ht : Completes t start names)
    (hu : Completes u start names') (hnames : ∀ name, name ∈ names ↔ name ∈ names') : t = u := by
  apply Table.ext_get?
  intro name
  induction hlength : name.length using Nat.strongRecOn generalizing name with
  | _ n ih =>
    have hfollowed : followed? t name = followed? u name := by
      cases hcut : Name.outer? name with
      | none => rw [followed?, followed?, hcut, Option.bind_none, Option.bind_none]
      | some cut =>
        have hshorter := Name.length_lt_of_outer? hcut
        rw [followed?, followed?, hcut, Option.bind_some, Option.bind_some,
          ih _ (hlength ▸ hshorter) cut.1 rfl]
    simp only [ht name, hu name, hfollowed, hnames]

theorem Completes.self {start t : ClassTable} {names : List String} (ht : Completes t start names) :
    Completes t t names := by
  intro name
  cases hget : t.get? name with
  | some new => rfl
  | none =>
    rw [ht name, Option.or_eq_none_iff] at hget
    rw [hget.2]
    rfl

/-! ## A round -/

namespace MemberGroups

/-- The group of the outer class has the member. -/
def Has (groups : MemberGroups) (outer member : String) : Prop :=
  ∃ members, groups.get? outer = some members ∧ member ∈ members

theorem has_insert {groups : MemberGroups} {key outer member : String} {members : List String} :
    Has (groups.insert key members) outer member ↔
      if outer = key then member ∈ members else groups.Has outer member := by
  rw [Has, Table.get?_insert]
  split <;> simp [Has]

theorem has_erase {groups : MemberGroups} {key outer member : String} :
    Has (groups.erase key) outer member ↔ outer ≠ key ∧ groups.Has outer member := by
  rw [Has, Table.get?_erase]
  split <;> simp [Has, *]

theorem mem_getD_iff {groups : MemberGroups} {outer member : String} :
    member ∈ (groups.get? outer).getD [] ↔ groups.Has outer member := by
  cases hget : groups.get? outer <;> simp [Has, hget]

end MemberGroups

theorem memberGroups_append (classes : List Class) (c : Class) :
    memberGroups (classes ++ [c]) = (Name.outer? c.name).elim (memberGroups classes) fun cut =>
      (memberGroups classes).insert cut.1 (((memberGroups classes).get? cut.1).getD [] ++ [c.name]) := by
  simp only [memberGroups, List.foldl_append, List.foldl_cons, List.foldl_nil]
  cases Name.outer? c.name <;> rfl

theorem has_memberGroups_append {classes : List Class} {c : Class} {outer member : String} :
    (memberGroups (classes ++ [c])).Has outer member ↔ (memberGroups classes).Has outer member ∨
      member = c.name ∧ ∃ inner, Name.outer? member = some (outer, inner) := by
  rw [memberGroups_append]
  cases hcut : Name.outer? c.name with
  | none =>
    rw [Option.elim_none, or_iff_left]
    rintro ⟨rfl, inner, hsome⟩
    rw [hcut] at hsome
    cases hsome
  | some cut =>
    rw [Option.elim_some, MemberGroups.has_insert]
    split
    · rename_i houter
      rw [List.mem_append, MemberGroups.mem_getD_iff, List.mem_singleton, houter]
      refine or_congr_right (iff_self_and.mpr ?_)
      rintro rfl
      exact ⟨cut.2, hcut⟩
    · rename_i houter
      rw [or_iff_left]
      rintro ⟨rfl, inner, hsome⟩
      rw [hcut] at hsome
      exact houter (congrArg Prod.fst (Option.some.inj hsome)).symm

theorem has_memberGroups {classes : List Class} {outer member : String} :
    (memberGroups classes).Has outer member ↔
      member ∈ classes.map (·.name) ∧ ∃ inner, Name.outer? member = some (outer, inner) := by
  induction classes using List.reverseRecOn with
  | nil => simp [memberGroups, MemberGroups.Has]
  | append_singleton classes c ih =>
    rw [has_memberGroups_append, ih, ← or_and_right, List.map_append, List.mem_append, List.map_singleton,
      List.mem_singleton]

theorem contains_followers {classes : ClassTable} {newOuter : String} {members : List String}
    (hmembers : ∀ member ∈ members, (Name.outer? member).isSome = true) (found : ClassTable)
    (member : String) :
    (followers classes newOuter members found).contains member = true ↔
      found.contains member = true ∨ member ∈ members ∧ classes.contains member = false := by
  rw [followers]
  induction members generalizing found with
  | nil => simp
  | cons head rest ih =>
    obtain ⟨hhead, hrest⟩ := List.forall_mem_cons.mp hmembers
    obtain ⟨cut, hcut⟩ := Option.isSome_iff_exists.mp hhead
    rw [List.foldl_cons, ih hrest]
    cases hlisted : classes.contains head with
    | true =>
      simp only [if_true, List.mem_cons, or_and_right]
      refine or_congr_right (iff_or_self.mpr ?_)
      rintro ⟨rfl, hnot⟩
      rw [hlisted] at hnot
      cases hnot
    | false =>
      simp only [Bool.false_eq_true, if_false, hcut, Table.contains, Table.get?_insert, List.mem_cons,
        or_and_right]
      by_cases hmember : member = head
      · have hnone : classes.get? head = none := by simpa [Table.contains] using hlisted
        simp [hmember, hnone]
      · simp [hmember]

theorem MemberGroups.Listed.isSome {groups : MemberGroups} (hgroups : groups.Listed) {outer : String}
    {members : List String} (hget : groups.get? outer = some members) (member : String)
    (hmember : member ∈ members) : (Name.outer? member).isSome = true := by
  obtain ⟨inner, hcut⟩ := hgroups outer members hget member hmember
  rw [hcut]
  rfl

theorem contains_followFrom {classes : ClassTable} {l : List (String × String)} {found : ClassTable}
    {groups : MemberGroups} (hgroups : groups.Listed) (member : String) :
    (followFrom classes l found groups).1.contains member = true ↔ found.contains member = true ∨
      classes.contains member = false ∧ ∃ e ∈ l, groups.Has e.1 member := by
  induction l generalizing found groups with
  | nil => simp [followFrom]
  | cons head rest ih =>
    rw [followFrom]
    cases hget : groups.get? head.1 with
    | none =>
      have hhead : ¬groups.Has head.1 member := by simp [MemberGroups.Has, hget]
      simp only [ih hgroups, List.mem_cons, exists_eq_or_imp, hhead, false_or]
    | some members =>
      have hhead : groups.Has head.1 member ↔ member ∈ members := by simp [MemberGroups.Has, hget]
      simp only [ih (hgroups.erase head.1), contains_followers (hgroups.isSome hget), MemberGroups.has_erase,
        List.mem_cons, exists_eq_or_imp, ← hhead, or_assoc]
      refine or_congr_right ⟨?_, ?_⟩
      · rintro (⟨hmember, hnot⟩ | ⟨hnot, e, he, -, hhas⟩)
        · exact ⟨hnot, Or.inl hmember⟩
        · exact ⟨hnot, Or.inr ⟨e, he, hhas⟩⟩
      · rintro ⟨hnot, hmember | ⟨e, he, hhas⟩⟩
        · exact Or.inl ⟨hmember, hnot⟩
        · by_cases hsame : e.1 = head.1
          · exact Or.inl ⟨hsame ▸ hhas, hnot⟩
          · exact Or.inr ⟨hnot, e, he, hsame, hhas⟩

theorem has_followFrom {classes : ClassTable} {l : List (String × String)} {found : ClassTable}
    {groups : MemberGroups} {outer member : String} :
    (followFrom classes l found groups).2.Has outer member ↔
      outer ∉ l.map (·.1) ∧ groups.Has outer member := by
  induction l generalizing found groups with
  | nil => simp [followFrom]
  | cons head rest ih =>
    rw [followFrom, List.map_cons, List.mem_cons, not_or]
    cases hget : groups.get? head.1 with
    | none =>
      simp only [ih]
      constructor
      · rintro ⟨hrest, hhas⟩
        refine ⟨⟨?_, hrest⟩, hhas⟩
        rintro rfl
        obtain ⟨members, hsome, -⟩ := hhas
        rw [hget] at hsome
        cases hsome
      · rintro ⟨⟨-, hrest⟩, hhas⟩
        exact ⟨hrest, hhas⟩
    | some members =>
      simp only [ih, MemberGroups.has_erase]
      rw [← and_assoc, and_comm (a := outer ∉ _)]

/-- A round finds exactly the members without a new name in groups whose outer class has one. -/
theorem contains_followRound {classes : ClassTable} {groups : MemberGroups} (hgroups : groups.Listed)
    (member : String) : (followRound classes groups).1.contains member = true ↔
      classes.contains member = false ∧ ∃ outer, classes.contains outer = true ∧ groups.Has outer member := by
  rw [followRound, contains_followFrom hgroups]
  have hempty : (Table.empty : ClassTable).contains member = false := rfl
  rw [hempty, Bool.false_eq_true, false_or]
  refine and_congr_right fun _ => ⟨?_, ?_⟩
  · rintro ⟨e, he, hhas⟩
    exact ⟨e.1, (classes.mem_keys_iff).mp (List.mem_map_of_mem he), hhas⟩
  · rintro ⟨outer, houter, hhas⟩
    obtain ⟨e, he, rfl⟩ := List.mem_map.mp (classes.mem_keys_iff.mpr houter)
    exact ⟨e, he, hhas⟩

/-- The groups of outer classes without a new name are left. -/
theorem has_followRound {classes : ClassTable} {groups : MemberGroups} {outer member : String} :
    (followRound classes groups).2.Has outer member ↔
      classes.contains outer = false ∧ groups.Has outer member := by
  rw [followRound, has_followFrom, ← Bool.not_eq_true, ← classes.mem_keys_iff]
  rfl

theorem listed_followRound {classes : ClassTable} {groups : MemberGroups} (hgroups : groups.Listed) :
    FoundBeside classes (followRound classes groups).1 ∧ (followRound classes groups).2.Listed :=
  foundBeside_followFrom (fun _ he => classes.get?_eq_some_iff.mpr he)
    (fun _ _ hget => by simp at hget) hgroups

/-! ## All rounds -/

/-- The renames, the groups not yet looked at and the renames added, at some point of the rounds. -/
structure FollowState where
  classes : ClassTable
  groups : MemberGroups
  added : ClassTable

namespace FollowState

/-- What a round finds. -/
def found (s : FollowState) : ClassTable := (followRound s.classes s.groups).1

def next (s : FollowState) : FollowState where
  classes := s.classes.union s.found
  groups := (followRound s.classes s.groups).2
  added := s.added.union s.found

def after : Nat → FollowState → FollowState
  | 0, s => s
  | n + 1, s => after n s.next

end FollowState

/-- The rounds come to one that finds nothing, after as many as there are groups at the most. -/
theorem follow_eq_after (s : FollowState) : ∃ n ≤ s.groups.size, (s.after n).found.isEmpty = true ∧
    (∀ m < n, (s.after m).found.isEmpty = false) ∧
    follow s.classes s.groups s.added = ((s.after n).classes, (s.after n).added) := by
  obtain ⟨classes, groups, added⟩ := s
  induction classes, groups, added using follow.induct with
  | case1 classes groups added found rest hround hempty =>
    refine ⟨0, Nat.zero_le _, ?_, fun m hm => absurd hm (Nat.not_lt_zero m), ?_⟩
    · rw [FollowState.after, FollowState.found, hround]
      exact hempty
    · rw [follow, hround]
      simp [hempty, FollowState.after]
  | case2 classes groups added found rest hround hempty ih =>
    obtain ⟨n, hn, hlast, hbefore, heq⟩ := ih
    have hfound : FollowState.found ⟨classes, groups, added⟩ = found := by rw [FollowState.found, hround]
    have hnext : FollowState.next ⟨classes, groups, added⟩ =
        ⟨classes.union found, rest, added.union found⟩ := by
      rw [FollowState.next, hfound, hround]
    have hsmaller : rest.size < groups.size := by
      have hround' := size_followRound classes groups
      rw [hround] at hround'
      refine hround'.resolve_right fun hnone => hempty ?_
      rw [show found = Table.empty from hnone]
      rfl
    refine ⟨n + 1, Nat.lt_of_le_of_lt hn hsmaller, ?_, ?_, ?_⟩
    · rw [FollowState.after, hnext]
      exact hlast
    · intro m hm
      cases m with
      | zero => rw [FollowState.after, hfound, Bool.eq_false_iff]; exact hempty
      | succ m =>
        rw [FollowState.after, hnext]
        exact hbefore m (Nat.lt_of_succ_lt_succ hm)
    · rw [FollowState.after, hnext, ← heq, follow, hround]
      simp [hempty]

/-- The renames at some point of the rounds are those at the start and those added, for registered classes
that had none. Every registered inner class has a new name or is still in the group of its outer class. -/
structure Pending (start : ClassTable) (names : List String) (s : FollowState) : Prop where
  listed : s.groups.Listed
  table : ∀ name, s.classes.get? name = (start.get? name).or (s.added.get? name)
  registered : ∀ name, s.added.contains name = true → start.get? name = none ∧ name ∈ names
  members : ∀ outer name, s.groups.Has outer name → name ∈ names
  waiting : ∀ name ∈ names, ∀ outer inner, Name.outer? name = some (outer, inner) →
    s.groups.Has outer name ∨ s.classes.contains name = true

theorem Table.contains_union {α : Type} (t other : Table α) (key : String) :
    (t.union other).contains key = true ↔ other.contains key = true ∨ t.contains key = true := by
  rw [contains, get?_union, Option.isSome_or, Bool.or_eq_true]
  rfl

namespace Pending

variable {start : ClassTable} {names : List String} {s : FollowState}

theorem next (h : Pending start names s) : Pending start names s.next where
  listed := (listed_followRound h.listed).2
  table name := by
    rw [FollowState.next, Table.get?_union, Table.get?_union, h.table]
    cases hfound : s.found.get? name with
    | none => rfl
    | some new =>
      have hnone := ((listed_followRound h.listed).1 name new hfound).1
      rw [h.table, Option.or_eq_none_iff] at hnone
      rw [hnone.1]
      rfl
  registered name hadded := by
    rcases (Table.contains_union s.added _ name).mp hadded with hfound | hadded
    · obtain ⟨hnone, outer, -, hhas⟩ := (contains_followRound h.listed name).mp hfound
      rw [Table.contains, h.table, Option.isSome_eq_false_iff, Option.isNone_iff_eq_none,
        Option.or_eq_none_iff] at hnone
      exact ⟨hnone.1, h.members outer name hhas⟩
    · exact h.registered name hadded
  members outer name hhas := h.members outer name (has_followRound.mp hhas).2
  waiting name hname outer inner hcut := by
    rw [FollowState.next, Table.contains_union, FollowState.found, contains_followRound h.listed,
      has_followRound]
    cases hlisted : s.classes.contains name with
    | true => exact Or.inr (Or.inr rfl)
    | false =>
      have hhas := (h.waiting name hname outer inner hcut).resolve_right (by simp [hlisted])
      cases houter : s.classes.contains outer with
      | true => exact Or.inr (Or.inl ⟨rfl, outer, houter, hhas⟩)
      | false => exact Or.inl ⟨rfl, hhas⟩

theorem after (h : Pending start names s) (n : Nat) : Pending start names (s.after n) := by
  induction n generalizing s with
  | zero => exact h
  | succ n ih => exact ih h.next

/-- Where a round finds nothing, every registered inner class of a renamed class has a new name. -/
theorem contains_of_outer (h : Pending start names s) (hlast : s.found.isEmpty = true)
    {name outer inner : String} (hname : name ∈ names) (hcut : Name.outer? name = some (outer, inner))
    (houter : s.classes.contains outer = true) : s.classes.contains name = true := by
  rcases h.waiting name hname outer inner hcut with hhas | hdone
  · cases hlisted : s.classes.contains name with
    | true => rfl
    | false =>
      have hfound : s.found.contains name = true :=
        (contains_followRound h.listed name).mpr ⟨hlisted, outer, houter, hhas⟩
      have hempty : s.found.entries = [] := List.isEmpty_iff.mp hlast
      rw [← Table.mem_keys_iff, Table.keys, hempty] at hfound
      cases hfound
  · exact hdone

theorem completes (h : Pending start names s) (hadded : AddedTo s.classes s.added)
    (hlast : s.found.isEmpty = true) : Completes s.classes start names := by
  intro name
  rw [h.table name]
  cases hstart : start.get? name with
  | some new => rfl
  | none =>
    rw [Option.none_or, Option.none_or]
    cases hnew : s.added.get? name with
    | some new =>
      have hname := (h.registered name (by rw [Table.contains, hnew]; rfl)).2
      rw [if_pos hname, followed?_eq_some_iff.mpr (hadded name new hnew).2]
    | none =>
      split
      · rename_i hname
        symm
        rw [Option.eq_none_iff_forall_ne_some]
        intro new hfollowed
        obtain ⟨outer, inner, newOuter, hcut, houter, -⟩ := followed?_eq_some_iff.mp hfollowed
        have hcontains := h.contains_of_outer hlast hname hcut (by rw [Table.contains, houter]; rfl)
        rw [Table.contains, h.table, hstart, hnew] at hcontains
        cases hcontains
      · rfl

end Pending

/-! ## What the remapper does -/

theorem Table.size_put_le {α : Type} (key : String) (value : α) (l : List (String × α)) :
    (put key value l).length ≤ l.length + 1 := by
  induction l with
  | nil => exact Nat.le_refl _
  | cons head rest ih =>
    obtain ⟨k, v⟩ := head
    simp only [put]
    split
    · exact Nat.le_refl _
    · split
      · exact Nat.le_succ _
      · exact Nat.succ_le_succ ih

theorem size_memberGroups_le (classes : List Class) : (memberGroups classes).size ≤ classes.length := by
  induction classes using List.reverseRecOn with
  | nil => exact Nat.le_refl _
  | append_singleton classes c ih =>
    rw [memberGroups_append, List.length_append, List.length_singleton]
    cases Name.outer? c.name with
    | none => exact Nat.le_succ_of_le ih
    | some cut => exact Nat.le_trans (Table.size_put_le _ _ _) (Nat.succ_le_succ ih)

namespace Remapper

/-- The point at which a remapper begins to look for inner classes. -/
def followStart (r : Remapper) : FollowState := ⟨r.classes, memberGroups r.targets.classes, Table.empty⟩

theorem pending_followStart (r : Remapper) : Pending r.classes r.targets.names r.followStart where
  listed := listed_memberGroups r.targets.classes
  table _ := by rw [followStart, Table.get?_empty, Option.or_none]
  registered _ hadded := by cases hadded
  members _ _ hhas := (has_memberGroups.mp hhas).1
  waiting name hname outer inner hcut := Or.inl (has_memberGroups.mpr ⟨hname, inner, hcut⟩)

theorem exists_followOuterClasses (r : Remapper) : ∃ n ≤ r.targets.classes.length,
    (r.followStart.after n).found.isEmpty = true ∧ (∀ m < n, (r.followStart.after m).found.isEmpty = false) ∧
    r.followOuterClasses =
      ({ r with classes := (r.followStart.after n).classes }, (r.followStart.after n).added) := by
  obtain ⟨n, hn, hlast, hbefore, heq⟩ := follow_eq_after r.followStart
  refine ⟨n, Nat.le_trans hn (size_memberGroups_le r.targets.classes), hlast, hbefore, ?_⟩
  rw [followStart] at heq
  rw [followOuterClasses, heq]
  rfl

theorem get?_added (r : Remapper) (name new : String) : r.followOuterClasses.2.get? name = some new ↔
    r.className? name = none ∧ r.followOuterClasses.1.className? name = some new := by
  obtain ⟨n, -, -, -, heq⟩ := r.exists_followOuterClasses
  have hpending := r.pending_followStart.after n
  simp only [heq, className?, hpending.table name]
  constructor
  · intro hnew
    have hnone := (hpending.registered name (by rw [Table.contains, hnew]; rfl)).1
    exact ⟨hnone, by rw [hnone]; exact hnew⟩
  · rintro ⟨hnone, hnew⟩
    rwa [hnone, Option.none_or] at hnew

theorem completes_followOuterClasses (r : Remapper) :
    Completes r.followOuterClasses.1.classes r.classes r.targets.names := by
  obtain ⟨n, -, hlast, -, heq⟩ := r.exists_followOuterClasses
  have hadded := r.addedTo_followOuterClasses
  rw [heq] at hadded ⊢
  exact (r.pending_followStart.after n).completes hadded hlast

/-- Remappers with the same renames and registered classes of the same names come to the same renames. -/
theorem followOuterClasses_eq {r other : Remapper} (hclasses : other.classes = r.classes)
    (hnames : ∀ name, name ∈ other.targets.names ↔ name ∈ r.targets.names) :
    other.followOuterClasses.1.classes = r.followOuterClasses.1.classes ∧
      other.followOuterClasses.2 = r.followOuterClasses.2 := by
  have hsame : other.followOuterClasses.1.classes = r.followOuterClasses.1.classes := by
    have hother := other.completes_followOuterClasses
    rw [hclasses] at hother
    exact hother.unique r.completes_followOuterClasses hnames
  refine ⟨hsame, Table.ext_get? fun name => Option.ext fun new => ?_⟩
  rw [get?_added, get?_added, className?, className?, className?, className?, hclasses, hsame]

theorem followOuterClasses_twice (r : Remapper) :
    r.followOuterClasses.1.followOuterClasses = (r.followOuterClasses.1, Table.empty) := by
  have hsame : r.followOuterClasses.1.followOuterClasses.1.classes = r.followOuterClasses.1.classes :=
    r.followOuterClasses.1.completes_followOuterClasses.unique r.completes_followOuterClasses.self
      fun _ => Iff.rfl
  refine Prod.ext ?_ (Table.ext_get? fun name => Option.ext fun new => ?_)
  · exact congrArg (fun classes => { r.followOuterClasses.1 with classes }) hsame
  · rw [get?_added, className?, className?, hsame]
    constructor
    · rintro ⟨hnone, hsome⟩
      rw [hnone] at hsome
      cases hsome
    · intro hsome
      cases hsome

/-- Inner classes follow their outer classes. The renames at hand stay. A rename is added only for a
registered class without one and with a dollar sign in its name. Such a class has the new name of its outer
class, if that has one, with the rest of its own name, and else none. Exactly these renames are returned.
Neither they nor the table depend on the order of registration, and a second call adds nothing. There are no
more rounds than registered classes before the one that finds nothing. -/
theorem inner_classes_follow (r : Remapper) :
    (∀ name new, r.className? name = some new → r.followOuterClasses.1.className? name = some new) ∧
    (∀ name, r.className? name = none → (r.followOuterClasses.1.className? name).isSome = true →
      name ∈ r.targets.names ∧ '$' ∈ name.toList) ∧
    (∀ outer inner, '$' ∉ inner.toList → Name.nested outer inner ∈ r.targets.names →
      r.className? (Name.nested outer inner) = none →
      r.followOuterClasses.1.className? (Name.nested outer inner) =
        (r.followOuterClasses.1.className? outer).map fun new => Name.nested new inner) ∧
    (∀ name new, r.followOuterClasses.2.get? name = some new ↔
      r.className? name = none ∧ r.followOuterClasses.1.className? name = some new) ∧
    (∀ other : Remapper, other.classes = r.classes → other.targets.names.Perm r.targets.names →
      other.followOuterClasses.1.classes = r.followOuterClasses.1.classes ∧
        other.followOuterClasses.2 = r.followOuterClasses.2) ∧
    r.followOuterClasses.1.followOuterClasses = (r.followOuterClasses.1, Table.empty) ∧
    ∃ n ≤ r.targets.classes.length, (r.followStart.after n).found.isEmpty = true ∧
      (∀ m < n, (r.followStart.after m).found.isEmpty = false) ∧
      r.followOuterClasses =
        ({ r with classes := (r.followStart.after n).classes }, (r.followStart.after n).added) := by
  have hcompletes := r.completes_followOuterClasses
  refine ⟨?_, ?_, ?_, r.get?_added, ?_, r.followOuterClasses_twice, r.exists_followOuterClasses⟩
  · intro name new hget
    rw [className?] at hget
    rw [className?, hcompletes name, hget, Option.some_or]
  · intro name hnone hsome
    rw [className?] at hnone
    rw [className?, hcompletes name, hnone, Option.none_or] at hsome
    split at hsome
    · rename_i hname
      obtain ⟨new, hnew⟩ := Option.isSome_iff_exists.mp hsome
      obtain ⟨outer, inner, newOuter, hcut, -, -⟩ := followed?_eq_some_iff.mp hnew
      refine ⟨hname, ?_⟩
      rw [← Name.nested_of_outer? hcut]
      simp [Name.nested]
    · cases hsome
  · intro outer inner hinner hname hnone
    rw [className?] at hnone
    rw [className?, hcompletes, hnone, Option.none_or, if_pos hname, followed?,
      Name.outer?_eq_some_iff.mpr ⟨rfl, hinner⟩]
    rfl
  · intro other hclasses hperm
    exact followOuterClasses_eq hclasses fun _ => hperm.mem_iff

end Remapper

namespace Samples

/-- Classes at several depths, one with a rename of its own between its outer and its inner class. -/
def nestedNames : List String :=
  ["a/Case$Tray$Slot", "a/Case$Tray", "a/Case", "a/Case$Lid", "a/Case$Lid$Hinge", "a/Loose$Part"]

def moveCase (names : List String) : Remapper :=
  ((Remapper.new.addTargets (names.map inDrawer)).2.renameClass "a/Case" "b/Box").renameClass
    "a/Case$Lid" "c/Cover"

end Samples

open Samples in
theorem inner_classes_follow_moveCase :
    (moveCase nestedNames).followOuterClasses.1.className? "a/Case$Tray$Slot" = some "b/Box$Tray$Slot" ∧
    (moveCase nestedNames).followOuterClasses.1.className? "a/Case$Lid$Hinge" = some "c/Cover$Hinge" ∧
    (moveCase nestedNames).followOuterClasses.1.className? "a/Loose$Part" = none ∧
    (moveCase nestedNames.reverse).followOuterClasses.2 = (moveCase nestedNames).followOuterClasses.2 := by
  obtain ⟨hkept, honly, hfollows, -, horder, -⟩ := (moveCase nestedNames).inner_classes_follow
  have hcase := hkept "a/Case" "b/Box" (by decide +kernel)
  have hlid := hkept "a/Case$Lid" "c/Cover" (by decide +kernel)
  have htray := hfollows "a/Case" "Tray" (by decide) (by decide +kernel) (by decide +kernel)
  have hslot := hfollows "a/Case$Tray" "Slot" (by decide) (by decide +kernel) (by decide +kernel)
  have hhinge := hfollows "a/Case$Lid" "Hinge" (by decide) (by decide +kernel) (by decide +kernel)
  have hpart := hfollows "a/Loose" "Part" (by decide) (by decide +kernel) (by decide +kernel)
  refine ⟨?_, ?_, ?_, (horder (moveCase nestedNames.reverse) rfl ?_).2⟩
  · rw [hcase] at htray
    rw [show "a/Case$Tray" = Name.nested "a/Case" "Tray" from rfl, htray] at hslot
    exact hslot
  · rw [hlid] at hhinge
    exact hhinge
  · have hloose : (moveCase nestedNames).followOuterClasses.1.className? "a/Loose" = none := by
      rw [← Option.not_isSome_iff_eq_none]
      intro hsome
      exact absurd (honly "a/Loose" (by decide +kernel) hsome).1 (by decide +kernel)
    rw [hloose] at hpart
    exact hpart
  · have hreverse : (moveCase nestedNames.reverse).targets.names =
        (moveCase nestedNames).targets.names.reverse := by decide +kernel
    rw [hreverse]
    exact List.reverse_perm _

end Classmith
