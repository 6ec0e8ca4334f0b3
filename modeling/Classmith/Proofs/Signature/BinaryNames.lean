import Classmith.Proofs.Signature.Substitution
import Classmith.Proofs.Signature.Undoing

/-!
# Binary names of class types

A class type with member classes names a class at every dot: the outermost one as it is written, a member
by the name of its outer class, `$` and its simple name. Renaming writes the new names of all these classes
as long as each renamed member stays inside the new name of its outer class. Where it does not, its new
name cannot be written after the dot, and the class type keeps a simple name that no longer fits.
-/
namespace Classmith.Signature

/-- The names in a class type, without the type arguments. -/
structure ClassType where
  outermost : String
  members : List String
deriving DecidableEq, Repr

/-- The binary names from an outer class on, and of the members in it. -/
def binaryNames (outer : String) : List String → List String
  | [] => [outer]
  | name :: rest => outer :: binaryNames (Name.nested outer name) rest

def ClassType.binaryNames (c : ClassType) : List String := Signature.binaryNames c.outermost c.members

/-! ## Class types of a signature -/

def Members.simpleNames : Members → List String
  | .nil => []
  | .cons name _ rest => name :: rest.simpleNames

mutual

/-- The class types in a type, at any depth, from left to right. -/
def TypeSig.classTypes : TypeSig → List ClassType
  | .base _ => []
  | .typeVar _ => []
  | .array element => element.classTypes
  | .object name arguments members =>
    ⟨name, members.simpleNames⟩ :: arguments.classTypes ++ members.classTypes

def Arguments.classTypes : Arguments → List ClassType
  | .absent => []
  | .given list => list.classTypes

def ArgumentList.classTypes : ArgumentList → List ClassType
  | .nil => []
  | .any rest => rest.classTypes
  | .type _ type rest => type.classTypes ++ rest.classTypes

/-- The class types in the arguments of member classes. -/
def Members.classTypes : Members → List ClassType
  | .nil => []
  | .cons _ arguments rest => arguments.classTypes ++ rest.classTypes

end

def Tree.classTypes (t : Tree) : List ClassType := t.types.flatMap TypeSig.classTypes

/-! ## Renaming class types -/

section

variable (classes : ClassTable)

/-- The simple names written for members of the outer class with the given old and new binary names. -/
def newMembers (oldOuter newOuter : String) : List String → List String
  | [] => []
  | name :: rest => newMember classes oldOuter newOuter name ::
      newMembers (Name.nested oldOuter name) (newBinary classes oldOuter newOuter name) rest

def ClassType.rename (c : ClassType) : ClassType where
  outermost := newName classes c.outermost
  members := newMembers classes c.outermost (newName classes c.outermost) c.members

theorem Members.simpleNames_rename (oldOuter newOuter : String) (m : Members) :
    (m.rename classes oldOuter newOuter).simpleNames =
      newMembers classes oldOuter newOuter m.simpleNames := by
  cases m with
  | nil => rfl
  | cons name arguments rest =>
    simp [Members.rename, Members.simpleNames, newMembers, Members.simpleNames_rename _ _ rest]
termination_by structural m

mutual

theorem TypeSig.classTypes_rename (t : TypeSig) :
    (t.rename classes).classTypes = t.classTypes.map (ClassType.rename classes) := by
  match t with
  | .base letter => rfl
  | .typeVar name => rfl
  | .array element => exact TypeSig.classTypes_rename element
  | .object name arguments members =>
    simp [TypeSig.rename, TypeSig.classTypes, ClassType.rename, newName,
      Members.simpleNames_rename, Arguments.classTypes_rename arguments,
      Members.classTypes_rename name _ members]

theorem Arguments.classTypes_rename (a : Arguments) :
    (a.rename classes).classTypes = a.classTypes.map (ClassType.rename classes) := by
  match a with
  | .absent => rfl
  | .given list => exact ArgumentList.classTypes_rename list

theorem ArgumentList.classTypes_rename (l : ArgumentList) :
    (l.rename classes).classTypes = l.classTypes.map (ClassType.rename classes) := by
  match l with
  | .nil => rfl
  | .any rest => exact ArgumentList.classTypes_rename rest
  | .type bound type rest =>
    simp [ArgumentList.rename, ArgumentList.classTypes, TypeSig.classTypes_rename type,
      ArgumentList.classTypes_rename rest]

theorem Members.classTypes_rename (oldOuter newOuter : String) (m : Members) :
    (m.rename classes oldOuter newOuter).classTypes = m.classTypes.map (ClassType.rename classes) := by
  match m with
  | .nil => rfl
  | .cons name arguments rest =>
    simp [Members.rename, Members.classTypes, Arguments.classTypes_rename arguments,
      Members.classTypes_rename _ _ rest]

end

theorem Formal.types_rename (f : Formal) :
    (f.rename classes).types = f.types.map (TypeSig.rename classes) := by
  cases hclass : f.classBound <;> simp [Formal.types, Formal.rename, hclass]

theorem Item.types_rename (item : Item) :
    (item.rename classes).types = item.types.map (TypeSig.rename classes) := by
  cases item <;> rfl

theorem Tree.types_rename (t : Tree) : (t.rename classes).types = t.types.map (TypeSig.rename classes) := by
  obtain ⟨formals, items⟩ := t
  rw [Tree.rename_eq]
  cases formals <;>
    simp [Tree.types, List.map_flatMap, List.flatMap_map, Formal.types_rename, Item.types_rename]

theorem Tree.classTypes_rename (t : Tree) :
    (t.rename classes).classTypes = t.classTypes.map (ClassType.rename classes) := by
  simp [Tree.classTypes, Tree.types_rename, List.map_flatMap, List.flatMap_map,
    TypeSig.classTypes_rename]

end

/-! ## Members that stay inside -/

section

variable (classes : ClassTable)

/-- The new names of an outer class and of the members in it: what the table says, and otherwise the old
simple name inside the new name of the outer class. -/
def newNames (oldOuter newOuter : String) : List String → List String
  | [] => [newOuter]
  | name :: rest => newOuter ::
      newNames (Name.nested oldOuter name) (newBinary classes oldOuter newOuter name) rest

/-- If the table renames the member, its new name is inside the new name of its outer class. -/
def StaysInside (oldOuter newOuter name : String) : Prop :=
  ∀ new, classes.get? (Name.nested oldOuter name) = some new →
    ∃ simple, new = Name.nested newOuter simple

def AllStayInside (oldOuter newOuter : String) : List String → Prop
  | [] => True
  | name :: rest => StaysInside classes oldOuter newOuter name ∧
      AllStayInside (Name.nested oldOuter name) (newBinary classes oldOuter newOuter name) rest

def ClassType.newNames (c : ClassType) : List String :=
  Signature.newNames classes c.outermost (newName classes c.outermost) c.members

/-- Every member class that the table renames stays inside the new name of its outer class. -/
def ClassType.StaysNested (c : ClassType) : Prop :=
  AllStayInside classes c.outermost (newName classes c.outermost) c.members

instance (oldOuter newOuter name : String) : Decidable (StaysInside classes oldOuter newOuter name) :=
  decidable_of_iff
    (∀ new ∈ classes.get? (Name.nested oldOuter name), (memberName? newOuter new).isSome = true)
    (forall₂_congr fun new _ => by simp [Option.isSome_iff_exists, memberName?_eq_some_iff, Name.nested])

instance decidableAllStayInside : (oldOuter newOuter : String) → (members : List String) →
    Decidable (AllStayInside classes oldOuter newOuter members)
  | _, _, [] => isTrue trivial
  | oldOuter, newOuter, name :: rest =>
    have := decidableAllStayInside (Name.nested oldOuter name)
      (newBinary classes oldOuter newOuter name) rest
    inferInstanceAs (Decidable (_ ∧ _))

instance (c : ClassType) : Decidable (c.StaysNested classes) :=
  decidableAllStayInside classes c.outermost (newName classes c.outermost) c.members

/-- Names that the table renames have their new names in the same places of the other list. -/
def NamesFollow (old new : List String) : Prop :=
  ∀ (i : Nat) b b', old[i]? = some b → classes.get? b = some b' → new[i]? = some b'

end

section

variable {classes : ClassTable}

theorem namesFollow_cons {b b' : String} {old new : List String} :
    NamesFollow classes (b :: old) (b' :: new) ↔
      (∀ c, classes.get? b = some c → b' = c) ∧ NamesFollow classes old new := by
  constructor
  · intro h
    refine ⟨fun c hc => ?_, fun i => ?_⟩
    · simpa using h 0 b c rfl hc
    · simpa using h (i + 1)
  · rintro ⟨hfirst, hrest⟩ (_ | i) a a' ha ha'
    · cases ha
      simp [hfirst a' ha']
    · simpa using hrest i a a' (by simpa using ha) ha'

theorem getElem?_zero_binaryNames (outer : String) (members : List String) :
    (binaryNames outer members)[0]? = some outer := by
  cases members <;> rfl

theorem newBinary_eq {oldOuter newOuter name new : String}
    (h : classes.get? (Name.nested oldOuter name) = some new) :
    newBinary classes oldOuter newOuter name = new := by
  simp [newBinary, h]

/-- A member that stays inside is written so that its new name can be read off. -/
theorem StaysInside.nested_newMember {oldOuter newOuter name : String}
    (h : StaysInside classes oldOuter newOuter name) :
    Name.nested newOuter (newMember classes oldOuter newOuter name) =
      newBinary classes oldOuter newOuter name := by
  have hinside : ∃ simple, newBinary classes oldOuter newOuter name = Name.nested newOuter simple := by
    cases hget : classes.get? (Name.nested oldOuter name) with
    | none => exact ⟨name, by simp [newBinary, hget]⟩
    | some new =>
      obtain ⟨simple, hnew⟩ := h new hget
      exact ⟨simple, (newBinary_eq hget).trans hnew⟩
  obtain ⟨simple, hsimple⟩ := hinside
  rw [newMember, hsimple, memberName?_nested, Option.getD_some]

theorem binaryNames_newMembers {oldOuter newOuter : String} {members : List String}
    (h : AllStayInside classes oldOuter newOuter members) :
    binaryNames newOuter (newMembers classes oldOuter newOuter members) =
      newNames classes oldOuter newOuter members := by
  induction members generalizing oldOuter newOuter with
  | nil => rfl
  | cons name rest ih =>
    obtain ⟨hname, hrest⟩ := h
    rw [newMembers, binaryNames, newNames, hname.nested_newMember, ih hrest]

/-- The binary names follow the table exactly if every renamed member stays inside. The induction goes
down the members as long as the class that is written is the new one. -/
theorem namesFollow_newMembers_iff {oldOuter newOuter : String} {members : List String}
    (houter : ∀ c, classes.get? oldOuter = some c → newOuter = c) :
    NamesFollow classes (binaryNames oldOuter members)
        (binaryNames newOuter (newMembers classes oldOuter newOuter members)) ↔
      AllStayInside classes oldOuter newOuter members := by
  induction members generalizing oldOuter newOuter with
  | nil =>
    refine iff_of_true ?_ trivial
    exact namesFollow_cons.mpr ⟨houter, fun i b b' hb => by simp at hb⟩
  | cons name rest ih =>
    rw [newMembers, binaryNames, binaryNames, namesFollow_cons, AllStayInside]
    by_cases hname : StaysInside classes oldOuter newOuter name
    · have hrest : NamesFollow classes (binaryNames (Name.nested oldOuter name) rest)
          (binaryNames (newBinary classes oldOuter newOuter name)
            (newMembers classes (Name.nested oldOuter name) (newBinary classes oldOuter newOuter name)
              rest)) ↔
          AllStayInside classes (Name.nested oldOuter name) (newBinary classes oldOuter newOuter name)
            rest := ih fun c hc => newBinary_eq hc
      rw [hname.nested_newMember, hrest]
      exact and_congr_left' (iff_of_true houter hname)
    · -- the member is written inside the new outer class, where its new name is not
      refine iff_of_false (fun hfollow => hname fun new hnew => ?_) (fun hstay => hname hstay.1)
      have hwritten := hfollow.2 0 _ new (getElem?_zero_binaryNames _ rest) hnew
      rw [getElem?_zero_binaryNames] at hwritten
      exact ⟨_, (Option.some.inj hwritten).symm⟩

theorem length_binaryNames (outer : String) (members : List String) :
    (binaryNames outer members).length = members.length + 1 := by
  induction members generalizing outer with
  | nil => rfl
  | cons name rest ih => simp [binaryNames, ih]

theorem length_newMembers (oldOuter newOuter : String) (members : List String) :
    (newMembers classes oldOuter newOuter members).length = members.length := by
  induction members generalizing oldOuter newOuter with
  | nil => rfl
  | cons name rest ih => simp [newMembers, ih]

namespace ClassType

theorem length_binaryNames_rename (c : ClassType) :
    (c.rename classes).binaryNames.length = c.binaryNames.length := by
  show (Signature.binaryNames _ _).length = (Signature.binaryNames _ _).length
  rw [Signature.length_binaryNames, Signature.length_binaryNames, rename, length_newMembers]

theorem namesFollow_rename_iff (c : ClassType) :
    NamesFollow classes c.binaryNames (c.rename classes).binaryNames ↔ c.StaysNested classes := by
  have houter : ∀ new, classes.get? c.outermost = some new → newName classes c.outermost = new := by
    intro new hnew
    simp [newName, hnew]
  exact namesFollow_newMembers_iff houter

theorem StaysNested.binaryNames_rename {c : ClassType} (h : c.StaysNested classes) :
    (c.rename classes).binaryNames = c.newNames classes :=
  binaryNames_newMembers h

end ClassType

end

/-! ## Names that are renamed in turn -/

/-- The name is a new name of the table, or inside one. -/
def InsideNew (classes : ClassTable) (name : String) : Prop :=
  ∃ old new, classes.get? old = some new ∧ (name = new ∨ ∃ inner, name = Name.nested new inner)

/-- Neither the new names of the table nor the names inside them are renamed in turn. -/
def NewNamesAreFresh (classes : ClassTable) : Prop :=
  ∀ name, InsideNew classes name → classes.get? name = none

section

variable {classes : ClassTable}

theorem InsideNew.nested {outer : String} (h : InsideNew classes outer) (name : String) :
    InsideNew classes (Name.nested outer name) := by
  obtain ⟨old, new, hget, rfl | ⟨inner, rfl⟩⟩ := h
  · exact ⟨old, outer, hget, .inr ⟨name, rfl⟩⟩
  · refine ⟨old, new, hget, .inr ⟨Name.nested inner name, ?_⟩⟩
    simp [Name.nested, String.append_assoc]

/-- What the table makes of a name is inside a new name, or it is the name itself and not renamed. -/
theorem insideNew_or_kept {name other new : String} (h : new = (classes.get? name).getD other)
    (hother : classes.get? name = none → InsideNew classes other ∨ other = name) :
    InsideNew classes new ∨ new = name ∧ classes.get? new = none := by
  cases hget : classes.get? name with
  | some listed =>
    rw [hget, Option.getD_some] at h
    exact .inl ⟨name, listed, hget, .inl h⟩
  | none =>
    rw [hget, Option.getD_none] at h
    rcases hother hget with hinside | hsame
    · exact .inl (h ▸ hinside)
    · rw [h, hsame]
      exact .inr ⟨rfl, hget⟩

/-- The new names of a class and its members are inside new names of the table, or not renamed. -/
theorem insideNew_or_unlisted {oldOuter newOuter : String} {members : List String}
    (houter : InsideNew classes newOuter ∨ newOuter = oldOuter ∧ classes.get? newOuter = none) :
    ∀ b ∈ newNames classes oldOuter newOuter members, InsideNew classes b ∨ classes.get? b = none := by
  induction members generalizing oldOuter newOuter with
  | nil =>
    intro b hb
    rw [List.mem_singleton.mp hb]
    exact houter.imp_right And.right
  | cons name rest ih =>
    intro b hb
    rcases List.mem_cons.mp hb with rfl | hb
    · exact houter.imp_right And.right
    · refine ih (insideNew_or_kept rfl fun _ => ?_) b hb
      rcases houter with hinside | ⟨rfl, -⟩
      · exact .inl (hinside.nested name)
      · exact .inr rfl

theorem ClassType.get?_newNames (hfresh : NewNamesAreFresh classes) (c : ClassType) :
    ∀ b ∈ c.newNames classes, classes.get? b = none := by
  intro b hb
  have houter : InsideNew classes (newName classes c.outermost) ∨
      newName classes c.outermost = c.outermost ∧ classes.get? (newName classes c.outermost) = none :=
    insideNew_or_kept rfl fun _ => .inr rfl
  exact (insideNew_or_unlisted houter b hb).elim (hfresh b) id

end

/-- Renaming gives every class type of a signature the new names of its classes exactly if each renamed
member class stays inside the new name of its outer class. If besides the new names are fresh, no class
is called by an old name of the table any more. -/
theorem class_types_renamed_iff (classes : ClassTable) (hnames : NewNamesAreNames classes) (s : String)
    (t : Tree) (h : Derives t s) : ∃ t', Derives t' (renameClasses classes s).text ∧
      t'.classTypes.length = t.classTypes.length ∧
      ∀ (k : Nat) old new, t.classTypes[k]? = some old → t'.classTypes[k]? = some new →
        new.binaryNames.length = old.binaryNames.length ∧
        ((∀ (i : Nat) b b', old.binaryNames[i]? = some b → classes.get? b = some b' →
            new.binaryNames[i]? = some b') ↔ old.StaysNested classes) ∧
        (old.StaysNested classes → new.binaryNames = old.newNames classes) ∧
        (old.StaysNested classes → NewNamesAreFresh classes →
          ∀ b ∈ new.binaryNames, classes.get? b = none) := by
  have hread : parse? (renameClasses classes s).text.toList = some (t.rename classes) := by
    rw [parse?_renameClasses hnames, parse?_eq_some_iff.mpr h, Option.map_some]
  refine ⟨t.rename classes, parse?_eq_some_iff.mp hread, ?_, ?_⟩
  · rw [Tree.classTypes_rename, List.length_map]
  · intro k old new hold hnew
    rw [Tree.classTypes_rename, List.getElem?_map, hold, Option.map_some, Option.some.injEq] at hnew
    subst hnew
    refine ⟨old.length_binaryNames_rename, old.namesFollow_rename_iff, fun hstays =>
      hstays.binaryNames_rename, fun hstays hfresh => ?_⟩
    rw [hstays.binaryNames_rename]
    exact old.get?_newNames hfresh

namespace Samples

theorem new_of_chainNames {old new : String} (h : chainNames.get? old = some new) :
    new = "b/Dict$Item" ∨ new = "b/Dict" := by
  simp only [chainNames, Table.get?_insert, Table.get?_empty] at h
  split at h
  · exact .inl (Option.some.inj h).symm
  · split at h
    · exact .inr (Option.some.inj h).symm
    · cases h

theorem newNamesAreNames_chainNames : NewNamesAreNames chainNames := by
  intro old new hget
  have hall : new.toList.all (fun c => !endsName c) = true := by
    rcases new_of_chainNames hget with rfl | rfl <;> decide
  simpa [IsName] using hall

/-- The new names are in another package than the old ones. -/
theorem newNamesAreFresh_chainNames : NewNamesAreFresh chainNames := by
  intro name ⟨old, new, hget, hname⟩
  have hnew : new.toList.head? = some 'b' := by
    rcases new_of_chainNames hget with rfl | rfl <;> decide
  have hfirst : name.toList.head? = some 'b' := by
    rcases hname with rfl | ⟨inner, rfl⟩
    · exact hnew
    · simp [Name.nested, List.head?_append, hnew]
  have hother : ∀ key : String, key.toList.head? = some 'a' → name ≠ key := by
    intro key hkey heq
    rw [heq, hkey] at hfirst
    cases hfirst
  rw [chainNames, Table.get?_insert, if_neg (hother _ (by decide)), Table.get?_insert,
    if_neg (hother _ (by decide)), Table.get?_empty]

/-- Moves a member class to another outer class. -/
def movedMember : ClassTable := Table.empty.insert "a/Outer$Inner" "b/Other$In"

/-- The derivation of `La/Outer.Inner;`. -/
def inner : Tree where
  formals := none
  items := [.type (.object "a/Outer" .absent (.cons "Inner" .absent .nil))]

end Samples

theorem chain_class_types_renamed :
    ∃ t' new, Derives t' (renameClasses Samples.chainNames Samples.chainText).text ∧
      t'.classTypes[1]? = some new ∧
      new.binaryNames = ["b/Dict", "b/Dict$Item", "b/Dict$Item$Leaf"] ∧
      ∀ b ∈ new.binaryNames, Samples.chainNames.get? b = none := by
  obtain ⟨t', ht', hlength, htypes⟩ := class_types_renamed_iff Samples.chainNames
    Samples.newNamesAreNames_chainNames Samples.chainText Samples.chain Samples.derives_chain
  have hthree : t'.classTypes.length = 3 := hlength.trans (by decide +kernel)
  obtain ⟨new, hnew⟩ : ∃ new, t'.classTypes[1]? = some new :=
    ⟨_, List.getElem?_eq_getElem (by omega)⟩
  obtain ⟨-, -, hnames, hfresh⟩ := htypes 1 ⟨"a/Map", ["Node", "Leaf"]⟩ new rfl hnew
  have hstays : ClassType.StaysNested Samples.chainNames ⟨"a/Map", ["Node", "Leaf"]⟩ := by
    decide +kernel
  refine ⟨t', new, ht', hnew, ?_, hfresh hstays Samples.newNamesAreFresh_chainNames⟩
  rw [hnames hstays]
  decide +kernel

/-- A member class that moves to another outer class keeps its old name in a class type. -/
theorem moved_member_keeps_old_name :
    renameClasses Samples.movedMember "La/Outer.Inner;" = ⟨"La/Outer.Inner;", false⟩ ∧
    Derives Samples.inner "La/Outer.Inner;" ∧
    Samples.inner.classTypes.map ClassType.binaryNames = [["a/Outer", "a/Outer$Inner"]] ∧
    Samples.movedMember.get? "a/Outer$Inner" = some "b/Other$In" := by
  refine ⟨by decide +kernel, parse?_eq_some_iff.mp (by rfl), ?_, by decide +kernel⟩
  decide +kernel

end Classmith.Signature
