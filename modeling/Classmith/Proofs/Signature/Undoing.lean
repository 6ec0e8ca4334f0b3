import Classmith.Proofs.Signature.Renaming

/-!
# Undoing the renaming of a text

A table undoes another on a text if it undoes it on every outermost name in it. Member classes are the
exception: what is written for one depends on names that do not occur in the text.
-/
namespace Classmith.Signature

mutual

/-- No class type in the tree names a member class. -/
def TypeSig.MemberFree : TypeSig → Prop
  | .base _ => True
  | .typeVar _ => True
  | .array element => element.MemberFree
  | .object _ arguments members => arguments.MemberFree ∧ members.MemberFree

def Arguments.MemberFree : Arguments → Prop
  | .absent => True
  | .given list => list.MemberFree

def ArgumentList.MemberFree : ArgumentList → Prop
  | .nil => True
  | .any rest => rest.MemberFree
  | .type _ type rest => type.MemberFree ∧ rest.MemberFree

def Members.MemberFree : Members → Prop
  | .nil => True
  | .cons _ _ _ => False

end

def Formal.types (f : Formal) : List TypeSig := f.classBound.toList ++ f.interfaceBounds

def Item.types : Item → List TypeSig
  | .mark _ => []
  | .type t => [t]

/-- The types a signature is made of. -/
def Tree.types (t : Tree) : List TypeSig :=
  (t.formals.getD []).flatMap Formal.types ++ t.items.flatMap Item.types

def Tree.MemberFree (t : Tree) : Prop := ∀ type ∈ t.types, type.MemberFree

/-- If the text is a signature, no class type in it names a member class. -/
def MemberFree (s : String) : Prop := ∀ t, parse? s.toList = some t → t.MemberFree

/-! ## Texts without dots -/

mutual

theorem TypeSig.memberFree_of_notMem {t : TypeSig} (h : '.' ∉ t.print) : t.MemberFree := by
  match t with
  | .base letter => trivial
  | .typeVar name => trivial
  | .array element =>
    simp only [TypeSig.print, List.mem_cons, not_or] at h
    exact TypeSig.memberFree_of_notMem (t := element) h.2
  | .object name arguments members =>
    simp only [TypeSig.print, List.cons_append, List.mem_cons, List.mem_append, not_or] at h
    exact ⟨Arguments.memberFree_of_notMem h.2.1.1.2, Members.memberFree_of_notMem h.2.1.2⟩

theorem Arguments.memberFree_of_notMem {a : Arguments} (h : '.' ∉ a.print) : a.MemberFree := by
  match a with
  | .absent => trivial
  | .given list =>
    simp only [Arguments.print, List.cons_append, List.mem_cons, List.mem_append, not_or] at h
    exact ArgumentList.memberFree_of_notMem (l := list) h.2.1

theorem ArgumentList.memberFree_of_notMem {l : ArgumentList} (h : '.' ∉ l.print) :
    l.MemberFree := by
  match l with
  | .nil => trivial
  | .any rest =>
    simp only [ArgumentList.print, List.mem_cons, not_or] at h
    exact ArgumentList.memberFree_of_notMem (l := rest) h.2
  | .type bound type rest =>
    simp only [ArgumentList.print, List.mem_append, not_or] at h
    exact ⟨TypeSig.memberFree_of_notMem h.1.2, ArgumentList.memberFree_of_notMem h.2⟩

theorem Members.memberFree_of_notMem {m : Members} (h : '.' ∉ m.print) : m.MemberFree := by
  match m with
  | .nil => trivial
  | .cons name arguments rest => simp [Members.print] at h

end

theorem Formal.notMem_types {f : Formal} {c : Char} (h : c ∉ f.print) {type : TypeSig}
    (htype : type ∈ f.types) : c ∉ type.print := by
  simp only [Formal.print, List.append_assoc, List.cons_append, List.mem_append, List.mem_cons,
    List.mem_flatMap, not_or, not_exists, not_and] at h
  obtain ⟨-, -, hclass, hinterfaces⟩ := h
  rcases List.mem_append.mp htype with hbound | hbound
  · rw [Option.mem_toList] at hbound
    simpa [hbound] using hclass
  · exact (hinterfaces type hbound).2

/-- A character that is not in a signature is in none of its types. -/
theorem Tree.notMem_types {t : Tree} {c : Char} (h : c ∉ t.print) {type : TypeSig}
    (htype : type ∈ t.types) : c ∉ type.print := by
  rw [Tree.print, List.mem_append, not_or] at h
  obtain ⟨hformals, hitems⟩ := h
  rcases List.mem_append.mp htype with hbound | hitem
  · obtain ⟨f, hf, hbound⟩ := List.mem_flatMap.mp hbound
    cases hlist : t.formals with
    | none => simp [hlist] at hf
    | some formals =>
      simp only [hlist, List.cons_append, List.mem_cons, List.mem_append, List.mem_flatMap, not_or,
        not_exists, not_and] at hformals
      simp only [hlist, Option.getD_some] at hf
      exact Formal.notMem_types (hformals.2.1 f hf) hbound
  · obtain ⟨item, hmem, hitem⟩ := List.mem_flatMap.mp hitem
    cases item with
    | mark m => simp [Item.types] at hitem
    | type other =>
      obtain rfl := List.mem_singleton.mp hitem
      intro hc
      exact hitems (List.mem_flatMap.mpr ⟨.type type, hmem, hc⟩)

theorem memberFree_of_notMem {s : String} (h : '.' ∉ s.toList) : MemberFree s := by
  intro t hread type htype
  rw [← (parse?_eq_some hread).1] at h
  exact TypeSig.memberFree_of_notMem (Tree.notMem_types h htype)

theorem Tree.names_eq (t : Tree) : t.names = t.types.flatMap TypeSig.names := by
  have hitem : Item.names = fun item : Item => item.types.flatMap TypeSig.names := by
    funext item
    cases item <;> simp [Item.names, Item.types]
  rw [Tree.names, hitem, Tree.types, List.flatMap_append, List.flatMap_assoc, List.flatMap_assoc]
  rfl

/-! ## Two tables -/

section

variable {classes back : ClassTable}

mutual

theorem TypeSig.rename_rename {t : TypeSig} (hfree : t.MemberFree)
    (hback : ∀ name ∈ t.names, newName back (newName classes name) = name) :
    (t.rename classes).rename back = t := by
  match t with
  | .base letter => rfl
  | .typeVar name => rfl
  | .array element => exact congrArg TypeSig.array (TypeSig.rename_rename (t := element) hfree hback)
  | .object name arguments members =>
    obtain ⟨harguments, hmembers⟩ := hfree
    cases members with
    | cons _ _ _ => exact hmembers.elim
    | nil =>
      have hname := hback name (by simp [TypeSig.names])
      have hrest := Arguments.rename_rename harguments fun other hother =>
        hback other (by simp [TypeSig.names, hother])
      simp only [newName] at hname
      simp only [TypeSig.rename, Members.rename, hname, hrest]

theorem Arguments.rename_rename {a : Arguments} (hfree : a.MemberFree)
    (hback : ∀ name ∈ a.names, newName back (newName classes name) = name) :
    (a.rename classes).rename back = a := by
  match a with
  | .absent => rfl
  | .given list => exact congrArg Arguments.given (ArgumentList.rename_rename (l := list) hfree hback)

theorem ArgumentList.rename_rename {l : ArgumentList} (hfree : l.MemberFree)
    (hback : ∀ name ∈ l.names, newName back (newName classes name) = name) :
    (l.rename classes).rename back = l := by
  match l with
  | .nil => rfl
  | .any rest => exact congrArg ArgumentList.any (ArgumentList.rename_rename (l := rest) hfree hback)
  | .type bound type rest =>
    have htype := TypeSig.rename_rename hfree.1 fun name hname =>
      hback name (by simp [ArgumentList.names, hname])
    have hrest := ArgumentList.rename_rename hfree.2 fun name hname =>
      hback name (by simp [ArgumentList.names, hname])
    simp only [ArgumentList.rename, htype, hrest]

end

theorem Formal.rename_rename {f : Formal}
    (h : ∀ type ∈ f.types, (type.rename classes).rename back = type) :
    (f.rename classes).rename back = f := by
  have hclass : (f.classBound.map (TypeSig.rename classes)).map (TypeSig.rename back) =
      f.classBound := by
    rw [Option.map_map]
    apply optionMap_eq_self
    intro bound hbound
    exact h bound (List.mem_append_left _ (Option.mem_toList.mpr hbound))
  have hinterfaces : (f.interfaceBounds.map (TypeSig.rename classes)).map (TypeSig.rename back) =
      f.interfaceBounds := by
    rw [List.map_map]
    apply map_eq_self
    intro bound hbound
    exact h bound (List.mem_append_right _ hbound)
  simp only [Formal.rename, hclass, hinterfaces]

theorem Tree.rename_rename {t : Tree}
    (h : ∀ type ∈ t.types, (type.rename classes).rename back = type) :
    (t.rename classes).rename back = t := by
  have hformals : (t.formals.map (List.map (Formal.rename classes))).map
      (List.map (Formal.rename back)) = t.formals := by
    rw [Option.map_map]
    apply optionMap_eq_self
    intro formals hlist
    change List.map _ (List.map _ formals) = formals
    rw [List.map_map]
    apply map_eq_self
    intro f hf
    refine Formal.rename_rename fun type htype => h type (List.mem_append_left _ ?_)
    rw [Option.mem_def] at hlist
    rw [hlist, Option.getD_some]
    exact List.mem_flatMap.mpr ⟨f, hf, htype⟩
  have hitems : (t.items.map (Item.rename classes)).map (Item.rename back) = t.items := by
    rw [List.map_map]
    apply map_eq_self
    intro item hitem
    cases item with
    | mark c => rfl
    | type type =>
      refine congrArg Item.type (h type (List.mem_append_right _ ?_))
      exact List.mem_flatMap.mpr ⟨.type type, hitem, List.mem_singleton_self type⟩
  rw [Tree.rename_eq, Tree.rename_eq]
  simp only [hformals, hitems]

/-- Renaming a text forth and back gives the text again. -/
theorem text_renameClasses_back (hnames : NewNamesAreNames classes) {s : String}
    (hfree : MemberFree s)
    (hback : ∀ name ∈ textNames s, newName back (newName classes name) = name) :
    (renameClasses back (renameClasses classes s).text).text = s := by
  rw [text_renameClasses back, parse?_renameClasses hnames]
  cases hread : parse? s.toList with
  | none =>
    rw [text_renameClasses, hread]
    rfl
  | some t =>
    have htypes : ∀ type ∈ t.types, (type.rename classes).rename back = type := by
      intro type htype
      refine TypeSig.rename_rename (hfree t hread type htype) fun name hname => hback name ?_
      simp only [textNames, hread, Option.map_some, Option.getD_some, t.names_eq]
      exact List.mem_flatMap.mpr ⟨type, htype, hname⟩
    simp only [Option.map_some, Option.getD_some]
    rw [Tree.rename_rename htypes, (parse?_eq_some hread).1, String.ofList_toList]

end

end Classmith.Signature
