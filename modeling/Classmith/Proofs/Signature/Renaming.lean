import Classmith.Proofs.Signature.Grammar
import Classmith.Signature.Rename

/-!
# Renaming classes in texts

Renaming a text is renaming its syntax tree: the text that comes out is the spelling of the renamed
tree, and as long as the new names have no character that ends a name, it is read as that tree again.
-/
namespace Classmith

theorem map_eq_self {α : Type} {f : α → α} {l : List α} (h : ∀ a ∈ l, f a = a) : l.map f = l :=
  (List.map_congr_left h).trans (List.map_id l)

theorem optionMap_eq_self {α : Type} {f : α → α} {o : Option α} (h : ∀ a ∈ o, f a = a) :
    o.map f = o := by
  cases o with
  | none => rfl
  | some a => simp [h a rfl]

namespace Signature

/-- The name of a class after renaming. -/
def newName (classes : ClassTable) (name : String) : String := (classes.get? name).getD name

/-! ## What renaming does not touch -/

mutual

theorem TypeSig.rename_of_untouched (classes : ClassTable) (t : TypeSig)
    (h : t.touched classes = false) : t.rename classes = t := by
  match t with
  | .base letter => rfl
  | .typeVar name => rfl
  | .array element =>
    have helement := TypeSig.rename_of_untouched classes element h
    simp [TypeSig.rename, helement]
  | .object name arguments members =>
    simp only [TypeSig.touched, Bool.or_eq_false_iff, Table.contains, Option.isSome_eq_false_iff,
      Option.isNone_iff_eq_none] at h
    obtain ⟨⟨hname, harguments⟩, hmembers⟩ := h
    simp only [hname, Option.getD_none] at hmembers
    simp [TypeSig.rename, hname, Arguments.rename_of_untouched classes arguments harguments,
      Members.rename_of_untouched classes name name members hmembers]

theorem Arguments.rename_of_untouched (classes : ClassTable) (a : Arguments)
    (h : a.touched classes = false) : a.rename classes = a := by
  match a with
  | .absent => rfl
  | .given list => simp [Arguments.rename, ArgumentList.rename_of_untouched classes list h]

theorem ArgumentList.rename_of_untouched (classes : ClassTable) (l : ArgumentList)
    (h : l.touched classes = false) : l.rename classes = l := by
  match l with
  | .nil => rfl
  | .any rest => simp [ArgumentList.rename, ArgumentList.rename_of_untouched classes rest h]
  | .type bound type rest =>
    simp only [ArgumentList.touched, Bool.or_eq_false_iff] at h
    simp [ArgumentList.rename, TypeSig.rename_of_untouched classes type h.1,
      ArgumentList.rename_of_untouched classes rest h.2]

theorem Members.rename_of_untouched (classes : ClassTable) (oldOuter newOuter : String)
    (m : Members) (h : m.touched classes oldOuter newOuter = false) :
    m.rename classes oldOuter newOuter = m := by
  match m with
  | .nil => rfl
  | .cons name arguments rest =>
    simp only [Members.touched, Bool.or_eq_false_iff, decide_eq_false_iff_not,
      Decidable.not_not] at h
    obtain ⟨⟨hname, harguments⟩, hrest⟩ := h
    simp [Members.rename, hname, Arguments.rename_of_untouched classes arguments harguments,
      Members.rename_of_untouched classes _ _ rest hrest]

end

/-- A formal parameter after renaming its bounds. -/
def Formal.rename (classes : ClassTable) (f : Formal) : Formal where
  name := f.name
  classBound := f.classBound.map (TypeSig.rename classes)
  interfaceBounds := f.interfaceBounds.map (TypeSig.rename classes)

def Item.rename (classes : ClassTable) : Item → Item
  | .mark c => .mark c
  | .type t => .type (t.rename classes)

theorem Tree.rename_eq (classes : ClassTable) (t : Tree) : t.rename classes =
    ⟨t.formals.map (List.map (Formal.rename classes)), t.items.map (Item.rename classes)⟩ := by
  have hitems : (fun item : Item => match item with
      | .mark c => .mark c
      | .type t => .type (t.rename classes)) = Item.rename classes := by
    funext item
    cases item <;> rfl
  simp only [Tree.rename, ← hitems]
  rfl

theorem Formal.rename_eq_self {classes : ClassTable} {f : Formal}
    (hclass : ∀ t ∈ f.classBound, t.rename classes = t)
    (hinterfaces : ∀ t ∈ f.interfaceBounds, t.rename classes = t) : f.rename classes = f := by
  simp only [Formal.rename, optionMap_eq_self hclass, map_eq_self hinterfaces]

theorem Tree.rename_of_untouched (classes : ClassTable) (t : Tree) (h : t.touched classes = false) :
    t.rename classes = t := by
  obtain ⟨formals, items⟩ := t
  simp only [Tree.touched, Bool.or_eq_false_iff, List.any_eq_false, Bool.or_eq_true, not_or,
    Bool.not_eq_true, Option.any_eq_false] at h
  obtain ⟨hformals, hitems⟩ := h
  have hnewFormals : formals.map (List.map (Formal.rename classes)) = formals := by
    apply optionMap_eq_self
    rintro list rfl
    apply map_eq_self
    intro f hf
    obtain ⟨hclass, hinterfaces⟩ := hformals f hf
    exact Formal.rename_eq_self (fun t ht => TypeSig.rename_of_untouched classes t (hclass t ht))
      fun t ht => TypeSig.rename_of_untouched classes t (hinterfaces t ht)
  have hnewItems : items.map (Item.rename classes) = items := by
    apply map_eq_self
    intro item hitem
    cases item with
    | mark c => rfl
    | type t => exact congrArg Item.type (TypeSig.rename_of_untouched classes t (hitems _ hitem))
  rw [Tree.rename_eq, hnewFormals, hnewItems]

/-! ## Tables without entries -/

theorem dropHead?_self_append (head rest : List Char) :
    Text.dropHead? head (head ++ rest) = some rest := by
  induction head with
  | nil => rfl
  | cons c head ih => simpa [Text.dropHead?] using ih

theorem memberName?_nested (outer name : String) :
    memberName? outer (Name.nested outer name) = some name := by
  simp [memberName?, Name.nested, dropHead?_self_append]

theorem newMember_of_get?_eq_none {classes : ClassTable} (hnone : ∀ name, classes.get? name = none)
    (oldOuter newOuter name : String) : newMember classes oldOuter newOuter name = name := by
  simp [newMember, newBinary, hnone, memberName?_nested]

mutual

theorem TypeSig.untouched_of_get?_eq_none {classes : ClassTable}
    (hnone : ∀ name, classes.get? name = none) (t : TypeSig) : t.touched classes = false := by
  match t with
  | .base letter => rfl
  | .typeVar name => rfl
  | .array element => exact TypeSig.untouched_of_get?_eq_none hnone element
  | .object name arguments members =>
    simp [TypeSig.touched, Table.contains, hnone,
      Arguments.untouched_of_get?_eq_none hnone arguments,
      Members.untouched_of_get?_eq_none hnone name name members]

theorem Arguments.untouched_of_get?_eq_none {classes : ClassTable}
    (hnone : ∀ name, classes.get? name = none) (a : Arguments) : a.touched classes = false := by
  match a with
  | .absent => rfl
  | .given list => exact ArgumentList.untouched_of_get?_eq_none hnone list

theorem ArgumentList.untouched_of_get?_eq_none {classes : ClassTable}
    (hnone : ∀ name, classes.get? name = none) (l : ArgumentList) :
    l.touched classes = false := by
  match l with
  | .nil => rfl
  | .any rest => exact ArgumentList.untouched_of_get?_eq_none hnone rest
  | .type bound type rest =>
    simp [ArgumentList.touched, TypeSig.untouched_of_get?_eq_none hnone type,
      ArgumentList.untouched_of_get?_eq_none hnone rest]

theorem Members.untouched_of_get?_eq_none {classes : ClassTable}
    (hnone : ∀ name, classes.get? name = none) (oldOuter newOuter : String) (m : Members) :
    m.touched classes oldOuter newOuter = false := by
  match m with
  | .nil => rfl
  | .cons name arguments rest =>
    simp [Members.touched, newMember_of_get?_eq_none hnone,
      Arguments.untouched_of_get?_eq_none hnone arguments,
      Members.untouched_of_get?_eq_none hnone _ _ rest]

end

theorem Tree.untouched_of_get?_eq_none {classes : ClassTable}
    (hnone : ∀ name, classes.get? name = none) (t : Tree) : t.touched classes = false := by
  simp only [Tree.touched, Bool.or_eq_false_iff, List.any_eq_false, Bool.or_eq_true, not_or,
    Bool.not_eq_true, Option.any_eq_false]
  refine ⟨fun f _ => ⟨fun t _ => t.untouched_of_get?_eq_none hnone,
    fun t _ => t.untouched_of_get?_eq_none hnone⟩, ?_⟩
  intro item _
  cases item with
  | mark c => rfl
  | type t => exact t.untouched_of_get?_eq_none hnone

/-- The text after renaming spells the renamed tree; a text that is no signature stays. -/
theorem text_renameClasses (classes : ClassTable) (s : String) :
    (renameClasses classes s).text =
      ((parse? s.toList).map fun t => String.ofList (t.rename classes).print).getD s := by
  have hsame : ∀ t, parse? s.toList = some t → t.touched classes = false →
      String.ofList (t.rename classes).print = s := by
    intro t hread huntouched
    rw [Tree.rename_of_untouched classes t huntouched, (parse?_eq_some hread).1, String.ofList_toList]
  unfold renameClasses
  split
  · rename_i hempty
    have hnone : ∀ name, classes.get? name = none := by
      intro name
      obtain ⟨entries, _⟩ := classes
      obtain rfl : entries = [] := by simpa [Table.isEmpty] using hempty
      rfl
    cases hread : parse? s.toList with
    | none => rfl
    | some t => simp [hsame t hread (t.untouched_of_get?_eq_none hnone)]
  · cases hread : parse? s.toList with
    | none => rfl
    | some t =>
      simp only [Option.map_some, Option.getD_some]
      split
      · rfl
      · rename_i huntouched
        exact (hsame t hread (by simpa using huntouched)).symm

/-! ## Names after renaming -/

/-- The new names of a table are names: none of `<`, `.` and `;` is in them. -/
def NewNamesAreNames (classes : ClassTable) : Prop :=
  ∀ old new, classes.get? old = some new → IsName new

theorem isName_newName {classes : ClassTable} (hnames : NewNamesAreNames classes) {name : String}
    (h : IsName name) : IsName (newName classes name) := by
  unfold newName
  cases hget : classes.get? name with
  | none => exact h
  | some new => exact hnames _ _ hget

theorem isName_of_memberName? {outer binary name : String} (hbinary : IsName binary)
    (h : memberName? outer binary = some name) : IsName name := by
  unfold memberName? at h
  split at h
  · rename_i rest hdrop
    obtain rfl := Option.some.inj h
    intro c hc
    apply hbinary c
    rw [Text.dropHead?_eq_some hdrop]
    simp_all
  · simp at h

theorem isName_newMember {classes : ClassTable} (hnames : NewNamesAreNames classes)
    (oldOuter newOuter : String) {name : String} (h : IsName name) :
    IsName (newMember classes oldOuter newOuter name) := by
  unfold newMember newBinary
  cases hget : classes.get? (Name.nested oldOuter name) with
  | none => simpa [memberName?_nested] using h
  | some new =>
    simp only [Option.getD_some]
    cases hmember : memberName? newOuter new with
    | none => exact h
    | some inner => exact isName_of_memberName? (hnames _ _ hget) hmember

mutual

theorem TypeSig.WellFormed.rename {classes : ClassTable} (hnames : NewNamesAreNames classes)
    {t : TypeSig} (h : t.WellFormed) : (t.rename classes).WellFormed := by
  match t with
  | .base letter => exact h
  | .typeVar name => exact h
  | .array element => exact TypeSig.WellFormed.rename (t := element) hnames h
  | .object name arguments members =>
    obtain ⟨hname, harguments, hmembers⟩ := h
    exact ⟨isName_newName hnames hname, Arguments.WellFormed.rename hnames harguments,
      Members.WellFormed.rename hnames name _ hmembers⟩

theorem Arguments.WellFormed.rename {classes : ClassTable} (hnames : NewNamesAreNames classes)
    {a : Arguments} (h : a.WellFormed) : (a.rename classes).WellFormed := by
  match a with
  | .absent => exact h
  | .given list => exact ArgumentList.WellFormed.rename (l := list) hnames h

theorem ArgumentList.WellFormed.rename {classes : ClassTable} (hnames : NewNamesAreNames classes)
    {l : ArgumentList} (h : l.WellFormed) : (l.rename classes).WellFormed := by
  match l with
  | .nil => exact h
  | .any rest => exact ArgumentList.WellFormed.rename (l := rest) hnames h
  | .type bound type rest =>
    obtain ⟨hbound, htype, hrest⟩ := h
    exact ⟨hbound, TypeSig.WellFormed.rename hnames htype, ArgumentList.WellFormed.rename hnames hrest⟩

theorem Members.WellFormed.rename {classes : ClassTable} (hnames : NewNamesAreNames classes)
    (oldOuter newOuter : String) {m : Members} (h : m.WellFormed) :
    (m.rename classes oldOuter newOuter).WellFormed := by
  match m with
  | .nil => exact h
  | .cons name arguments rest =>
    obtain ⟨hname, harguments, hrest⟩ := h
    exact ⟨isName_newMember hnames oldOuter newOuter hname,
      Arguments.WellFormed.rename hnames harguments, Members.WellFormed.rename hnames _ _ hrest⟩

end

/-- Renaming changes no type into another kind of type. -/
theorem TypeSig.head?_print_rename (classes : ClassTable) (t : TypeSig) :
    (t.rename classes).print.head? = t.print.head? := by
  cases t <;> rfl

theorem Tree.head?_print_rename (classes : ClassTable) (t : Tree) :
    (t.rename classes).print.head? = t.print.head? := by
  obtain ⟨formals, items⟩ := t
  rw [Tree.rename_eq]
  cases formals with
  | some formals => rfl
  | none =>
    cases items with
    | nil => rfl
    | cons item rest =>
      cases item with
      | mark c => rfl
      | type t =>
        obtain ⟨c, s, hs⟩ := List.exists_cons_of_ne_nil t.print_ne_nil
        simp [Tree.print, Item.rename, Item.print, List.head?_append, t.head?_print_rename classes, hs]

/-- Renaming keeps the first character of a text. -/
theorem head?_text_renameClasses (classes : ClassTable) (s : String) :
    (renameClasses classes s).text.toList.head? = s.toList.head? := by
  rw [text_renameClasses]
  cases hread : parse? s.toList with
  | none => rfl
  | some t => simp [Tree.head?_print_rename, (parse?_eq_some hread).1]

theorem startsBound_eq_of_head? {s t : List Char} (h : s.head? = t.head?) :
    startsBound s = startsBound t := by
  cases s <;> cases t <;> simp_all [startsBound_cons]

theorem Formal.WellFormed.rename {classes : ClassTable} (hnames : NewNamesAreNames classes)
    {f : Formal} (h : f.WellFormed) : (f.rename classes).WellFormed where
  name_colon := h.name_colon
  name_close := h.name_close
  classBound := by
    intro t ht
    obtain ⟨old, hold, rfl⟩ := Option.map_eq_some_iff.mp ht
    obtain ⟨hwell, hstarts⟩ := h.classBound old hold
    exact ⟨hwell.rename hnames,
      by rw [startsBound_eq_of_head? (old.head?_print_rename classes), hstarts]⟩
  interfaceBounds := by
    intro t ht
    obtain ⟨old, hold, rfl⟩ := List.mem_map.mp ht
    exact (h.interfaceBounds old hold).rename hnames

theorem Formal.EndsBefore.rename (classes : ClassTable) {f : Formal} {rest : List Formal}
    (h : f.EndsBefore rest) : (f.rename classes).EndsBefore (rest.map (Formal.rename classes)) := by
  intro next hnext
  obtain ⟨old, hold, rfl⟩ : ∃ old, rest.head? = some old ∧ old.rename classes = next := by
    simpa using hnext
  obtain ⟨hname, hbare⟩ := h old hold
  refine ⟨hname, fun hclass hinterfaces => hbare ?_ ?_⟩
  · simpa [Formal.rename] using hclass
  · simpa [Formal.rename] using hinterfaces

theorem WellFormedFormals.rename {classes : ClassTable} (hnames : NewNamesAreNames classes)
    {formals : List Formal} (h : WellFormedFormals formals) :
    WellFormedFormals (formals.map (Formal.rename classes)) := by
  induction formals with
  | nil => trivial
  | cons f rest ih =>
    obtain ⟨hf, hends, hrest⟩ := h
    exact ⟨hf.rename hnames, hends.rename classes, ih hrest⟩

theorem Tree.WellFormed.rename {classes : ClassTable} (hnames : NewNamesAreNames classes)
    {t : Tree} (h : t.WellFormed) : (t.rename classes).WellFormed := by
  rw [Tree.rename_eq]
  refine ⟨?_, ?_⟩
  · intro formals hformals
    obtain ⟨old, hold, rfl⟩ := Option.map_eq_some_iff.mp hformals
    exact (h.formals old hold).rename hnames
  · intro item hitem
    obtain ⟨old, hold, rfl⟩ := List.mem_map.mp hitem
    have hwell := h.items old hold
    cases old with
    | mark c => exact hwell
    | type t => exact TypeSig.WellFormed.rename (t := t) hnames hwell

/-- A renamed text is read as the renamed tree. -/
theorem parse?_renameClasses {classes : ClassTable} (hnames : NewNamesAreNames classes) (s : String) :
    parse? (renameClasses classes s).text.toList = (parse? s.toList).map (Tree.rename classes) := by
  rw [text_renameClasses]
  cases hread : parse? s.toList with
  | none => simp [hread]
  | some t =>
    have hwell := (parse?_eq_some hread).2
    simp [parse?_print (hwell.rename hnames)]

/-! ## Outermost names -/

mutual

/-- The outermost names of the class types in a type, from left to right. -/
def TypeSig.names : TypeSig → List String
  | .base _ => []
  | .typeVar _ => []
  | .array element => element.names
  | .object name arguments members => name :: arguments.names ++ members.names

def Arguments.names : Arguments → List String
  | .absent => []
  | .given list => list.names

def ArgumentList.names : ArgumentList → List String
  | .nil => []
  | .any rest => rest.names
  | .type _ type rest => type.names ++ rest.names

def Members.names : Members → List String
  | .nil => []
  | .cons _ arguments rest => arguments.names ++ rest.names

end

def Formal.names (f : Formal) : List String :=
  (f.classBound.toList ++ f.interfaceBounds).flatMap TypeSig.names

def Item.names : Item → List String
  | .mark _ => []
  | .type t => t.names

def Tree.names (t : Tree) : List String :=
  (t.formals.getD []).flatMap Formal.names ++ t.items.flatMap Item.names

/-- The outermost names of the class types in a text, none if the text is no signature. -/
def textNames (s : String) : List String := ((parse? s.toList).map Tree.names).getD []

mutual

theorem TypeSig.names_rename (classes : ClassTable) (t : TypeSig) :
    (t.rename classes).names = t.names.map (newName classes) := by
  match t with
  | .base letter => rfl
  | .typeVar name => rfl
  | .array element => exact TypeSig.names_rename classes element
  | .object name arguments members =>
    simp [TypeSig.rename, TypeSig.names, newName, Arguments.names_rename classes arguments,
      Members.names_rename classes name _ members]

theorem Arguments.names_rename (classes : ClassTable) (a : Arguments) :
    (a.rename classes).names = a.names.map (newName classes) := by
  match a with
  | .absent => rfl
  | .given list => exact ArgumentList.names_rename classes list

theorem ArgumentList.names_rename (classes : ClassTable) (l : ArgumentList) :
    (l.rename classes).names = l.names.map (newName classes) := by
  match l with
  | .nil => rfl
  | .any rest => exact ArgumentList.names_rename classes rest
  | .type bound type rest =>
    simp [ArgumentList.rename, ArgumentList.names, TypeSig.names_rename classes type,
      ArgumentList.names_rename classes rest]

theorem Members.names_rename (classes : ClassTable) (oldOuter newOuter : String) (m : Members) :
    (m.rename classes oldOuter newOuter).names = m.names.map (newName classes) := by
  match m with
  | .nil => rfl
  | .cons name arguments rest =>
    simp [Members.rename, Members.names, Arguments.names_rename classes arguments,
      Members.names_rename classes _ _ rest]

end

theorem Formal.names_rename (classes : ClassTable) (f : Formal) :
    (f.rename classes).names = f.names.map (newName classes) := by
  cases hclass : f.classBound <;>
    simp [Formal.names, Formal.rename, hclass, List.map_flatMap, List.flatMap_map,
      TypeSig.names_rename]

theorem Tree.names_rename (classes : ClassTable) (t : Tree) :
    (t.rename classes).names = t.names.map (newName classes) := by
  have hitem : ∀ item : Item, (item.rename classes).names = item.names.map (newName classes) := by
    intro item
    cases item with
    | mark c => rfl
    | type t => exact TypeSig.names_rename classes t
  obtain ⟨formals, items⟩ := t
  rw [Tree.rename_eq]
  cases formals <;>
    simp [Tree.names, List.map_flatMap, List.flatMap_map, Formal.names_rename, hitem]

/-- Renaming a text renames its outermost names and no others. -/
theorem textNames_renameClasses {classes : ClassTable} (hnames : NewNamesAreNames classes)
    (s : String) :
    textNames (renameClasses classes s).text = (textNames s).map (newName classes) := by
  unfold textNames
  rw [parse?_renameClasses hnames]
  cases parse? s.toList with
  | none => rfl
  | some t => simp [Tree.names_rename]

end Signature

end Classmith
