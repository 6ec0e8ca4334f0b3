import Classmith.Proofs.DescriptorGrammar
import Classmith.Proofs.Rename.Members
import Classmith.Proofs.Signature.Undoing

/-!
# Descriptors as signatures

Descriptors are read by rules of their own, but as long as their class names have none of the characters
that end a name in a signature they are signatures without type variables, arguments and member classes.
Renaming keeps them so, and cuts them at the same places.
-/
namespace Classmith

open Signature
open Descriptor (MethodType SpellsType isFieldType isFieldType_iff isPrimitive isPrimitive_iff internalName?)

namespace Signature

/-- A type that a descriptor can have in it. -/
def TypeSig.IsPlain : TypeSig → Prop
  | .base letter => isPrimitive letter = true
  | .typeVar _ => False
  | .array element => element.IsPlain
  | .object name arguments members => IsName name ∧ arguments = .absent ∧ members = .nil

theorem isBase_of_isPrimitive {c : Char} (h : isPrimitive c = true) : isBase c = true := by
  simp only [isPrimitive, Bool.or_eq_true, decide_eq_true_eq] at h
  simp only [isBase, Bool.or_eq_true, decide_eq_true_eq]
  exact Or.inl h

theorem TypeSig.IsPlain.wellFormed {t : TypeSig} (h : t.IsPlain) : t.WellFormed := by
  match t with
  | .base letter => exact isBase_of_isPrimitive h
  | .array element => exact TypeSig.IsPlain.wellFormed (t := element) h
  | .object name arguments members =>
    obtain ⟨hname, rfl, rfl⟩ := h
    exact ⟨hname, trivial, trivial⟩

theorem TypeSig.IsPlain.rename {classes : ClassTable} (hnames : NewNamesAreNames classes)
    {t : TypeSig} (h : t.IsPlain) : (t.rename classes).IsPlain := by
  match t with
  | .base letter => exact h
  | .array element => exact TypeSig.IsPlain.rename (t := element) hnames h
  | .object name arguments members =>
    obtain ⟨hname, rfl, rfl⟩ := h
    exact ⟨isName_newName hnames hname, rfl, rfl⟩

theorem spellsType_print {t : TypeSig} (h : t.IsPlain) : SpellsType t.print := by
  match t with
  | .base letter => exact .primitive (isPrimitive_iff.mp h)
  | .array element => exact .array (spellsType_print (t := element) h)
  | .object name arguments members =>
    obtain ⟨hname, rfl, rfl⟩ := h
    simp only [TypeSig.print, Arguments.print, Members.print, List.append_nil]
    exact .object fun hmem => absurd (hname ';' hmem) (by decide)

theorem exists_plain_of_spellsType {type : List Char} (h : SpellsType type) (hopen : '<' ∉ type)
    (hdot : '.' ∉ type) : ∃ t : TypeSig, t.IsPlain ∧ t.print = type := by
  induction h with
  | @primitive letter h => exact ⟨.base letter, isPrimitive_iff.mpr h, rfl⟩
  | @object name h =>
    simp only [List.cons_append, List.mem_cons, List.mem_append, not_or] at hopen hdot
    refine ⟨.object (String.ofList name) .absent .nil, ⟨?_, rfl, rfl⟩, ?_⟩
    · intro d hd
      rw [String.toList_ofList] at hd
      simp only [endsName, Bool.or_eq_false_iff, decide_eq_false_iff_not]
      refine ⟨⟨?_, ?_⟩, ?_⟩ <;> rintro rfl
      · exact hopen.2.1 hd
      · exact hdot.2.1 hd
      · exact h hd
    · simp [TypeSig.print, Arguments.print, Members.print]
  | array h ih =>
    simp only [List.mem_cons, not_or] at hopen hdot
    obtain ⟨t, ht, rfl⟩ := ih hopen.2 hdot.2
    exact ⟨.array t, ht, rfl⟩

end Signature

namespace Descriptor

/-- A field type whose class name has no character that means something else in a signature. -/
def IsPlainType (s : String) : Prop :=
  isFieldType s.toList = true ∧ '<' ∉ s.toList ∧ '.' ∉ s.toList

instance (s : String) : Decidable (IsPlainType s) := instDecidableAnd

theorem IsPlainType.exists_print {s : String} (h : IsPlainType s) :
    ∃ t : TypeSig, t.IsPlain ∧ s = String.ofList t.print := by
  obtain ⟨htype, hopen, hdot⟩ := h
  obtain ⟨t, ht, hprint⟩ := exists_plain_of_spellsType (isFieldType_iff.mp htype) hopen hdot
  exact ⟨t, ht, by rw [hprint, String.ofList_toList]⟩

/-- A field type, `V` or method descriptor whose class names have no character that means something else
in a signature. -/
structure IsPlain (s : String) : Prop where
  valid : isFieldType s.toList = true ∨ s = "V" ∨ ∃ type : MethodType, type.Describes s
  noOpen : '<' ∉ s.toList
  noDot : '.' ∉ s.toList

instance (s : String) : Decidable (IsPlain s) :=
  decidable_of_iff ((isFieldType s.toList = true ∨ s = "V" ∨ ∃ type : MethodType, type.Describes s) ∧
      '<' ∉ s.toList ∧ '.' ∉ s.toList)
    ⟨fun h => ⟨h.1, h.2.1, h.2.2⟩, fun h => ⟨h.valid, h.noOpen, h.noDot⟩⟩

theorem IsPlain.memberFree {s : String} (h : IsPlain s) : MemberFree s :=
  memberFree_of_notMem h.noDot

theorem objectType_eq_print (name : String) :
    "L" ++ name ++ ";" = String.ofList (TypeSig.object name .absent .nil).print := by
  apply String.toList_injective
  simp [TypeSig.print, Arguments.print, Members.print]

theorem internalName?_eq_none_of_head? {s : String} (h : s.toList.head? ≠ some 'L') :
    internalName? s = none := by
  unfold internalName?
  split
  · rename_i rest hs
    rw [hs, List.head?_cons] at h
    exact absurd rfl h
  · rfl

end Descriptor

/-! ## Names in texts -/

namespace Signature

theorem TypeSig.names_of_notMem {t : TypeSig} (h : ';' ∉ t.print) : t.names = [] := by
  match t with
  | .base letter => rfl
  | .typeVar name => rfl
  | .array element =>
    simp only [TypeSig.print, List.mem_cons, not_or] at h
    exact TypeSig.names_of_notMem (t := element) h.2
  | .object name arguments members => simp [TypeSig.print] at h

theorem textNames_of_notMem {s : String} (h : ';' ∉ s.toList) : textNames s = [] := by
  unfold textNames
  cases hread : parse? s.toList with
  | none => rfl
  | some t =>
    rw [← (parse?_eq_some hread).1] at h
    simp only [Option.map_some, Option.getD_some, t.names_eq, List.flatMap_eq_nil_iff]
    intro type htype
    exact TypeSig.names_of_notMem (Tree.notMem_types h htype)

/-- A table that keeps every outermost name of a text keeps the text. -/
theorem text_renameClasses_eq_self {classes : ClassTable} {s : String} (hfree : MemberFree s)
    (hkeep : ∀ name ∈ textNames s, newName classes name = name) :
    (renameClasses classes s).text = s := by
  have hempty : NewNamesAreNames Table.empty := fun old new hget => by simp at hget
  exact text_renameClasses_back hempty hfree hkeep

theorem parse?_print_type {t : TypeSig} (h : t.WellFormed) :
    parse? t.print = some ⟨none, [.type t]⟩ := by
  have hwell : (Tree.mk none [.type t]).WellFormed := by
    refine ⟨by simp, ?_⟩
    intro item hitem
    obtain rfl := List.mem_singleton.mp hitem
    exact h
  simpa [Tree.print, Item.print] using parse?_print hwell

end Signature

namespace Renaming

variable (r : Renaming)

theorem signature_print {t : TypeSig} (h : t.WellFormed) :
    r.signature (String.ofList t.print) = String.ofList (t.rename r.classes).print := by
  rw [signature, text_renameClasses, String.toList_ofList, parse?_print_type h]
  simp [Tree.rename_eq, Tree.print, Item.rename, Item.print]

/-- A name that can stand in a descriptor is renamed alike there and by itself. -/
theorem classRef_of_isName (harray : ∀ old new, r.classes.get? old = some new →
    Descriptor.isArray old = false) {name : String} (hname : IsName name) :
    r.classRef name = newName r.classes name := by
  cases h : Descriptor.isArray name with
  | false => exact r.classRef_of_not_isArray h
  | true =>
    have hdot : '.' ∉ name.toList := fun hmem => absurd (hname '.' hmem) (by decide)
    have hmark : ';' ∉ name.toList := fun hmem => absurd (hname ';' hmem) (by decide)
    have hget : r.classes.get? name = none := by
      cases hget : r.classes.get? name with
      | none => rfl
      | some new =>
        rw [harray name new hget] at h
        cases h
    rw [r.classRef_of_isArray h, newName, hget, Option.getD_none]
    exact text_renameClasses_eq_self (memberFree_of_notMem hdot) (by simp [textNames_of_notMem hmark])

theorem internalName?_signature (harray : ∀ old new, r.classes.get? old = some new →
    Descriptor.isArray old = false) {s : String} (h : Descriptor.IsPlain s) :
    internalName? (r.signature s) = (internalName? s).map r.classRef := by
  have hkeep : (r.signature s).toList.head? = s.toList.head? := head?_text_renameClasses _ _
  by_cases hhead : s.toList.head? = some 'L'
  · rcases h.valid with htype | rfl | ⟨type, hdescribes⟩
    · obtain ⟨t, ht, rfl⟩ := Descriptor.IsPlainType.exists_print ⟨htype, h.noOpen, h.noDot⟩
      rw [String.toList_ofList] at hhead
      cases t with
      | base letter =>
        simp only [TypeSig.print, List.head?_cons, Option.some.injEq] at hhead
        subst hhead
        exact absurd ht (by simp [TypeSig.IsPlain, isPrimitive])
      | typeVar name => exact ht.elim
      | array element => simp [TypeSig.print] at hhead
      | object name arguments members =>
        obtain ⟨hname, rfl, rfl⟩ := ht
        have hwell : (TypeSig.object name .absent .nil).WellFormed := ⟨hname, trivial, trivial⟩
        rw [r.signature_print hwell]
        simp only [TypeSig.rename, Arguments.rename, Members.rename, ← Descriptor.objectType_eq_print,
          Descriptor.internalName?_objectType, Option.map_some, r.classRef_of_isName harray hname]
        rfl
    · exact absurd hhead (by decide)
    · rw [hdescribes.toList_eq] at hhead
      cases hhead
  · rw [Descriptor.internalName?_eq_none_of_head? hhead,
      Descriptor.internalName?_eq_none_of_head? (by rwa [hkeep])]
    rfl

end Renaming

end Classmith
