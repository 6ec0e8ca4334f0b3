import Classmith.Proofs.Rename.Members
import Classmith.Proofs.Rename.Untouched
import Classmith.Proofs.Signature.Substitution

/-!
# What a renaming puts in each place

A renaming as a relation between a class and the class that takes its place. What may stand in each place
afterwards is said by the tables and by what stood there before: a text is read as a derivation and its names
are substituted, a member is looked up by its old owner, descriptor and name.
-/
namespace Classmith

namespace Signature

/-- The second text spells the first one with its names replaced by those of the table; what has no derivation
stays. -/
inductive Respells (classes : ClassTable) (text : String) : String → Prop
  | derived {t t' : Tree} : Derives t text → t.Substitutes classes t' →
      Respells classes text (String.ofList t'.print)
  | underived : (∀ t, ¬Derives t text) → Respells classes text text

theorem respells_renameClasses (classes : ClassTable) (text : String) :
    Respells classes text (renameClasses classes text).text := by
  rw [text_renameClasses]
  cases hread : parse? text.toList with
  | none => exact .underived (parse?_eq_none_iff.mp hread)
  | some t => exact .derived (parse?_eq_some_iff.mp hread) ((t.substitutes_iff classes _).mpr rfl)

theorem assigned_newName (classes : ClassTable) (name : String) :
    Assigned classes name name (newName classes name) := assigned_iff.mpr rfl

end Signature

/-- The name that a table assigns to a member, or its own if the member is not listed. -/
inductive MemberTable.Assigns (t : MemberTable) (owner descriptor name : String) : String → Prop
  | listed {new : String} : t.get? owner descriptor name = some new → Assigns t owner descriptor name new
  | missing : t.get? owner descriptor name = none → Assigns t owner descriptor name name

theorem MemberTable.assigns_getD (t : MemberTable) (owner descriptor name : String) :
    t.Assigns owner descriptor name ((t.get? owner descriptor name).getD name) := by
  cases h : t.get? owner descriptor name with
  | none => exact .missing h
  | some new => exact .listed h

namespace Renaming

open Signature (Assigned Respells assigned_newName respells_renameClasses)

/-- What stands for a class: an array type is a text, anything else the name of a class. -/
inductive ReplacesRef (r : Renaming) (name : String) : String → Prop
  | array {new : String} : Descriptor.isArray name = true → Respells r.classes name new →
      ReplacesRef r name new
  | name {new : String} : Descriptor.isArray name = false → Assigned r.classes name name new →
      ReplacesRef r name new

/-- What may stand in a place after renaming. -/
inductive Replaces (r : Renaming) : Mention → Mention → Prop
  | self {name name' : String} : Assigned r.classes name name name' → Replaces r (.self name) (.self name')
  | ofClass {name name' : String} : r.ReplacesRef name name' → Replaces r (.ofClass name) (.ofClass name')
  | descriptor {text text' : String} : Respells r.classes text text' →
      Replaces r (.descriptor text) (.descriptor text')
  | signature {text text' : String} : Respells r.classes text text' →
      Replaces r (.signature text) (.signature text')
  | declaredField {owner owner' type type' name name' : String} : Assigned r.classes owner owner owner' →
      Respells r.classes type type' → r.fields.Assigns owner type name name' →
      Replaces r (.declaredField owner type name) (.declaredField owner' type' name')
  | declaredMethod {owner owner' type type' name name' : String} : Assigned r.classes owner owner owner' →
      Respells r.classes type type' → r.methods.Assigns owner type name name' →
      Replaces r (.declaredMethod owner type name) (.declaredMethod owner' type' name')
  | recordComponent {owner owner' type type' name name' : String} : Assigned r.classes owner owner owner' →
      Respells r.classes type type' → r.fields.Assigns owner type name name' →
      Replaces r (.recordComponent owner type name) (.recordComponent owner' type' name')
  | fieldAccess {owner owner' type type' name name' : String} : r.ReplacesRef owner owner' →
      Respells r.classes type type' → r.fields.Assigns owner type name name' →
      Replaces r (.fieldAccess owner type name) (.fieldAccess owner' type' name')
  | methodCall {owner owner' type type' name name' : String} : Descriptor.isArray owner = false →
      r.ReplacesRef owner owner' → Respells r.classes type type' → r.methods.Assigns owner type name name' →
      Replaces r (.methodCall owner type name) (.methodCall owner' type' name')
  /-- A method that is called on an array keeps its name, whatever the table has for it. -/
  | arrayMethodCall {owner owner' type type' : String} (name : String) : Descriptor.isArray owner = true →
      r.ReplacesRef owner owner' → Respells r.classes type type' →
      Replaces r (.methodCall owner type name) (.methodCall owner' type' name)
  | fieldHandle {h : Handle} {owner' type' name' : String} : h.isField = true → r.ReplacesRef h.owner owner' →
      Respells r.classes h.descriptor type' → r.fields.Assigns h.owner h.descriptor h.name name' →
      Replaces r (.handle h) (.handle { h with owner := owner', descriptor := type', name := name' })
  | methodHandle {h : Handle} {owner' type' name' : String} : h.isField = false → r.ReplacesRef h.owner owner' →
      Respells r.classes h.descriptor type' → r.methods.Assigns h.owner h.descriptor h.name name' →
      Replaces r (.handle h) (.handle { h with owner := owner', descriptor := type', name := name' })
  | enumConstant {type owner type' name name' : String} : type = "L" ++ owner ++ ";" →
      Respells r.classes type type' → r.fields.Assigns owner type name name' →
      Replaces r (.enumConstant type name) (.enumConstant type' name')
  /-- Only a class type has constants that are fields. -/
  | otherConstant {type type' : String} (name : String) : (∀ owner, type ≠ "L" ++ owner ++ ";") →
      Respells r.classes type type' → Replaces r (.enumConstant type name) (.enumConstant type' name)
  | enclosingMethod {owner owner' type type' name name' : String} : r.ReplacesRef owner owner' →
      Respells r.classes type type' → r.methods.Assigns owner type name name' →
      Replaces r (.enclosingMethod owner type name) (.enclosingMethod owner' type' name')

/-- The simple name of an inner class follows the new name of the class. -/
inductive ReplacesInner (r : Renaming) : InnerClass → InnerClass → Prop
  | anonymous {i i' : InnerClass} : i.innerName = none → i'.innerName = none → ReplacesInner r i i'
  | listed {i i' : InnerClass} {old new : String} : i.innerName = some old → r.classes.get? i.name = some new →
      i'.innerName = some (Name.simple new) → ReplacesInner r i i'
  | missing {i i' : InnerClass} {old : String} : i.innerName = some old → r.classes.get? i.name = none →
      i'.innerName = some old → ReplacesInner r i i'

/-- The second class is the first one renamed: each place holds what replaces the place before, and a class that
names nothing listed is the same in every part. -/
structure Rewrites (r : Renaming) (c c' : Class) : Prop where
  places : List.Forall₂ r.Replaces c.mentions c'.mentions
  innerNames : List.Forall₂ r.ReplacesInner c.innerClasses c'.innerClasses
  unlisted : (∀ b ∈ c.binaryNames, r.classes.get? b = none) → (∀ f ∈ c.namedFields, r.fields.Lacks f) →
    (∀ m ∈ c.namedMethods, r.methods.Lacks m) → c' = c

section

variable (r : Renaming)

theorem respells_signature (text : String) : Respells r.classes text (r.signature text) :=
  respells_renameClasses r.classes text

theorem replacesRef_classRef (name : String) : r.ReplacesRef name (r.classRef name) := by
  cases h : Descriptor.isArray name with
  | true =>
    rw [r.classRef_of_isArray h]
    exact .array h (r.respells_signature name)
  | false =>
    rw [r.classRef_of_not_isArray h]
    exact .name h (assigned_newName r.classes name)

theorem assigns_fieldName (owner descriptor name : String) :
    r.fields.Assigns owner descriptor name (r.fieldName owner descriptor name) :=
  r.fields.assigns_getD owner descriptor name

theorem assigns_methodName (owner descriptor name : String) :
    r.methods.Assigns owner descriptor name (r.methodName owner descriptor name) :=
  r.methods.assigns_getD owner descriptor name

theorem replaces_handle (h : Handle) : r.Replaces (.handle h) (.handle (r.handle h)) := by
  rw [handle]
  cases hkind : h.isField with
  | true =>
    exact .fieldHandle hkind (r.replacesRef_classRef _) (r.respells_signature _) (r.assigns_fieldName ..)
  | false =>
    exact .methodHandle hkind (r.replacesRef_classRef _) (r.respells_signature _) (r.assigns_methodName ..)

/-- The renaming puts into each place what the tables say. -/
theorem replaces_mention (x : Mention) : r.Replaces x (r.mention x) := by
  cases x with
  | self name => exact .self (assigned_newName r.classes name)
  | ofClass name => exact .ofClass (r.replacesRef_classRef name)
  | descriptor text => exact .descriptor (r.respells_signature text)
  | signature text => exact .signature (r.respells_signature text)
  | declaredField owner type name =>
    exact .declaredField (assigned_newName r.classes owner) (r.respells_signature type) (r.assigns_fieldName ..)
  | declaredMethod owner type name =>
    exact .declaredMethod (assigned_newName r.classes owner) (r.respells_signature type)
      (r.assigns_methodName ..)
  | recordComponent owner type name =>
    exact .recordComponent (assigned_newName r.classes owner) (r.respells_signature type)
      (r.assigns_fieldName ..)
  | fieldAccess owner type name =>
    exact .fieldAccess (r.replacesRef_classRef owner) (r.respells_signature type) (r.assigns_fieldName ..)
  | methodCall owner type name =>
    rw [mention]
    cases harray : Descriptor.isArray owner with
    | true =>
      exact .arrayMethodCall name harray (r.replacesRef_classRef owner) (r.respells_signature type)
    | false =>
      exact .methodCall harray (r.replacesRef_classRef owner) (r.respells_signature type)
        (r.assigns_methodName ..)
  | handle h => exact r.replaces_handle h
  | enumConstant type name =>
    rw [mention]
    cases htype : Descriptor.internalName? type with
    | some owner =>
      exact .enumConstant (Descriptor.internalName?_eq_some_iff.mp htype) (r.respells_signature type)
        (r.assigns_fieldName ..)
    | none =>
      refine .otherConstant name (fun owner howner => ?_) (r.respells_signature type)
      rw [Descriptor.internalName?_eq_some_iff.mpr howner] at htype
      cases htype
  | enclosingMethod owner type name =>
    exact .enclosingMethod (r.replacesRef_classRef owner) (r.respells_signature type)
      (r.assigns_methodName ..)

theorem replacesInner_innerClass (i : InnerClass) : r.ReplacesInner i (r.innerClass i) := by
  cases hinner : i.innerName with
  | none => exact .anonymous hinner (by simp [innerClass, hinner])
  | some old =>
    cases hlisted : r.classes.get? i.name with
    | some new => exact .listed hinner hlisted (by simp [innerClass, hinner, hlisted])
    | none => exact .missing hinner hlisted (by simp [innerClass, hinner, hlisted])

theorem rewrites_apply (c : Class) : r.Rewrites c (r.apply c) where
  places := by
    rw [mentions_apply, List.forall₂_map_right_iff, List.forall₂_same]
    exact fun x _ => r.replaces_mention x
  innerNames := by
    rw [apply, List.forall₂_map_right_iff, List.forall₂_same]
    exact fun i _ => r.replacesInner_innerClass i
  unlisted := apply_of_unlisted

end

end Renaming

end Classmith
