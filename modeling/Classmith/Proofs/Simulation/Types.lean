import Classmith.Proofs.Descriptors

/-!
# Types of simulated values

Renaming a descriptor and taking it apart commute: the element of a renamed array type is the renamed
element, and a renamed method descriptor has the renamed parameters and the renamed result.
-/
namespace Classmith

open Signature
open Descriptor (MethodType isFieldType_iff isPrimitive IsPlainType)

/-! ## Field types -/

namespace Signature

theorem TypeSig.IsPlain.notMem_print {t : TypeSig} (h : t.IsPlain) :
    '<' ∉ t.print ∧ '.' ∉ t.print := by
  match t with
  | .base letter =>
    have hletter : isPrimitive letter = true := h
    simp only [TypeSig.print, List.mem_singleton]
    constructor <;> rintro rfl <;> exact absurd hletter (by decide)
  | .array element =>
    have helement := TypeSig.IsPlain.notMem_print (t := element) h
    simpa [TypeSig.print] using helement
  | .object name arguments members =>
    obtain ⟨hname, rfl, rfl⟩ := h
    have hopen : '<' ∉ name.toList := fun hmem => absurd (hname '<' hmem) (by decide)
    have hdot : '.' ∉ name.toList := fun hmem => absurd (hname '.' hmem) (by decide)
    simp [TypeSig.print, Arguments.print, Members.print, hopen, hdot]

/-- New names without a character bring none of it into a type. -/
theorem TypeSig.IsPlain.notMem_print_rename {classes : ClassTable} {mark : Char}
    (hmark : ∀ old new, classes.get? old = some new → mark ∉ new.toList) {t : TypeSig}
    (h : t.IsPlain) (hnot : mark ∉ t.print) : mark ∉ (t.rename classes).print := by
  match t with
  | .base letter => exact hnot
  | .array element =>
    simp only [TypeSig.print, TypeSig.rename, List.mem_cons, not_or] at hnot ⊢
    exact ⟨hnot.1, TypeSig.IsPlain.notMem_print_rename (t := element) hmark h hnot.2⟩
  | .object name arguments members =>
    obtain ⟨hname, rfl, rfl⟩ := h
    simp only [TypeSig.print, Arguments.print, Members.print, List.append_nil, List.cons_append,
      List.mem_cons, List.mem_append, not_or] at hnot
    cases hget : classes.get? name with
    | none =>
      simp [TypeSig.rename, Arguments.rename, Members.rename, TypeSig.print, Arguments.print,
        Members.print, hget, hnot]
    | some new =>
      simp [TypeSig.rename, Arguments.rename, Members.rename, TypeSig.print, Arguments.print,
        Members.print, hget, hnot, hmark name new hget]

end Signature

namespace Descriptor

theorem isPlainType_print {t : TypeSig} (h : t.IsPlain) : IsPlainType (String.ofList t.print) := by
  obtain ⟨hopen, hdot⟩ := h.notMem_print
  refine ⟨?_, ?_, ?_⟩ <;> rw [String.toList_ofList]
  · exact isFieldType_iff.mpr (spellsType_print h)
  · exact hopen
  · exact hdot

theorem IsPlainType.array {s : String} (h : IsPlainType s) : IsPlainType ("[" ++ s) := by
  obtain ⟨t, ht, rfl⟩ := h.exists_print
  have hprint : "[" ++ String.ofList t.print = String.ofList (TypeSig.array t).print := by
    apply String.toList_injective
    simp [TypeSig.print]
  rw [hprint]
  exact isPlainType_print (t := .array t) ht

/-- The element type of an array type. -/
theorem IsPlainType.exists_element {s : String} (h : IsPlainType s) {rest : List Char}
    (hs : s.toList = '[' :: rest) : ∃ t : TypeSig, t.IsPlain ∧ rest = t.print := by
  obtain ⟨t, ht, rfl⟩ := h.exists_print
  rw [String.toList_ofList] at hs
  cases t with
  | base letter =>
    simp only [TypeSig.print, List.cons.injEq] at hs
    obtain ⟨rfl, -⟩ := hs
    exact absurd ht (by simp [TypeSig.IsPlain, isPrimitive])
  | typeVar name => exact ht.elim
  | array element =>
    simp only [TypeSig.print, List.cons.injEq, true_and] at hs
    exact ⟨element, ht, hs.symm⟩
  | object name arguments members => simp [TypeSig.print] at hs

end Descriptor

namespace Renaming

variable (r : Renaming)

theorem isPlainType_signature (hnames : NewNamesAreNames r.classes) {s : String}
    (h : Descriptor.IsPlainType s) : Descriptor.IsPlainType (r.signature s) := by
  obtain ⟨t, ht, rfl⟩ := h.exists_print
  rw [r.signature_print ht.wellFormed]
  exact Descriptor.isPlainType_print (ht.rename hnames)

theorem signature_ne_void (hnames : NewNamesAreNames r.classes) {s : String}
    (h : Descriptor.IsPlainType s) : r.signature s ≠ "V" := by
  intro hvoid
  have hplain := r.isPlainType_signature hnames h
  rw [hvoid] at hplain
  exact absurd hplain (by decide)

theorem signature_array {s : String} (h : Descriptor.IsPlainType s) :
    r.signature ("[" ++ s) = "[" ++ r.signature s := by
  obtain ⟨t, ht, rfl⟩ := h.exists_print
  have hprint : ∀ u : TypeSig, "[" ++ String.ofList u.print = String.ofList (TypeSig.array u).print := by
    intro u
    apply String.toList_injective
    simp [TypeSig.print]
  have hwell : (TypeSig.array t).WellFormed := ht.wellFormed
  rw [hprint, r.signature_print hwell, r.signature_print ht.wellFormed, hprint]
  rfl

end Renaming

/-! ## Method descriptors -/

namespace Descriptor

/-- A method descriptor whose class names have no character that means something else in a signature. -/
def IsPlainMethodType (s : String) : Prop :=
  (∃ type : MethodType, type.Describes s) ∧ '<' ∉ s.toList ∧ '.' ∉ s.toList

instance (s : String) : Decidable (IsPlainMethodType s) := instDecidableAnd

theorem IsPlainMethodType.isPlainType {s : String} (h : IsPlainMethodType s) {type : MethodType}
    (hs : type.Describes s) :
    (∀ p ∈ type.parameters, IsPlainType p) ∧ (type.result = "V" ∨ IsPlainType type.result) := by
  obtain ⟨-, hopen, hdot⟩ := h
  simp only [hs.toList_eq, List.mem_cons, List.mem_append, List.mem_flatMap, not_or, not_exists,
    not_and] at hopen hdot
  refine ⟨fun p hp => ?_, hs.result.imp_right fun hresult => ?_⟩
  · exact ⟨isFieldType_iff.mpr (hs.parameters p hp), hopen.2.1 p hp, hdot.2.1 p hp⟩
  · exact ⟨isFieldType_iff.mpr hresult, hopen.2.2.2, hdot.2.2.2⟩

theorem exists_plain_types {l : List String} (h : ∀ p ∈ l, IsPlainType p) :
    ∃ types : List TypeSig, (∀ t ∈ types, t.IsPlain) ∧ l = types.map fun t => String.ofList t.print := by
  induction l with
  | nil => exact ⟨[], List.forall_mem_nil _, rfl⟩
  | cons p rest ih =>
    obtain ⟨hp, hrest⟩ := List.forall_mem_cons.mp h
    obtain ⟨t, ht, rfl⟩ := hp.exists_print
    obtain ⟨types, htypes, rfl⟩ := ih hrest
    exact ⟨t :: types, List.forall_mem_cons.mpr ⟨ht, htypes⟩, rfl⟩

/-- The spelling of a method descriptor. -/
def printMethodType (parameters : List TypeSig) (result : TypeSig) : List Char :=
  '(' :: parameters.flatMap TypeSig.print ++ ')' :: result.print

theorem ofList_printMethodType (parameters : List TypeSig) (result : TypeSig) :
    String.ofList (printMethodType parameters result) =
      "(" ++ String.join (parameters.map fun t => String.ofList t.print) ++ ")" ++
        String.ofList result.print := by
  apply String.toList_injective
  simp [printMethodType, List.flatMap_map]

end Descriptor

namespace Renaming

open Descriptor (IsPlainMethodType printMethodType split)

variable (r : Renaming)

theorem signature_printMethodType {parameters : List TypeSig} {result : TypeSig}
    (hparameters : ∀ t ∈ parameters, t.WellFormed) (hresult : result.WellFormed) :
    r.signature (String.ofList (printMethodType parameters result)) =
      String.ofList (printMethodType (parameters.map (TypeSig.rename r.classes))
        (result.rename r.classes)) := by
  let tree : Tree := ⟨none, .mark '(' :: parameters.map .type ++ [.mark ')', .type result]⟩
  have hwell : tree.WellFormed := by
    refine ⟨by simp [tree], ?_⟩
    intro item hitem
    simp only [tree, List.cons_append, List.mem_cons, List.mem_append, List.mem_map,
      List.not_mem_nil, or_false] at hitem
    rcases hitem with rfl | ⟨t, ht, rfl⟩ | rfl | rfl
    · rfl
    · exact hparameters t ht
    · rfl
    · exact hresult
  have hprint : tree.print = printMethodType parameters result := by
    simp [tree, Tree.print, printMethodType, Item.print, List.flatMap_map, List.flatMap_append,
      List.flatMap_cons]
  rw [signature, text_renameClasses, String.toList_ofList, ← hprint, parse?_print hwell]
  simp [tree, Tree.rename_eq, Tree.print, printMethodType, Item.rename, Item.print,
    List.flatMap_map, List.flatMap_append, List.flatMap_cons]

theorem signature_void : r.signature "V" = "V" := by
  have hvoid : (TypeSig.base 'V').WellFormed := rfl
  exact r.signature_print hvoid

/-- A method descriptor is renamed part by part. -/
theorem describes_signature (hnames : NewNamesAreNames r.classes) {s : String} (h : IsPlainMethodType s)
    {type : MethodType} (hs : type.Describes s) :
    MethodType.Describes ⟨type.parameters.map r.signature, r.signature type.result⟩ (r.signature s) := by
  obtain ⟨hparameters, hresult⟩ := h.isPlainType hs
  refine ⟨?_, ?_, ?_⟩
  · obtain ⟨types, htypes, heq⟩ := Descriptor.exists_plain_types hparameters
    obtain ⟨t, ht, hprint⟩ : ∃ t : TypeSig, t.WellFormed ∧ type.result = String.ofList t.print := by
      rcases hresult with hvoid | hplain
      · exact ⟨.base 'V', rfl, hvoid⟩
      · obtain ⟨t, ht, hprint⟩ := hplain.exists_print
        exact ⟨t, ht.wellFormed, hprint⟩
    have hnew : types.map (r.signature ∘ fun t => String.ofList t.print) =
        types.map fun t => String.ofList (t.rename r.classes).print :=
      List.map_congr_left fun t ht => r.signature_print (htypes t ht).wellFormed
    rw [hs.text, heq, hprint, ← Descriptor.ofList_printMethodType,
      r.signature_printMethodType (fun t ht => (htypes t ht).wellFormed) ht,
      Descriptor.ofList_printMethodType, List.map_map, List.map_map, hnew, r.signature_print ht]
    rfl
  · intro p hp
    obtain ⟨old, hold, rfl⟩ := List.mem_map.mp hp
    exact isFieldType_iff.mp (r.isPlainType_signature hnames (hparameters old hold)).1
  · rcases hresult with hvoid | hplain
    · exact .inl (by rw [hvoid, signature_void])
    · exact .inr (isFieldType_iff.mp (r.isPlainType_signature hnames hplain).1)

theorem notMem_signature {mark : Char} (hmark : ∀ old new, r.classes.get? old = some new → mark ∉ new.toList)
    {p : String} (h : IsPlainType p) (hnot : mark ∉ p.toList) : mark ∉ (r.signature p).toList := by
  obtain ⟨t, ht, rfl⟩ := h.exists_print
  rw [String.toList_ofList] at hnot
  rw [r.signature_print ht.wellFormed, String.toList_ofList]
  exact ht.notMem_print_rename hmark hnot

/-- New names without a closing parenthesis leave a descriptor that can be split so. -/
theorem split_signature (hnames : NewNamesAreNames r.classes)
    (hparen : ∀ old new, r.classes.get? old = some new → ')' ∉ new.toList) {s : String}
    (h : IsPlainMethodType s) {type : MethodType} (hsplit : split s = .ok type) :
    split (r.signature s) = .ok ⟨type.parameters.map r.signature, r.signature type.result⟩ := by
  obtain ⟨hs, hnot⟩ := Descriptor.split_eq_ok_iff.mp hsplit
  refine (r.describes_signature hnames h hs).split_eq_ok_iff.mpr fun p hp => ?_
  obtain ⟨old, hold, rfl⟩ := List.mem_map.mp hp
  exact r.notMem_signature hparen ((h.isPlainType hs).1 old hold) (hnot old hold)

/-- Some class among the parameters has a closing parenthesis in its name, which keeps the descriptor from being split,
and no class has one after renaming. -/
structure Mends (type : MethodType) (s : String) : Prop where
  describes : type.Describes s
  broken : ∃ p ∈ type.parameters, ')' ∈ p.toList
  mended : ∀ p ∈ type.parameters, ')' ∉ (r.signature p).toList

variable {r}

theorem Mends.split_eq_error {type : MethodType} {s : String} (h : r.Mends type s) :
    ∃ defect, split s = .error defect := by
  obtain ⟨p, hp, hparen⟩ := h.broken
  cases hsplit : split s with
  | error defect => exact ⟨defect, rfl⟩
  | ok found =>
    cases h.describes.eq_of_split hsplit
    exact absurd hparen (h.describes.split_eq_ok_iff.mp hsplit p hp)

theorem Mends.split_signature (hnames : NewNamesAreNames r.classes) {s : String} (hs : IsPlainMethodType s)
    {type : MethodType} (h : r.Mends type s) :
    split (r.signature s) = .ok ⟨type.parameters.map r.signature, r.signature type.result⟩ := by
  refine (r.describes_signature hnames hs h.describes).split_eq_ok_iff.mpr fun p hp => ?_
  obtain ⟨old, hold, rfl⟩ := List.mem_map.mp hp
  exact h.mended old hold

/-- A descriptor that cannot be split stays so unless renaming mends it. -/
theorem split_signature_eq_error (hnames : NewNamesAreNames r.classes) {s : String} (hs : IsPlainMethodType s)
    {defect : Descriptor.Defect} (herror : split s = .error defect) (hmends : ∀ type, ¬r.Mends type s) :
    ∃ defect', split (r.signature s) = .error defect' := by
  obtain ⟨type, htype⟩ := hs.1
  cases hsplit : split (r.signature s) with
  | error defect' => exact ⟨defect', rfl⟩
  | ok found =>
    have hnew := r.describes_signature hnames hs htype
    cases hnew.eq_of_split hsplit
    refine absurd ⟨htype, ?_, fun p hp => ?_⟩ (hmends type)
    · apply Classical.byContradiction
      intro hnone
      have hsplits := htype.split_eq_ok_iff.mpr fun p hp hparen => hnone ⟨p, hp, hparen⟩
      cases herror.symm.trans hsplits
    · exact hnew.split_eq_ok_iff.mp hsplit _ (List.mem_map_of_mem hp)

end Renaming

/-! ## Class names -/

namespace Descriptor

/-- A class name that can stand in a descriptor, or an array type. -/
def IsPlainRef (name : String) : Prop :=
  if isArray name then IsPlainType name else IsName name

instance (name : String) : Decidable (IsPlainRef name) :=
  inferInstanceAs (Decidable (if isArray name then IsPlainType name else IsName name))

theorem IsPlainRef.isPlainType_ofName {name : String} (h : IsPlainRef name) :
    IsPlainType (ofName name) := by
  cases harray : isArray name with
  | true => simpa [IsPlainRef, ofName, harray] using h
  | false =>
    have hname : IsName name := by simpa [IsPlainRef, harray] using h
    have hplain : (TypeSig.object name .absent .nil).IsPlain := ⟨hname, rfl, rfl⟩
    simp only [ofName, harray, Bool.false_eq_true, if_false, objectType_eq_print]
    exact isPlainType_print hplain

end Descriptor

namespace Renaming

variable (r : Renaming)

theorem ofName_classRef (hplain : NewNamesArePlain r.classes) {name : String}
    (h : Descriptor.IsPlainRef name) :
    Descriptor.ofName (r.classRef name) = r.signature (Descriptor.ofName name) := by
  unfold Descriptor.ofName
  rw [r.isArray_classRef hplain]
  cases harray : Descriptor.isArray name with
  | true => simp only [if_true, r.classRef_of_isArray harray]
  | false =>
    have hname : IsName name := by simpa [Descriptor.IsPlainRef, harray] using h
    have hwell : (TypeSig.object name .absent .nil).WellFormed := ⟨hname, trivial, trivial⟩
    simp only [Bool.false_eq_true, if_false, r.classRef_of_not_isArray harray,
      Descriptor.objectType_eq_print, r.signature_print hwell]
    rfl

theorem signature_objectType {name : String} (hname : IsName name)
    (hkeep : newName r.classes name = name) :
    r.signature ("L" ++ name ++ ";") = "L" ++ name ++ ";" := by
  have hwell : (TypeSig.object name .absent .nil).WellFormed := ⟨hname, trivial, trivial⟩
  rw [Descriptor.objectType_eq_print, r.signature_print hwell]
  simp only [newName] at hkeep
  simp only [TypeSig.rename, Arguments.rename, Members.rename, hkeep]

end Renaming

end Classmith
