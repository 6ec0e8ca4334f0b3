import Classmith.Proofs.DescriptorOffsets

/-!
# The grammar of descriptors

What a field type and a method descriptor look like is said without reading them. A method descriptor is split at
its first closing parenthesis, which is where its parameters end exactly if none of them contains one.
-/
namespace Classmith.Descriptor

open Text

/-! ## Field types -/

/-- The text of a single field type. -/
inductive SpellsType : List Char → Prop where
  | primitive {letter : Char} (h : letter ∈ ['B', 'C', 'D', 'F', 'I', 'J', 'S', 'Z']) : SpellsType [letter]
  | object {name : List Char} (h : ';' ∉ name) : SpellsType ('L' :: name ++ [';'])
  | array {element : List Char} (h : SpellsType element) : SpellsType ('[' :: element)

theorem isPrimitive_iff {c : Char} :
    isPrimitive c = true ↔ c ∈ ['B', 'C', 'D', 'F', 'I', 'J', 'S', 'Z'] := by
  simp [isPrimitive, or_assoc]

theorem SpellsType.fieldType? {type : List Char} (h : SpellsType type) (after : List Char) :
    fieldType? (type ++ after) = some (type, after) := by
  induction h with
  | @primitive letter h =>
    have hletter := isPrimitive_iff.mpr h
    have hother : ∀ mark, isPrimitive mark = false → letter ≠ mark := by
      rintro mark hmark rfl
      rw [hmark] at hletter
      cases hletter
    rw [List.singleton_append, Descriptor.fieldType?, if_neg (hother '[' rfl), if_neg (hother 'L' rfl),
      if_pos hletter]
  | object h =>
    rw [List.append_assoc, List.cons_append, List.singleton_append, Descriptor.fieldType?,
      if_neg (by decide), if_pos rfl, Signature.cutFirst?_append h]
    rfl
  | array h ih =>
    rw [List.cons_append, Descriptor.fieldType?, if_pos rfl, ih]
    rfl

theorem spellsType_of_fieldType? {s type after : List Char} (h : fieldType? s = some (type, after)) :
    SpellsType type := by
  induction s generalizing type with
  | nil => cases h
  | cons c rest ih =>
    rw [Descriptor.fieldType?] at h
    split at h
    · obtain ⟨⟨element, after⟩, helement, heq⟩ := Option.map_eq_some_iff.mp h
      cases heq
      exact .array (ih helement)
    · split at h
      · obtain ⟨⟨name, after⟩, hname, heq⟩ := Option.map_eq_some_iff.mp h
        cases heq
        exact .object (cutFirst?_eq_some hname).2
      · split at h
        · rename_i hprimitive
          cases h
          exact .primitive (isPrimitive_iff.mp hprimitive)
        · cases h

theorem isFieldType_iff {s : List Char} : isFieldType s = true ↔ SpellsType s := by
  constructor
  · intro h
    unfold isFieldType at h
    split at h
    · rename_i type hread
      have hs := eq_append_of_fieldType? hread
      rw [List.append_nil] at hs
      exact hs ▸ spellsType_of_fieldType? hread
    · cases h
  · intro h
    have hread := h.fieldType? []
    rw [List.append_nil] at hread
    simp [isFieldType, hread]

/-! ## Sequences of field types -/

instance (s : List Char) : Decidable (SpellsType s) := decidable_of_iff _ isFieldType_iff

theorem SpellsType.ne_nil {type : List Char} (h : SpellsType type) : type ≠ [] := by
  cases h <;> exact List.cons_ne_nil _ _

theorem fieldTypes_cons {type : List Char} (h : SpellsType type) (offset : Nat) (after : List Char) :
    fieldTypes offset (type ++ after) =
      (fieldTypes (offset + byteLength type) after).map (String.ofList type :: ·) := by
  have hread := h.fieldType? after
  have hnonempty : ¬(type ++ after).isEmpty = true := by simp [h.ne_nil]
  rw [fieldTypes, if_neg hnonempty]
  split
  · rename_i hnone
    cases hread.symm.trans hnone
  · rename_i found rest hsome
    cases hread.symm.trans hsome
    cases fieldTypes (offset + byteLength type) after with
    | ok types => rfl
    | error at_ => rfl

theorem fieldTypes_eq_ok_iff {offset : Nat} {s : List Char} {types : List String} :
    fieldTypes offset s = .ok types ↔
      (∀ p ∈ types, SpellsType p.toList) ∧ s = types.flatMap String.toList := by
  constructor
  · intro h
    fun_induction fieldTypes offset s generalizing types with
    | case1 offset s hempty =>
      cases h
      exact ⟨List.forall_mem_nil _, List.isEmpty_iff.mp hempty⟩
    | case2 => cases h
    | case3 offset s hnonempty type after hread rest hrest ih =>
      cases h
      obtain ⟨hspells, rfl⟩ := ih hrest
      refine ⟨List.forall_mem_cons.mpr ⟨?_, hspells⟩, ?_⟩
      · rw [String.toList_ofList]
        exact spellsType_of_fieldType? hread
      · rw [List.flatMap_cons, String.toList_ofList]
        exact eq_append_of_fieldType? hread
    | case4 => cases h
  · rintro ⟨hspells, rfl⟩
    induction types generalizing offset with
    | nil =>
      rw [List.flatMap_nil, fieldTypes]
      rfl
    | cons p rest ih =>
      obtain ⟨hp, hrest⟩ := List.forall_mem_cons.mp hspells
      rw [List.flatMap_cons, fieldTypes_cons hp, ih hrest, String.ofList_toList]
      rfl

/-! ## Method descriptors -/

/-- The text is the parameters in parentheses and the result after them. -/
structure MethodType.Describes (type : MethodType) (s : String) : Prop where
  text : s = "(" ++ String.join type.parameters ++ ")" ++ type.result
  parameters : ∀ p ∈ type.parameters, SpellsType p.toList
  result : type.result = "V" ∨ SpellsType type.result.toList

theorem MethodType.Describes.toList_eq {type : MethodType} {s : String} (h : type.Describes s) :
    s.toList = '(' :: (type.parameters.flatMap String.toList ++ ')' :: type.result.toList) := by
  rw [h.text]
  simp

theorem SpellsType.head?_ne {type : List Char} (h : SpellsType type) : type.head? ≠ some ')' := by
  cases h with
  | primitive hletter =>
    intro hparen
    cases hparen
    exact absurd hletter (by decide)
  | object _ => simp
  | array _ => simp

/-- A field type shows its own end, and none begins with the parenthesis that ends the parameters. -/
theorem parameters_unique {types others : List String} (h : ∀ p ∈ types, SpellsType p.toList)
    (hothers : ∀ p ∈ others, SpellsType p.toList) {after rest : List Char}
    (heq : types.flatMap String.toList ++ ')' :: after = others.flatMap String.toList ++ ')' :: rest) :
    types = others ∧ after = rest := by
  have hclosed : ∀ {p : String} {more : List String} {l l' : List Char}, SpellsType p.toList →
      ')' :: l ≠ (p :: more).flatMap String.toList ++ l' := by
    intro p more l l' hp hbad
    obtain ⟨c, tail, hc⟩ := List.exists_cons_of_ne_nil hp.ne_nil
    rw [List.flatMap_cons, hc, List.cons_append, List.cons_append, List.cons.injEq] at hbad
    exact hp.head?_ne (by rw [hc, ← hbad.1]; rfl)
  induction types generalizing others with
  | nil =>
    cases others with
    | nil => exact ⟨rfl, (List.cons.inj heq).2⟩
    | cons p others => exact absurd heq (hclosed (hothers p List.mem_cons_self))
  | cons p types ih =>
    obtain ⟨hp, htypes⟩ := List.forall_mem_cons.mp h
    cases others with
    | nil => exact absurd heq.symm (hclosed hp)
    | cons q others =>
      obtain ⟨hq, hrest⟩ := List.forall_mem_cons.mp hothers
      rw [List.flatMap_cons, List.flatMap_cons, List.append_assoc, List.append_assoc] at heq
      have hread := hp.fieldType? (types.flatMap String.toList ++ ')' :: after)
      rw [heq, hq.fieldType?, Option.some.injEq, Prod.mk.injEq] at hread
      obtain ⟨rfl, rfl⟩ := ih htypes hrest hread.2.symm
      exact ⟨by rw [String.toList_injective hread.1], rfl⟩

/-- A text is a method descriptor in one way at most. -/
theorem MethodType.Describes.unique {type other : MethodType} {s : String} (h : type.Describes s)
    (hother : other.Describes s) : type = other := by
  have heq := h.toList_eq.symm.trans hother.toList_eq
  obtain ⟨hparameters, hresult⟩ := parameters_unique h.parameters hother.parameters (List.cons.inj heq).2
  cases type
  cases other
  cases hparameters
  cases String.toList_injective hresult
  rfl

/-- A text is a method descriptor if it can be cut at one of its closing parentheses so that field types stand before
and a field type or `V` after it. -/
def isMethodDescriptor : List Char → Bool
  | '(' :: rest => (List.range rest.length).any fun i =>
      rest[i]? = some ')' && (fieldTypes 1 (rest.take i)).isOk &&
        (rest.drop (i + 1) = ['V'] || isFieldType (rest.drop (i + 1)))
  | _ => false

theorem isMethodDescriptor_iff {s : String} :
    isMethodDescriptor s.toList = true ↔ ∃ type : MethodType, type.Describes s := by
  constructor
  · intro h
    unfold isMethodDescriptor at h
    split at h
    · rename_i rest hs
      simp only [List.any_eq_true, List.mem_range, Bool.and_eq_true, Bool.or_eq_true, decide_eq_true_eq,
        isFieldType_iff] at h
      obtain ⟨i, hi, ⟨hparen, htypes⟩, hresult⟩ := h
      cases hread : fieldTypes 1 (rest.take i) with
      | error at_ =>
        rw [hread] at htypes
        cases htypes
      | ok types =>
        obtain ⟨hspells, hbefore⟩ := fieldTypes_eq_ok_iff.mp hread
        have hrest : rest = types.flatMap String.toList ++ ')' :: rest.drop (i + 1) := by
          rw [← hbefore, ← (List.getElem?_eq_some_iff.mp hparen).2, List.getElem_cons_drop, List.take_append_drop]
        refine ⟨⟨types, String.ofList (rest.drop (i + 1))⟩, ?_, hspells, ?_⟩
        · apply String.toList_injective
          simpa [hs] using hrest
        · refine hresult.imp (fun hvoid => ?_) fun hspells => ?_
          · rw [hvoid]
          · rwa [String.toList_ofList]
    · cases h
  · rintro ⟨type, h⟩
    have hread : fieldTypes 1 (type.parameters.flatMap String.toList) = .ok type.parameters :=
      fieldTypes_eq_ok_iff.mpr ⟨h.parameters, rfl⟩
    have hresult : type.result.toList = ['V'] ∨ SpellsType type.result.toList :=
      h.result.imp_left fun hvoid => by rw [hvoid]; rfl
    have hafter : (type.parameters.flatMap String.toList ++ ')' :: type.result.toList).drop
        ((type.parameters.flatMap String.toList).length + 1) = type.result.toList := by
      rw [← List.drop_drop, List.drop_left, List.drop_one, List.tail_cons]
    rw [h.toList_eq]
    simp only [isMethodDescriptor, List.any_eq_true, List.mem_range, Bool.and_eq_true, Bool.or_eq_true,
      decide_eq_true_eq, isFieldType_iff]
    refine ⟨(type.parameters.flatMap String.toList).length, by simp, ⟨by simp, ?_⟩, by rwa [hafter]⟩
    rw [List.take_left, hread]
    rfl

instance (s : String) : Decidable (∃ type : MethodType, type.Describes s) :=
  decidable_of_iff _ isMethodDescriptor_iff

/-- The text is a method descriptor that can be cut at its first closing parenthesis. -/
structure MethodType.Spells (type : MethodType) (s : String) : Prop extends type.Describes s where
  noParen : ∀ p ∈ type.parameters, ')' ∉ p.toList

theorem MethodType.spells_iff {type : MethodType} {s : String} : type.Spells s ↔
    s = "(" ++ String.join type.parameters ++ ")" ++ type.result ∧
      (∀ p ∈ type.parameters, SpellsType p.toList ∧ ')' ∉ p.toList) ∧
      (type.result = "V" ∨ SpellsType type.result.toList) := by
  constructor
  · intro h
    exact ⟨h.text, fun p hp => ⟨h.parameters p hp, h.noParen p hp⟩, h.result⟩
  · rintro ⟨htext, hparameters, hresult⟩
    exact ⟨⟨htext, fun p hp => (hparameters p hp).1, hresult⟩, fun p hp => (hparameters p hp).2⟩

instance (type : MethodType) (s : String) : Decidable (type.Spells s) := decidable_of_iff _ MethodType.spells_iff.symm

theorem split_eq_ok_iff {s : String} {type : MethodType} : split s = .ok type ↔ type.Spells s := by
  constructor
  · intro h
    unfold split at h
    split at h
    · rename_i rest hs
      split at h
      · cases h
      · rename_i inside result hcut
        obtain ⟨rfl, hparen⟩ := cutFirst?_eq_some hcut
        split at h
        · cases h
        · rename_i parameters hparameters
          obtain ⟨hspells, rfl⟩ := fieldTypes_eq_ok_iff.mp hparameters
          split at h
          · rename_i hresult
            cases h
            refine ⟨⟨?_, hspells, ?_⟩, fun p hp hmem => hparen (List.mem_flatMap.mpr ⟨p, hp, hmem⟩)⟩
            · apply String.toList_injective
              simp [hs]
            · rw [Bool.or_eq_true, decide_eq_true_eq, isFieldType_iff] at hresult
              rcases hresult with rfl | hspells
              · exact .inl rfl
              · exact .inr (by rwa [String.toList_ofList])
          · cases h
    · cases h
  · intro h
    have hparen : ')' ∉ type.parameters.flatMap String.toList := by
      intro hmem
      obtain ⟨p, hp, hin⟩ := List.mem_flatMap.mp hmem
      exact h.noParen p hp hin
    have hparameters : fieldTypes 1 (type.parameters.flatMap String.toList) = .ok type.parameters :=
      fieldTypes_eq_ok_iff.mpr ⟨h.parameters, rfl⟩
    have hresult : (type.result.toList = ['V'] || isFieldType type.result.toList) = true := by
      rw [Bool.or_eq_true, decide_eq_true_eq, isFieldType_iff]
      refine h.result.imp_left fun hvoid => ?_
      rw [hvoid]
      rfl
    simp only [split, h.toList_eq, Signature.cutFirst?_append hparen, hparameters, hresult, if_true,
      String.ofList_toList]

/-- A method descriptor is split into its parts exactly if no class among its parameters has a closing parenthesis in
its name. -/
theorem MethodType.Describes.split_eq_ok_iff {type : MethodType} {s : String} (h : type.Describes s) :
    split s = .ok type ↔ ∀ p ∈ type.parameters, ')' ∉ p.toList := by
  rw [Descriptor.split_eq_ok_iff]
  exact ⟨fun hspells => hspells.noParen, fun hparen => ⟨h, hparen⟩⟩

theorem MethodType.Describes.eq_of_split {type other : MethodType} {s : String} (h : type.Describes s)
    (hsplit : split s = .ok other) : other = type :=
  (Descriptor.split_eq_ok_iff.mp hsplit).toDescribes.unique h

/-- A text splits into parameters and a result exactly if it spells them: `(`, the parameters one after another, `)`
and the result, where each parameter is a single field type without a `)` in it and the result is `V` or a single
field type. There is at most one way to do so. Splitting takes no more rounds in any of its loops than the text has
bytes and one more, and all offsets it cuts at lie between characters. -/
theorem split_exact (s : String) :
    (∀ type, split s = .ok type ↔ type.Spells s) ∧
    (∀ type other : MethodType, type.Spells s → other.Spells s → type = other) ∧
    splitWithin (byteLength s.toList + 1) s = some (split s) := by
  refine ⟨fun type => split_eq_ok_iff, fun type other h hother => h.toDescribes.unique hother.toDescribes, ?_⟩
  exact splitWithin_eq (Nat.lt_succ_self _)

end Classmith.Descriptor
