import Classmith.Proofs.Rename.Operations
import Mathlib.Logic.Relation

/-!
# How far field renames reach

Which classes a renamed field is renamed through, and when the order in which the classes were registered
has a say in it. Renames travel along superclasses only, and of two classes above another that rename the
same field the one registered last decides.
-/
namespace Classmith

open MemberTable (Entry put)
open Remapper (Operation run)

/-! ## What is inherited does not depend on the order -/

theorem ExtendsDirectly.congr {classes others : List Class} (h : ∀ c, c ∈ classes ↔ c ∈ others) :
    ExtendsDirectly classes = ExtendsDirectly others := by
  funext above name
  simp only [ExtendsDirectly, h]

theorem Inherits.congr {classes others : List Class} (h : ∀ c, c ∈ classes ↔ c ∈ others)
    {renames : MemberTable} {o d n new : String} {c : Class} {f : Field} :
    Inherits classes renames o d n new c f → Inherits others renames o d n new c f := by
  intro hinherits
  refine { hinherits with declares := (h c).mp hinherits.declares, below := ?_ }
  have hbelow := hinherits.below
  rwa [Descends, ExtendsDirectly.congr h] at hbelow

/-- No class without a rename of its own inherits two different names for a field. -/
def Unambiguous (classes : List Class) (renames : MemberTable) : Prop :=
  ∀ o d n new new' c c' f f', renames.get? o d n = none → Inherits classes renames o d n new c f →
    Inherits classes renames o d n new' c' f' → new = new'

theorem Unambiguous.congr {classes others : List Class} (h : ∀ c, c ∈ classes ↔ c ∈ others)
    {renames : MemberTable} (hclasses : Unambiguous classes renames) : Unambiguous others renames := by
  intro o d n new new' c c' f f' hown hnew hnew'
  have hback : ∀ c, c ∈ others ↔ c ∈ classes := fun c => (h c).symm
  exact hclasses o d n new new' c c' f f' hown (hnew.congr hback) (hnew'.congr hback)

/-- Without contradictions the table says what a class has itself or else inherits. -/
theorem Unambiguous.get?_eq_some_iff {classes : List Class} {renames : MemberTable}
    (h : Unambiguous classes renames) {o d n new : String} :
    (inheritedFields classes renames).get? o d n = some new ↔
      renames.get? o d n = some new ∨
        renames.get? o d n = none ∧ ∃ c f, Inherits classes renames o d n new c f := by
  cases hown : renames.get? o d n with
  | some own => simp [get?_inheritedFields_of_own hown]
  | none =>
    simp only [reduceCtorEq, true_and, false_or]
    constructor
    · intro hget
      rcases own_or_inherits_of_get? hget with hsome | hinherits
      · rw [hown] at hsome
        cases hsome
      · exact hinherits
    · rintro ⟨c, f, hinherits⟩
      obtain ⟨found, hfound⟩ := Option.isSome_iff_exists.mp (isSome_get?_inheritedFields hinherits)
      rcases own_or_inherits_of_get? hfound with hsome | ⟨c', f', hother⟩
      · rw [hown] at hsome
        cases hsome
      · rw [hfound, h o d n found new c' c f' f hown hother hinherits]

theorem trim_inheritedFields (classes : List Class) (renames : MemberTable) :
    (inheritedFields classes renames).Trim := by
  rw [inheritedFields_eq]
  exact (MemberTable.trim_empty.foldl_put _).foldl_put _

theorem Unambiguous.inheritedFields_congr {classes others : List Class}
    (hsame : ∀ c, c ∈ classes ↔ c ∈ others) {renames : MemberTable}
    (h : Unambiguous classes renames) :
    inheritedFields classes renames = inheritedFields others renames := by
  refine (trim_inheritedFields classes renames).ext (trim_inheritedFields others renames) ?_
  intro o d n
  apply Option.ext
  intro new
  rw [h.get?_eq_some_iff, (h.congr hsame).get?_eq_some_iff]
  have hinherits : ∀ c f, Inherits classes renames o d n new c f ↔
      Inherits others renames o d n new c f :=
    fun c f => ⟨.congr hsame, .congr fun c => (hsame c).symm⟩
  simp only [hinherits]

/-! ## The class registered last decides -/

/-- Of the classes that a field is inherited from the last one decides. -/
theorem get?_inheritedFields_of_no_later {front back : List Class} {renames : MemberTable}
    {o d n new : String} {c : Class} {f : Field} (hown : renames.get? o d n = none)
    (h : Inherits (front ++ c :: back) renames o d n new c f)
    (hlater : ∀ later ∈ back, ∀ other g, ¬Inherits (front ++ c :: back) renames o d n other later g) :
    (inheritedFields (front ++ c :: back) renames).get? o d n = some new := by
  have hkept : ∀ other, ⟨o, d, n, other⟩ ∉ renames.toList := by
    intro other hmem
    rw [renames.mem_toList, hown] at hmem
    cases hmem
  have hback : ∀ other, ⟨o, d, n, other⟩ ∉
      back.flatMap (bequests (subclassIndex (front ++ c :: back)) renames) := by
    intro other hmem
    obtain ⟨later, hin, hmem⟩ := List.mem_flatMap.mp hmem
    have hclass : later ∈ front ++ c :: back := by simp [hin]
    obtain ⟨g, hg⟩ := (mem_bequests hclass).mp hmem
    exact hlater later hin other g hg
  rw [inheritedFields_eq, MemberTable.get?_foldl_put_of_notMem hkept, inheritedEntries_eq,
    List.flatMap_append, List.flatMap_cons, List.foldl_append, List.foldl_append,
    MemberTable.get?_foldl_put_of_notMem hback]
  apply MemberTable.get?_foldl_put_of_mem ((mem_bequests h.declares).mpr ⟨f, h⟩)
  intro other hother
  obtain ⟨g, hg⟩ := (mem_bequests h.declares).mp hother
  exact Option.some.inj (hg.renamed.symm.trans h.renamed)

theorem get?_inheritedFields_of_last {front : List Class} {renames : MemberTable}
    {o d n new : String} {c : Class} {f : Field} (hown : renames.get? o d n = none)
    (h : Inherits (front ++ [c]) renames o d n new c f) :
    (inheritedFields (front ++ [c]) renames).get? o d n = some new :=
  get?_inheritedFields_of_no_later hown h (by simp)

/-! ## Registering classes in different orders -/

/-- Registers classes one after the other and then renames of fields. -/
def registration (classes : List Class) (renames : List Entry) : List Operation :=
  .addTargets classes :: renames.map fun e => .renameField e.owner e.descriptor e.name e.new

namespace Remapper

theorem foldl_renameField (renames : List Entry) (r : Remapper) :
    ∃ r', (renames.map fun e => Operation.renameField e.owner e.descriptor e.name e.new).foldl
        Remapper.perform r = r' ∧ r'.targets = r.targets ∧ r'.classes = r.classes ∧
      r'.methods = r.methods ∧ r'.fields = renames.foldl put r.fields := by
  induction renames generalizing r with
  | nil => exact ⟨r, rfl, rfl, rfl, rfl, rfl⟩
  | cons e rest ih => exact ih (r.renameField e.owner e.descriptor e.name e.new)

theorem run_registration {classes : List Class} (hnodup : (classes.map (·.name)).Nodup)
    (renames : List Entry) :
    ∃ r, run (registration classes renames) = r ∧ r.targets.classes = classes ∧
      r.classes = Table.empty ∧ r.methods = MemberTable.empty ∧
      r.fields = renames.foldl put MemberTable.empty := by
  obtain ⟨loaded, hload, htargets, hclasses, hfields, hmethods, -⟩ :=
    addTargets_of_nodup hnodup (r := new) (fun _ _ => rfl) (current_withTargets Pool.empty)
  obtain ⟨r, hrun, hsameTargets, hsameClasses, hsameMethods, hallFields⟩ :=
    foldl_renameField renames loaded
  have hstart : new.perform (.addTargets classes) = loaded := by
    simp only [Remapper.perform, hload]
  refine ⟨r, ?_, ?_, ?_, ?_, ?_⟩
  · rw [run, registration, List.foldl_cons, hstart, hrun]
  · rw [hsameTargets, htargets]
    rfl
  · rw [hsameClasses, hclasses]
    rfl
  · rw [hsameMethods, hmethods]
    rfl
  · rw [hallFields, hfields]
    rfl

/-- Two remappers give every field the same new name and make the same of every class. -/
structure FieldsAgree (r r' : Remapper) : Prop where
  fieldName : ∀ owner descriptor name,
    (r.fieldName? owner descriptor name).1 = (r'.fieldName? owner descriptor name).1
  process : ∀ (i j : Nat) (c : Class), r.targets.classes[i]? = some c →
    r'.targets.classes[j]? = some c →
      r.process.2.targets.classes[i]? = r'.process.2.targets.classes[j]?

theorem fieldsAgree_of_inheritedFields_eq {r r' : Remapper} (hr : r.Current) (hr' : r'.Current)
    (hclasses : r.classes = r'.classes) (hmethods : r.methods = r'.methods)
    (h : inheritedFields r.targets.classes r.fields =
      inheritedFields r'.targets.classes r'.fields) : r.FieldsAgree r' where
  fieldName owner descriptor name := by rw [hr.fieldName?, hr'.fieldName?, h]
  process := by
    have hpending : r.pending = r'.pending := by
      have hfields : r.refresh.inherited = r'.refresh.inherited := by
        rw [← hr.pending_fields, ← hr'.pending_fields] at h
        exact h
      simp only [pending, hclasses, hmethods, hfields]
    intro i j c hi hj
    rw [r.classes_process, r'.classes_process, List.getElem?_map, List.getElem?_map, hi, hj, hpending]

end Remapper

/-- Classes with different names may be registered in any order, with the same renames of fields, to the
same effect if and only if no class without a rename of its own inherits two different ones. -/
theorem order_irrelevant_iff (classes : List Class) (hnodup : (classes.map (·.name)).Nodup)
    (renames : List Entry) :
    (∀ first second, first.Perm classes → second.Perm classes →
      (run (registration first renames)).FieldsAgree (run (registration second renames))) ↔
    Unambiguous classes (renames.foldl put MemberTable.empty) := by
  have hregistered : ∀ order : List Class, order.Perm classes →
      ∃ r, run (registration order renames) = r ∧ r.targets.classes = order ∧
        r.classes = Table.empty ∧ r.methods = MemberTable.empty ∧
        r.fields = renames.foldl put MemberTable.empty :=
    fun order hperm => Remapper.run_registration ((hperm.map _).nodup_iff.mpr hnodup) renames
  constructor
  · intro hagree o d n new new' c c' f f' hown hnew hnew'
    -- each of the two classes decides when it comes last
    have hlast : ∀ {new c f}, Inherits classes (renames.foldl put MemberTable.empty) o d n new c f →
        ∃ order, order.Perm classes ∧
          ((run (registration order renames)).fieldName? o d n).1 = some new := by
      intro new c f hinherits
      obtain ⟨before, after, rfl⟩ := List.append_of_mem hinherits.declares
      have hperm : (before ++ after ++ [c]).Perm (before ++ c :: after) := by
        rw [List.append_assoc]
        exact (List.perm_append_singleton c after).append_left before
      obtain ⟨r, hrun, htargets, -, -, hfields⟩ := hregistered _ hperm
      have hcurrent := Remapper.current_run (registration (before ++ after ++ [c]) renames)
      refine ⟨_, hperm, ?_⟩
      rw [hcurrent.fieldName?, hrun, htargets, hfields]
      exact get?_inheritedFields_of_last hown (hinherits.congr fun c => hperm.mem_iff.symm)
    obtain ⟨first, hfirst, hget⟩ := hlast hnew
    obtain ⟨second, hsecond, hget'⟩ := hlast hnew'
    have hsame := (hagree first second hfirst hsecond).fieldName o d n
    rw [hget, hget'] at hsame
    exact Option.some.inj hsame
  · intro hunambiguous first second hfirst hsecond
    obtain ⟨r, hrun, htargets, hclasses, hmethods, hfields⟩ := hregistered first hfirst
    obtain ⟨r', hrun', htargets', hclasses', hmethods', hfields'⟩ := hregistered second hsecond
    apply Remapper.fieldsAgree_of_inheritedFields_eq (Remapper.current_run _) (Remapper.current_run _)
    · rw [hrun, hrun', hclasses, hclasses']
    · rw [hrun, hrun', hmethods, hmethods']
    · rw [hrun, hrun', htargets, htargets', hfields, hfields']
      have hmem : ∀ c, c ∈ first ↔ c ∈ second := fun c => (hfirst.trans hsecond.symm).mem_iff
      exact (hunambiguous.congr fun c => hfirst.mem_iff.symm).inheritedFields_congr hmem

namespace Samples

/-- A class with a public field, below another class. -/
def layer (name above : String) : Class where
  name := name
  superName := some above
  fields := [{ access := 1, name := "f", descriptor := "I" }]

def top : Class := layer "p/A" "java/lang/Object"

def middle : Class := layer "p/B" "p/A"

def bottom : Class where
  name := "p/C"
  superName := some "p/B"

def renameTop : Entry := ⟨"p/A", "I", "f", "x"⟩

def renameMiddle : Entry := ⟨"p/B", "I", "f", "y"⟩

end Samples

open Samples in
/-- One rename is inherited along a chain of classes, whichever class comes first. -/
theorem order_irrelevant_iff_chain :
    (run (registration [top, middle, bottom] [renameTop])).FieldsAgree
      (run (registration [top, middle, bottom].reverse [renameTop])) ∧
    ((run (registration [top, middle, bottom].reverse [renameTop])).fieldName? "p/C" "I" "f").1 =
      some "x" := by
  refine ⟨?_, by decide +kernel⟩
  refine (order_irrelevant_iff [top, middle, bottom] (by decide +kernel) [renameTop]).mpr ?_ _ _
    (.refl _) (List.reverse_perm _)
  intro o d n new new' c c' f f' _ hnew hnew'
  have hone : ∀ {owner new : String},
      ([renameTop].foldl put MemberTable.empty).get? owner d n = some new → new = "x" := by
    intro owner new hget
    rw [List.foldl_cons, List.foldl_nil, put, MemberTable.get?_insert] at hget
    split at hget
    · exact (Option.some.inj hget).symm
    · simp at hget
  rw [hone hnew.renamed, hone hnew'.renamed]

open Samples in
/-- A class inherits the rename of whichever of two classes above it was registered last, although the
field of the nearer class hides the other. -/
theorem order_decides_hidden_field :
    ((run (registration [top, middle, bottom] [renameTop, renameMiddle])).fieldName?
      "p/C" "I" "f").1 = some "y" ∧
    ((run (registration [middle, top, bottom] [renameTop, renameMiddle])).fieldName?
      "p/C" "I" "f").1 = some "x" ∧
    [middle, top, bottom].Perm [top, middle, bottom] ∧
    ([top, middle, bottom].map (·.name)).Nodup :=
  ⟨by decide +kernel, by decide +kernel, .swap _ _ _, by decide +kernel⟩

/-! ## Superclasses pass renames on, interfaces do not -/

/-- One of the classes has the name and, as its superclass or as an interface, the other name. -/
def SubtypeDirectly (classes : List Class) (above name : String) : Prop :=
  ∃ c ∈ classes, c.name = name ∧ (c.superName = some above ∨ above ∈ c.interfaces)

theorem isSome_get?_inheritedFields_iff {classes : List Class} {renames : MemberTable}
    {o d n : String} : ((inheritedFields classes renames).get? o d n).isSome ↔
      (renames.get? o d n).isSome ∨ ∃ new c f, Inherits classes renames o d n new c f := by
  constructor
  · intro h
    obtain ⟨new, hnew⟩ := Option.isSome_iff_exists.mp h
    rcases own_or_inherits_of_get? hnew with hown | hinherits
    · exact Or.inl (by simp [hown])
    · exact Or.inr ⟨new, hinherits⟩
  · rintro (h | ⟨new, c, f, h⟩)
    · obtain ⟨new, hnew⟩ := Option.isSome_iff_exists.mp h
      simp [get?_inheritedFields_of_own hnew]
    · exact isSome_get?_inheritedFields h

theorem inherits_of_descends {classes : List Class} {renames : MemberTable} {c : Class} {f : Field}
    (hc : c ∈ classes) (hf : f ∈ c.fields) (hprivate : Access.isPrivate f.access = false)
    (hseen : Access.isPublic f.access = true ∨ Access.isProtected f.access = true) {new : String}
    (hrenamed : renames.get? c.name f.descriptor f.name = some new) {o : String} (ho : o ≠ c.name)
    (hbelow : Descends classes c.name o) :
    Inherits classes renames o f.descriptor f.name new c f where
  declares := hc
  field := hf
  descriptor := rfl
  name := rfl
  renamed := hrenamed
  other := ho
  below := hbelow
  visible := by rcases hseen with h | h <;> simp [Field.visibleFrom, hprivate, h]

/-- The rename of a public or protected field reaches its class and every class that a chain of
superclasses leads up from, whatever was done to the remapper. A field is renamed through no class
but one that has the rename itself or that such a chain leads from to a renamed field it sees. -/
theorem field_rename_reaches (operations : List Operation) :
    (∀ c ∈ (run operations).targets.classes, ∀ f ∈ c.fields, Access.isPrivate f.access = false →
      (Access.isPublic f.access = true ∨ Access.isProtected f.access = true) →
      ((run operations).fields.get? c.name f.descriptor f.name).isSome →
      ∀ o, Relation.ReflTransGen (ExtendsDirectly (run operations).targets.classes) c.name o →
        ((run operations).fieldName? o f.descriptor f.name).1.isSome) ∧
    ∀ o d n, ((run operations).fieldName? o d n).1.isSome ↔
      ((run operations).fields.get? o d n).isSome ∨
        ∃ new c f, Inherits (run operations).targets.classes (run operations).fields o d n new c f := by
  have hcurrent := Remapper.current_run operations
  have hexact : ∀ o d n, ((run operations).fieldName? o d n).1.isSome ↔
      ((run operations).fields.get? o d n).isSome ∨
        ∃ new c f, Inherits (run operations).targets.classes (run operations).fields o d n new c f := by
    intro o d n
    rw [hcurrent.fieldName?]
    exact isSome_get?_inheritedFields_iff
  refine ⟨?_, hexact⟩
  intro c hc f hf hprivate hseen hrenamed o hchain
  rw [hexact]
  by_cases ho : o = c.name
  · exact Or.inl (ho ▸ hrenamed)
  · have hbelow : Descends (run operations).targets.classes c.name o :=
      (Relation.reflTransGen_iff_eq_or_transGen.mp hchain).resolve_left ho
    obtain ⟨new, hnew⟩ := Option.isSome_iff_exists.mp hrenamed
    exact Or.inr ⟨new, c, f, inherits_of_descends hc hf hprivate hseen hnew ho hbelow⟩

open Samples in
theorem field_rename_reaches_grandchild :
    ((run (registration [bottom, middle, top] [renameTop])).fields.get? "p/A" "I" "f").isSome ∧
    Relation.ReflTransGen
      (ExtendsDirectly (run (registration [bottom, middle, top] [renameTop])).targets.classes)
      "p/A" "p/C" ∧
    ((run (registration [bottom, middle, top] [renameTop])).fieldName? "p/C" "I" "f").1.isSome := by
  have hclasses : (run (registration [bottom, middle, top] [renameTop])).targets.classes =
      [bottom, middle, top] := rfl
  have hrenamed :
      ((run (registration [bottom, middle, top] [renameTop])).fields.get? "p/A" "I" "f").isSome := by
    decide +kernel
  have hchain : Relation.ReflTransGen
      (ExtendsDirectly (run (registration [bottom, middle, top] [renameTop])).targets.classes)
      "p/A" "p/C" := by
    rw [hclasses]
    apply Relation.ReflTransGen.tail (b := "p/B")
    · exact .single ⟨middle, by simp, rfl, rfl⟩
    · exact ⟨bottom, by simp, rfl, rfl⟩
  refine ⟨hrenamed, hchain, ?_⟩
  exact (field_rename_reaches (registration [bottom, middle, top] [renameTop])).1 top
    (by rw [hclasses]; simp) { access := 1, name := "f", descriptor := "I" } (by simp [top, layer])
    (by decide) (Or.inl (by decide)) hrenamed "p/C" hchain

namespace Samples

/-- An interface with a constant. -/
def limits : Class where
  access := 0x0601
  name := "p/Limits"
  superName := some "java/lang/Object"
  fields := [{ access := 0x0019, name := "MAX", descriptor := "I" }]

def counter : Class where
  access := 0x0021
  name := "p/Counter"
  superName := some "java/lang/Object"
  interfaces := ["p/Limits"]

/-- The interface and a class that implements it are registered and the constant is renamed. -/
def renameConstant : List Operation :=
  [.addTargets [limits, counter], .renameField "p/Limits" "I" "MAX" "LARGEST"]

end Samples

/-- The constant of an interface is not renamed through a class that implements the interface. -/
theorem interface_constant_not_reached :
    SubtypeDirectly (run Samples.renameConstant).targets.classes "p/Limits" "p/Counter" ∧
    (run Samples.renameConstant).fields.get? "p/Limits" "I" "MAX" = some "LARGEST" ∧
    ((run Samples.renameConstant).fieldName? "p/Limits" "I" "MAX").1 = some "LARGEST" ∧
    ((run Samples.renameConstant).fieldName? "p/Counter" "I" "MAX").1 = none := by
  refine ⟨⟨Samples.counter, ?_, rfl, Or.inr (by decide)⟩, by decide +kernel, by decide +kernel,
    by decide +kernel⟩
  exact List.mem_of_getElem? (i := 1) rfl

end Classmith
