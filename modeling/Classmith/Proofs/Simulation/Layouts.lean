import Classmith.Proofs.DescriptorGrammar
import Classmith.Proofs.Simulation.Locals

/-!
# Layouts of calls and methods

How many entries a call takes from the stack and which slots a method starts with depends on its descriptor only
through the categories of its types. Renaming the classes of a descriptor renames its parts one by one and keeps
their categories, and with them the layouts.
-/
namespace Classmith

/-! ## Class names in descriptors -/

namespace Descriptor

/-- The class that a field type names, possibly as the elements of an array. -/
def baseClass? (type : String) : Option String :=
  internalName? (String.ofList (type.toList.dropWhile (· = '[')))

/-- A character that no field type needs can only stand in the name of its class. -/
theorem SpellsType.notMem {type : List Char} (h : SpellsType type) {c : Char}
    (hc : c ∉ ['[', 'L', ';', 'B', 'C', 'D', 'F', 'I', 'J', 'S', 'Z'])
    (hname : ∀ name ∈ baseClass? (String.ofList type), c ∉ name.toList) : c ∉ type := by
  induction h with
  | primitive h =>
    rw [List.mem_singleton]
    rintro rfl
    exact hc (List.mem_append_right ['[', 'L', ';'] h)
  | @object name h =>
    have hbase : baseClass? (String.ofList ('L' :: name ++ [';'])) = some (String.ofList name) := by
      simp [baseClass?, internalName?]
    have hnot := hname _ hbase
    rw [String.toList_ofList] at hnot
    simp only [List.mem_cons, not_or] at hc
    simp [hc, hnot]
  | @array element h ih =>
    have hbase : baseClass? (String.ofList ('[' :: element)) = baseClass? (String.ofList element) := by
      simp [baseClass?]
    rw [hbase] at hname
    simp only [List.mem_cons, not_or] at hc ⊢
    exact ⟨hc.1, ih hname⟩

theorem MethodType.Describes.notMem {type : MethodType} {s : String} (h : type.Describes s) {c : Char}
    (hc : c ∉ "()V[L;BCDFIJSZ".toList)
    (hnames : ∀ p ∈ type.result :: type.parameters, ∀ name ∈ baseClass? p, c ∉ name.toList) :
    c ∉ s.toList := by
  have htypes : c ∉ ['[', 'L', ';', 'B', 'C', 'D', 'F', 'I', 'J', 'S', 'Z'] := fun hmem =>
    hc (List.mem_append_right ['(', ')', 'V'] hmem)
  obtain ⟨hresultNames, hparameterNames⟩ := List.forall_mem_cons.mp hnames
  have hparameters : c ∉ type.parameters.flatMap String.toList := by
    intro hmem
    obtain ⟨p, hp, hin⟩ := List.mem_flatMap.mp hmem
    refine (h.parameters p hp).notMem htypes ?_ hin
    rw [String.ofList_toList]
    exact hparameterNames p hp
  have hresult : c ∉ type.result.toList := by
    rcases h.result with hvoid | hspells
    · rw [hvoid]
      exact fun hmem => hc (List.mem_append_right ['(', ')'] (List.mem_append_left _ hmem))
    · refine hspells.notMem htypes ?_
      rwa [String.ofList_toList]
  have hmarks : c ≠ '(' ∧ c ≠ ')' := by
    constructor <;> rintro rfl <;> exact hc (by decide)
  rw [h.toList_eq]
  simp [hmarks, hparameters, hresult]

/-- A method descriptor is plain if the names of its classes are. -/
theorem MethodType.Describes.isPlainMethodType {s : String} {type : MethodType} (h : type.Describes s)
    (hnames : ∀ p ∈ type.result :: type.parameters, ∀ name ∈ baseClass? p,
      '<' ∉ name.toList ∧ '.' ∉ name.toList) : IsPlainMethodType s := by
  refine ⟨⟨type, h⟩, ?_, ?_⟩
  · exact h.notMem (by decide) fun p hp name hname => (hnames p hp name hname).1
  · exact h.notMem (by decide) fun p hp name hname => (hnames p hp name hname).2

end Descriptor

namespace Simulation

/-! ## Layouts -/

/-- The categories of the stack entries, top first, and of the local slots, and the widths of the declared frame
locals, last first. A slot or an entry that cannot be used has no category. -/
structure Layout where
  entries : List (Option Category)
  slots : List (Option Category)
  widths : List Nat
deriving DecidableEq

def State.layout (s : State) : Layout := ⟨s.stack.map Value.category, s.locals.map Value.category, s.widths⟩

namespace Sim

variable {α β : Type}

/-- The layout that a computation ends with. -/
def layoutAfter (x : Sim α) (s : State) : Except Fault Layout := (x s).map fun result => result.2.layout

theorem layoutAfter_bind_congr {x : Sim α} {k l : α → Sim β} {s : State}
    (h : ∀ a t, layoutAfter (k a) t = layoutAfter (l a) t) :
    layoutAfter (x >>= k) s = layoutAfter (x >>= l) s := by
  unfold layoutAfter
  cases hx : x s with
  | error fault => rw [bind_of_error hx, bind_of_error hx]
  | ok result =>
    obtain ⟨a, t⟩ := result
    rw [bind_of_ok hx, bind_of_ok hx]
    exact h a t

/-! ## Calls -/

theorem layoutAfter_pushResult {result other : String} (hvoid : other = "V" ↔ result = "V")
    (hcategory : Descriptor.category other = Descriptor.category result) (origin : Origin) (s : State) :
    layoutAfter (pushResult other origin) s = layoutAfter (pushResult result origin) s := by
  unfold pushResult
  by_cases h : result = "V"
  · rw [if_neg (not_not.mpr h), if_neg (not_not.mpr (hvoid.mpr h))]
  · rw [if_pos h, if_pos (mt hvoid.mp h)]
    have hpush : ∀ type : String, layoutAfter (value type origin >>= push) s =
        .ok { s.layout with entries := some (Descriptor.category type) :: s.layout.entries } :=
      fun _ => rfl
    rw [hpush, hpush, hcategory]

/-- A call takes as many entries as there are parameters, and it leaves one of the category of the result. -/
theorem layoutAfter_invoke {descriptor other : String} {type otherType : Descriptor.MethodType}
    (h : Descriptor.split descriptor = .ok type) (hother : Descriptor.split other = .ok otherType)
    (hlength : otherType.parameters.length = type.parameters.length)
    (hvoid : otherType.result = "V" ↔ type.result = "V")
    (hcategory : Descriptor.category otherType.result = Descriptor.category type.result)
    (receiver : Bool) (origin : Origin) (s : State) :
    layoutAfter (invoke other receiver origin) s = layoutAfter (invoke descriptor receiver origin) s := by
  rw [invoke_eq h, invoke_eq hother, hlength]
  have hresult := layoutAfter_pushResult hvoid hcategory origin
  apply layoutAfter_bind_congr
  intro _ t
  cases receiver with
  | true => exact layoutAfter_bind_congr fun _ u => hresult u
  | false => exact hresult t

/-! ## Methods -/

/-- The slots of a value of a category. -/
def slotsOf : Category → List (Option Category)
  | .one => [some .one]
  | .two => [some .two, none]

theorem map_category_parameterSlots (index slot made : Nat) (parameters : List String) :
    (parameterSlots index slot made parameters).map Value.category =
      (parameters.map Descriptor.category).flatMap slotsOf := by
  induction parameters generalizing index slot made with
  | nil => rfl
  | cons descriptor rest ih =>
    cases hcategory : Descriptor.category descriptor <;>
      simp [parameterSlots, hcategory, ih, slotsOf, Value.category, Value.isNull, Value.isValid,
        Value.descriptor]

/-- The slots that the receiver and the parameters of a method take, from the categories of the parameters. -/
def entrySlots (m : Method) (categories : List Category) : List (Option Category) :=
  (if m.isStatic then [] else [some .one]) ++ categories.flatMap slotsOf

/-- A method starts with the slots of its receiver and its parameters and as many more as it declares. -/
theorem layoutAfter_enter {m : Method} {type : Descriptor.MethodType}
    (h : Descriptor.split m.descriptor = .ok type) (owner : String) :
    layoutAfter (enter owner m) State.start =
      .ok ⟨[], entrySlots m (type.parameters.map Descriptor.category) ++ List.replicate
          (m.maxLocals.toNat - (entrySlots m (type.parameters.map Descriptor.category)).length) none,
        ((type.parameters.map Descriptor.category).map Category.words).reverse ++
          if m.isStatic then [] else [1]⟩ := by
  obtain ⟨u, hu, hstack, hlocals, hwidths⟩ : ∃ u : State,
      (if m.isStatic then pure () else declareReceiver owner : Sim Unit) State.start = .ok ((), u) ∧
      u.stack = [] ∧ u.locals.map Value.category = (if m.isStatic then [] else [some .one]) ∧
      u.widths = if m.isStatic then [] else [1] := by
    split
    · exact ⟨State.start, rfl, rfl, rfl, rfl⟩
    · refine ⟨_, rfl, rfl, ?_, rfl⟩
      exact congrArg (fun category => [some category]) (Descriptor.category_ofName owner)
  have hparameters := declareParameters_eq 0 type.parameters u
  obtain ⟨filler, hfill, hlength, hfiller⟩ := ensureLocals_spec m.maxLocals.toNat { u with
    locals := u.locals ++ parameterSlots 0 u.locals.length u.created type.parameters
    widths := (type.parameters.map fun p => (Descriptor.category p).words).reverse ++ u.widths
    created := u.created + (parameterSlots 0 u.locals.length u.created type.parameters).length }
  have hslots : (u.locals ++ parameterSlots 0 u.locals.length u.created type.parameters).map Value.category =
      entrySlots m (type.parameters.map Descriptor.category) := by
    rw [List.map_append, hlocals, map_category_parameterSlots]
    rfl
  have hundefined : filler.map Value.category = List.replicate filler.length none :=
    List.map_eq_replicate_iff.mpr fun v hv => category_of_unusable (hfiller v hv)
  rw [← hslots, List.length_map, ← hlength, ← hundefined, ← List.map_append]
  unfold layoutAfter
  rw [enter_eq h, bind_of_ok hu, bind_of_ok hparameters, hfill]
  simp [Except.map, State.layout, hstack, hwidths, Function.comp_def]

end Sim

end Simulation

/-! ## Renamed descriptors -/

namespace Renaming

open Descriptor (MethodType baseClass? category split)
open Signature (newName)
open Simulation (State Origin)
open Simulation.Sim

/-- A method descriptor is renamed by renaming its parts if the names of its classes have no character that ends
a name in signatures and the new names have none and no closing parenthesis. Each part keeps its category, so a
call takes and leaves the same entries and a method starts with the same slots. -/
theorem method_descriptor_by_parts (r : Renaming) {d : String} {type : MethodType} (hsplit : split d = .ok type)
    (hclasses : ∀ p ∈ type.result :: type.parameters, ∀ name ∈ baseClass? p,
      '<' ∉ name.toList ∧ '.' ∉ name.toList)
    (hnew : ∀ old new, r.classes.get? old = some new → ∀ c ∈ [';', ')', '<', '.'], c ∉ new.toList) :
    split (r.signature d) = .ok ⟨type.parameters.map r.signature, r.signature type.result⟩ ∧
    (∀ p ∈ type.result :: type.parameters, category (r.signature p) = category p) ∧
    (∀ (receiver : Bool) (origin : Origin) (s : State),
      layoutAfter (invoke (r.signature d) receiver origin) s = layoutAfter (invoke d receiver origin) s) ∧
    ∀ (owner : String) (m : Method), m.descriptor = d →
      layoutAfter (enter (newName r.classes owner) (r.method owner m)) State.start =
        layoutAfter (enter owner m) State.start := by
  have hnames : Signature.NewNamesAreNames r.classes := by
    intro old new hget c hc
    have hother : ∀ mark ∈ [';', ')', '<', '.'], c ≠ mark := by
      rintro mark hmark rfl
      exact hnew old new hget c hmark hc
    simp [Signature.endsName, hother]
  have hdescribes := (Descriptor.split_eq_ok_iff.mp hsplit).toDescribes
  have hplain := hdescribes.isPlainMethodType hclasses
  have hrenamed := r.split_signature hnames (fun old new hget => hnew old new hget ')' (by simp)) hplain hsplit
  have hresult := (hplain.isPlainType hdescribes).2
  have hcategory := Simulation.category_signature r
  have hvoid : r.signature type.result = "V" ↔ type.result = "V" := by
    constructor
    · intro hvoid
      exact hresult.resolve_right fun hplain => r.signature_ne_void hnames hplain hvoid
    · intro hvoid
      rw [hvoid, r.signature_void]
  refine ⟨hrenamed, fun p _ => hcategory p, ?_, ?_⟩
  · exact layoutAfter_invoke hsplit hrenamed (List.length_map _) hvoid (hcategory _)
  · rintro owner m rfl
    have hcategories : (type.parameters.map r.signature).map category = type.parameters.map category := by
      rw [List.map_map]
      exact List.map_congr_left fun p _ => hcategory p
    rw [layoutAfter_enter hsplit, layoutAfter_enter (m := r.method owner m) hrenamed, hcategories]
    rfl

/-- One class gets a longer name with the characters that begin types and parameters. -/
def longerName : Renaming := ⟨Table.empty.insert "a/A" "x/[Longer(L", MemberTable.empty, MemberTable.empty⟩

theorem method_descriptor_by_parts_longerName :
    longerName.signature "(I[[La/A;JL(b;)La/A;" = "(I[[Lx/[Longer(L;JL(b;)Lx/[Longer(L;" ∧
    split (longerName.signature "(I[[La/A;JL(b;)La/A;") =
      .ok ⟨["I", "[[La/A;", "J", "L(b;"].map longerName.signature, longerName.signature "La/A;"⟩ ∧
    layoutAfter (enter "x/[Longer(L" (longerName.method "a/A"
        { name := "m", descriptor := "(I[[La/A;JL(b;)La/A;", maxLocals := 7 })) State.start =
      .ok ⟨[], [some .one, some .one, some .one, some .two, none, some .one, none], [1, 2, 1, 1, 1]⟩ := by
  have hsplit : split "(I[[La/A;JL(b;)La/A;" = .ok ⟨["I", "[[La/A;", "J", "L(b;"], "La/A;"⟩ := by
    decide +kernel
  have hnew : ∀ old new, longerName.classes.get? old = some new →
      ∀ c ∈ [';', ')', '<', '.'], c ∉ new.toList := by
    intro old new hget
    rw [longerName, Table.get?_insert] at hget
    split at hget
    · cases hget
      simp
    · cases hget
  obtain ⟨hrenamed, -, -, hmethod⟩ := method_descriptor_by_parts longerName hsplit (by decide +kernel) hnew
  refine ⟨by decide +kernel, hrenamed, (hmethod "a/A" _ rfl).trans ?_⟩
  rw [layoutAfter_enter hsplit]
  decide +kernel

end Renaming

end Classmith
