import Classmith.Proofs.Collections.Orders
import Classmith.Proofs.DescriptorGrammar
import Classmith.Proofs.Rename.InnerNames

/-!
# Return types

The class that a method returns is read from the end of its descriptor, after the last closing parenthesis, while a
call is simulated with the descriptor split at the first one. These are different parentheses if the name of the class
has one. Where both readings still give the same class is said exactly.
-/
namespace Classmith

namespace Descriptor

/-! ## The last closing parenthesis -/

theorem returnedClass?_of_toList {d : String} {front after : List Char} (h : d.toList = front ++ ')' :: after)
    (hafter : ')' ∉ after) : returnedClass? d = internalName? (String.ofList after) := by
  rw [returnedClass?, h, Text.cutLast?_append front hafter]
  rfl

theorem mem_of_internalName? {s name : String} (h : internalName? s = some name) {c : Char} (hc : c ∈ name.toList) :
    c ∈ s.toList := by
  obtain rfl := internalName?_eq_some_iff.mp h
  simp [hc]

theorem SpellsType.getLast?_of_mem {type : List Char} (h : SpellsType type) (hparen : ')' ∈ type) :
    type.getLast? = some ';' := by
  induction h with
  | primitive h =>
    obtain rfl := List.mem_singleton.mp hparen
    simp at h
  | object h => exact List.getLast?_concat
  | @array element h ih =>
    have hmem : ')' ∈ element := by simpa using hparen
    rw [List.getLast?_cons, ih hmem]
    rfl

/-- Reading the type from its last closing parenthesis on makes no difference: it has none, or it is an array type,
which names no class, and no class seems to be named after the last parenthesis. -/
def ReadableFromEnd (type : String) : Prop :=
  ∀ before after, type.toList = before ++ ')' :: after → ')' ∉ after →
    type.toList.head? = some '[' ∧ after.head? ≠ some 'L'

theorem SpellsType.internalName?_after_iff {type before after : List Char} (h : SpellsType type)
    (htype : type = before ++ ')' :: after) (hafter : ')' ∉ after) :
    internalName? (String.ofList after) = internalName? (String.ofList type) ↔
      type.head? = some '[' ∧ after.head? ≠ some 'L' := by
  have hparen : ')' ∈ type := by simp [htype]
  have hlast := h.getLast?_of_mem hparen
  cases h with
  | primitive h =>
    obtain rfl := List.mem_singleton.mp hparen
    simp at h
  | @object name h =>
    -- the whole name has a closing parenthesis, what follows the last one has none
    refine iff_of_false ?_ (by simp)
    have hname : internalName? (String.ofList ('L' :: name ++ [';'])) = some (String.ofList name) := by
      simp [internalName?]
    have hmem : ')' ∈ (String.ofList name).toList := by simpa using hparen
    rw [hname]
    intro hread
    exact hafter (by simpa using mem_of_internalName? hread hmem)
  | @array element h =>
    have hnone : internalName? (String.ofList ('[' :: element)) = none :=
      internalName?_eq_none_of_head? (by simp)
    rw [hnone]
    constructor
    · intro hread
      refine ⟨rfl, fun hhead => ?_⟩
      obtain ⟨rest, rfl⟩ := List.head?_eq_some_iff.mp hhead
      have hrest : rest.getLast? = some ';' := by
        rw [htype, List.getLast?_append] at hlast
        cases rest with
        | nil => simp at hlast
        | cons c rest => simpa [List.getLast?_cons] using hlast
      simp [internalName?, hrest] at hread
    · intro hother
      exact internalName?_eq_none_of_head? (by simpa using hother.2)

theorem returnedClass?_eq_iff {d : String} {type : MethodType} (h : split d = .ok type) :
    returnedClass? d = internalName? type.result ↔ ReadableFromEnd type.result := by
  have hspells := split_eq_ok_iff.mp h
  by_cases hparen : ')' ∈ type.result.toList
  · have hresult : SpellsType type.result.toList := by
      refine hspells.result.resolve_left fun hvoid => ?_
      rw [hvoid] at hparen
      simp at hparen
    obtain ⟨⟨front, after⟩, hcut⟩ := Option.ne_none_iff_exists'.mp
      (fun hnone => Text.cutLast?_eq_none_iff.mp hnone hparen)
    have htype := Text.cutLast?_eq_some hcut
    have hafter := Text.notMem_of_cutLast? hcut
    have hd : d.toList = ('(' :: (type.parameters.flatMap String.toList ++ ')' :: front)) ++ ')' :: after := by
      rw [hspells.toList_eq, htype]
      simp
    rw [returnedClass?_of_toList hd hafter]
    have hiff := hresult.internalName?_after_iff htype hafter
    rw [String.ofList_toList] at hiff
    rw [hiff]
    constructor
    · intro hreadable before after' htype' hafter'
      -- there is one last parenthesis
      have hsame := Text.cutLast?_append before hafter'
      rw [← htype', hcut] at hsame
      cases hsame
      exact hreadable
    · intro hreadable
      exact hreadable front after htype hafter
  · have hd : d.toList = ('(' :: type.parameters.flatMap String.toList) ++ ')' :: type.result.toList :=
      hspells.toList_eq
    have hread := returnedClass?_of_toList hd hparen
    rw [String.ofList_toList] at hread
    refine iff_of_true hread fun before after htype _ => ?_
    exact absurd (by simp [htype]) hparen

end Descriptor

/-! ## Calls and the methods that guesses are made for -/

open Descriptor (MethodType ReadableFromEnd internalName? returnedClass? split)

namespace Collections

open Simulation (Origin State Value)

/-- Whether a class that may be given is found to be a collection. -/
def filterOn (h : Hierarchy) (returned : Option String) : Query Bool :=
  returned.elim (pure false) fun name => do return (← attempt (Tracker.isCollection h name)).getD false

theorem returnsCollection_eq (h : Hierarchy) (m : Method) :
    returnsCollection h m = filterOn h (returnedClass? m.descriptor) := by
  unfold returnsCollection filterOn
  cases returnedClass? m.descriptor <;> rfl

/-- The class that is read from the end of a descriptor is the class of its result type, and with it that of the
value a call pushes, exactly if the result type can be read from its end. It is then the class of this value that
decides whether the method is looked at. -/
theorem returned_class_is_result_iff {d : String} {type : MethodType} (hsplit : split d = .ok type) :
    (returnedClass? d = internalName? type.result ↔ ReadableFromEnd type.result) ∧
    ∀ (receiver : Bool) (origin : Origin) (s : State) (given rest : List Value), s.stack = given ++ rest →
      given.length = type.parameters.length + receiver.toNat → type.result ≠ "V" →
      ∃ v t, Simulation.Sim.invoke d receiver origin s = .ok ((), t) ∧ t.stack = v :: rest ∧
        v.descriptor = some type.result ∧ (returnedClass? d = v.className? ↔ ReadableFromEnd type.result) ∧
        (ReadableFromEnd type.result → ∀ (h : Hierarchy) (m : Method), m.descriptor = d →
          returnsCollection h m = filterOn h v.className?) := by
  have hiff := Descriptor.returnedClass?_eq_iff hsplit
  refine ⟨hiff, fun receiver origin s given rest hstack hgiven hresult => ?_⟩
  have hcall := (Simulation.invoke_append hsplit receiver origin hgiven hstack).trans
    (Simulation.pushResult_of_ne origin hresult _)
  refine ⟨_, _, hcall, rfl, rfl, hiff, ?_⟩
  rintro hreadable h m rfl
  rw [returnsCollection_eq, hiff.mpr hreadable]
  rfl

end Collections

/-- A long on top of an object. -/
def Samples.beforeCall : Simulation.State where
  stack := [.mk 2 (some "J") true false (.parameter 0 1), .mk 1 (some "Lq/a;") true false .this]
  locals := []
  widths := []
  created := 2

namespace Collections

/-- The name of the element class has a closing parenthesis, but an array type names no class either way. -/
theorem returned_class_is_result_iff_array :
    split "(J)[Lq/a)b;" = .ok ⟨["J"], "[Lq/a)b;"⟩ ∧ ReadableFromEnd "[Lq/a)b;" ∧
    ∃ v t, Simulation.Sim.invoke "(J)[Lq/a)b;" true (.methodReturn 2) Samples.beforeCall = .ok ((), t) ∧
      t.stack = [v] ∧ v.descriptor = some "[Lq/a)b;" ∧ returnedClass? "(J)[Lq/a)b;" = v.className? := by
  have hsplit : split "(J)[Lq/a)b;" = .ok ⟨["J"], "[Lq/a)b;"⟩ := by decide +kernel
  have hagree := returned_class_is_result_iff hsplit
  have hreadable : ReadableFromEnd "[Lq/a)b;" := hagree.1.mp (by decide +kernel)
  obtain ⟨v, t, hcall, hstack, hv, hclass, -⟩ := hagree.2 true (.methodReturn 2) Samples.beforeCall
    Samples.beforeCall.stack [] (by simp) rfl (by decide)
  exact ⟨hsplit, hreadable, v, t, hcall, hstack, hv, hclass.mpr hreadable⟩

/-- A class with a closing parenthesis in its name is not found, and another one is found in an array type. -/
theorem returned_class_lost_after_paren :
    split "()Lq/a)b;" = .ok ⟨[], "Lq/a)b;"⟩ ∧ internalName? "Lq/a)b;" = some "q/a)b" ∧
    returnedClass? "()Lq/a)b;" = none ∧
    split "()[Lq/a)Lb;" = .ok ⟨[], "[Lq/a)Lb;"⟩ ∧ internalName? "[Lq/a)Lb;" = none ∧
    returnedClass? "()[Lq/a)Lb;" = some "b" := by
  decide +kernel

end Collections

end Classmith
