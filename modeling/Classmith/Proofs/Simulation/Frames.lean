import Classmith.Proofs.Simulation.Tracking

/-!
# Renamed frames

Which instructions take only plain types, and that applying a frame tracks applying the renamed frame.
A frame may name a class by the instruction that allocates it, so a body is renamed as a whole.
-/
namespace Classmith

open Signature (NewNamesAreNames newName)
open Descriptor (IsPlainMethodType IsPlainRef IsPlainType)

/-- The classes of the values that instructions make without naming a class. -/
def Simulation.impliedClasses : List String :=
  ["java/lang/Object", "java/lang/String", "java/lang/Class", "java/lang/invoke/MethodType",
    "java/lang/invoke/MethodHandle"]

/-- The new names of classes can be written in descriptors, and no implied class has one. -/
structure Renaming.KeepsTypes (r : Renaming) : Prop where
  plain : NewNamesArePlain r.classes
  noParen : ∀ old new, r.classes.get? old = some new → ')' ∉ new.toList
  implied : ∀ name ∈ Simulation.impliedClasses, newName r.classes name = name

def FrameValue.IsPlain : FrameValue → Prop
  | .object name => IsPlainRef name
  | _ => True

instance : (v : FrameValue) → Decidable v.IsPlain
  | .object name => inferInstanceAs (Decidable (IsPlainRef name))
  | .top | .integer | .float | .long | .double | .null | .uninitializedThis | .uninitialized _ =>
    isTrue trivial

def Frame.IsPlain : Frame → Prop
  | .same1 stack => stack.IsPlain
  | .append locals => ∀ v ∈ locals, v.IsPlain
  | .full locals stack => (∀ v ∈ locals, v.IsPlain) ∧ ∀ v ∈ stack, v.IsPlain
  | _ => True

instance : (f : Frame) → Decidable f.IsPlain
  | .same1 stack => inferInstanceAs (Decidable stack.IsPlain)
  | .append locals => inferInstanceAs (Decidable (∀ v ∈ locals, v.IsPlain))
  | .full locals stack =>
    inferInstanceAs (Decidable ((∀ v ∈ locals, v.IsPlain) ∧ ∀ v ∈ stack, v.IsPlain))
  | .same | .chop _ => isTrue trivial

/-- The descriptors and class names that an instruction takes a type from are plain. -/
def Instruction.IsPlain : Instruction → Prop
  | .type _ operand => IsPlainRef operand
  | .field _ _ _ descriptor => IsPlainType descriptor
  | .method _ _ _ descriptor _ => IsPlainMethodType descriptor
  | .invokeDynamic _ descriptor _ _ => IsPlainMethodType descriptor
  | .ldc (.dynamic _ descriptor _ _) => IsPlainType descriptor
  | .multiNewArray descriptor _ => IsPlainType descriptor
  | .frame declared => declared.IsPlain
  | _ => True

instance : (i : Instruction) → Decidable i.IsPlain
  | .type _ operand => inferInstanceAs (Decidable (IsPlainRef operand))
  | .field _ _ _ descriptor | .ldc (.dynamic _ descriptor _ _) | .multiNewArray descriptor _ =>
    inferInstanceAs (Decidable (IsPlainType descriptor))
  | .method _ _ _ descriptor _ | .invokeDynamic _ descriptor _ _ =>
    inferInstanceAs (Decidable (IsPlainMethodType descriptor))
  | .frame declared => inferInstanceAs (Decidable declared.IsPlain)
  | .ldc (.int _) | .ldc (.float _) | .ldc (.long _) | .ldc (.double _) | .ldc (.string _)
  | .ldc (.type _) | .ldc (.methodType _) | .ldc (.handle _) | .insn _ | .int _ _ | .var _ _
  | .jump _ _ | .label _ | .iinc _ _ | .tableSwitch _ _ _ _ | .lookupSwitch _ _ _ | .line _ _ =>
    isTrue trivial

namespace Simulation

structure Body.IsPlain (b : Body) : Prop where
  owner : Signature.IsName b.owner
  notArray : Descriptor.isArray b.owner = false
  instructions : ∀ i ∈ b.instructions, i.IsPlain

variable {r : Renaming}

theorem after?_map (label : Label) (l : List Instruction) :
    Body.after? label (l.map r.instruction) = (Body.after? label l).map (List.map r.instruction) := by
  induction l with
  | nil => rfl
  | cons i rest ih =>
    rw [List.map_cons, Body.after?.eq_def, Body.after?.eq_def label (i :: rest)]
    simp only [ih]
    cases Body.after? label rest with
    | some found => rfl
    | none =>
      cases i with
      | label id =>
        simp only [Option.map_none, Renaming.instruction]
        split <;> rfl
      | _ => rfl

theorem mem_of_mem_after? {label : Label} {l found : List Instruction}
    (h : Body.after? label l = some found) : ∀ i ∈ found, i ∈ l := by
  induction l generalizing found with
  | nil => cases h
  | cons head rest ih =>
    rw [Body.after?.eq_def] at h
    intro i hi
    apply List.mem_cons_of_mem
    cases hrest : Body.after? label rest with
    | some later =>
      simp only [hrest] at h
      cases h
      exact ih hrest i hi
    | none =>
      simp only [hrest] at h
      cases head with
      | label id =>
        simp only at h
        split at h
        · cases h
          exact hi
        · cases h
      | _ => cases h

theorem isMarker_instruction (i : Instruction) : Body.isMarker (r.instruction i) = Body.isMarker i := by
  cases i <;> rfl

/-- The class that an instruction allocates. -/
def allocation? : Instruction → Option String
  | .type opcode operand => if opcode = 0xbb then some operand else none
  | _ => none

theorem allocation?_instruction (i : Instruction) :
    allocation? (r.instruction i) = (allocation? i).map r.classRef := by
  cases i with
  | type opcode operand =>
    simp only [Renaming.instruction, allocation?]
    split <;> rfl
  | _ => rfl

theorem isPlainRef_of_allocation? {i : Instruction} {operand : String} (hi : i.IsPlain)
    (h : allocation? i = some operand) : IsPlainRef operand := by
  cases i with
  | type opcode name =>
    simp only [allocation?] at h
    split at h
    · cases h
      exact hi
    · cases h
  | _ => cases h

theorem firstAllocation_map (l : List Instruction) :
    ((l.map r.instruction).find? fun i => !Body.isMarker i).bind allocation? =
      ((l.find? fun i => !Body.isMarker i).bind allocation?).map r.classRef := by
  have hmarker : (fun i => !Body.isMarker i) ∘ r.instruction = fun i => !Body.isMarker i := by
    funext i
    simp [isMarker_instruction]
  rw [List.find?_map, hmarker]
  cases l.find? fun i => !Body.isMarker i with
  | none => rfl
  | some i => exact allocation?_instruction i

theorem allocated_eq (b : Body) (label : Label) : b.allocated label =
    (Body.after? label b.instructions).elim (.error (.unknownLabel label)) fun rest =>
      ((rest.find? fun i => !Body.isMarker i).bind allocation?).elim
        (.error (.notAllocated label)) fun operand => .ok (Descriptor.ofName operand) := by
  unfold Body.allocated
  cases Body.after? label b.instructions with
  | none => rfl
  | some rest =>
    simp only [Option.elim_some]
    cases rest.find? fun i => !Body.isMarker i with
    | none => rfl
    | some i =>
      cases i with
      | type opcode operand =>
        simp only [Option.bind_some, allocation?]
        split
        · rename_i heq
          cases heq
          rfl
        · rename_i hother
          have hne : opcode ≠ 0xbb := by
            rintro rfl
            exact hother operand rfl
          simp only [if_neg hne, Option.elim_none]
      | _ => rfl

/-- What a label marks is renamed as the instruction after it is. -/
theorem allocated_rename (hr : r.KeepsTypes) {b : Body} (hb : b.IsPlain) (label : Label) :
    (∀ cause, b.allocated label = .error cause →
      (b.rename r).allocated label = .error (cause.rename r)) ∧
    ∀ d, b.allocated label = .ok d →
      (b.rename r).allocated label = .ok (r.signature d) ∧ IsPlainType d := by
  rw [allocated_eq, allocated_eq]
  simp only [Body.rename, after?_map]
  cases hafter : Body.after? label b.instructions with
  | none =>
    refine ⟨fun cause h => ?_, fun d h => by cases h⟩
    cases h
    rfl
  | some rest =>
    simp only [Option.map_some, Option.elim_some, firstAllocation_map]
    cases hfound : (rest.find? fun i => !Body.isMarker i).bind allocation? with
    | none =>
      refine ⟨fun cause h => ?_, fun d h => by cases h⟩
      cases h
      rfl
    | some operand =>
      refine ⟨fun cause h => (by cases h), fun d h => ?_⟩
      cases h
      obtain ⟨i, hi, hoperand⟩ := Option.bind_eq_some_iff.mp hfound
      have hplain := hb.instructions i (mem_of_mem_after? hafter i (List.mem_of_find?_eq_some hi))
      have href := isPlainRef_of_allocation? hplain hoperand
      exact ⟨congrArg Except.ok (r.ofName_classRef hr.plain href), href.isPlainType_ofName⟩

namespace Sim

/-- The field types that have no class in them. -/
def primitiveTypes : List String := ["B", "C", "D", "F", "I", "J", "S", "Z"]

theorem tracks_primitive {d : String} (h : d ∈ primitiveTypes) (origin : Origin) :
    TracksValue r (value d origin) (value d (origin.rename r)) := by
  have hplain : ∀ d ∈ primitiveTypes, IsPlainType d := by decide
  have hmarks : ∀ d ∈ primitiveTypes, ';' ∉ d.toList ∧ '.' ∉ d.toList := by decide
  have hvalue := tracks_value (r := r) (hplain d h) origin
  rwa [signature_eq_self r (hmarks d h).1 (hmarks d h).2] at hvalue

/-- The entry of a frame: a value and the slots that it takes. -/
abbrev TracksEntry (r : Renaming) (x y : Sim (Value × Nat)) : Prop :=
  Tracks r (fun p => p.1.IsPlain) (fun p => (p.1.rename r, p.2)) x y

theorem tracks_entry {x y : Sim Value} (h : TracksValue r x y) (width : Nat) :
    TracksEntry r (x >>= fun v => pure (v, width)) (y >>= fun v => pure (v, width)) :=
  tracks_bind h fun _ hv => tracks_pure hv

theorem tracks_frameValue (hr : r.KeepsTypes) {b : Body} (hb : b.IsPlain) (position : Nat)
    {entry : FrameValue} (h : entry.IsPlain) :
    TracksEntry r (frameValue b position entry)
      (frameValue (b.rename r) position (r.frameValue entry)) := by
  cases entry with
  | top => exact tracks_entry tracks_invalid 1
  | integer => exact tracks_entry (tracks_primitive (by decide) (.frame position)) 1
  | float => exact tracks_entry (tracks_primitive (by decide) (.frame position)) 1
  | long => exact tracks_entry (tracks_primitive (by decide) (.frame position)) 2
  | double => exact tracks_entry (tracks_primitive (by decide) (.frame position)) 2
  | null => exact tracks_entry (tracks_fresh (by simp) true true (.frame position)) 1
  | uninitializedThis =>
    have href : IsPlainRef b.owner := by simpa [IsPlainRef, hb.notArray] using hb.owner
    have hvalue := tracks_value (r := r) href.isPlainType_ofName (.frame position)
    rw [← r.ofName_classRef hr.plain href, r.classRef_of_not_isArray hb.notArray] at hvalue
    exact tracks_entry hvalue 1
  | object name =>
    have href : IsPlainRef name := h
    have hvalue := tracks_value (r := r) href.isPlainType_ofName (.frame position)
    rw [← r.ofName_classRef hr.plain href] at hvalue
    exact tracks_entry hvalue 1
  | uninitialized label =>
    obtain ⟨herror, hok⟩ := allocated_rename hr hb label
    simp only [Renaming.frameValue, frameValue]
    cases hallocated : b.allocated label with
    | error cause =>
      rw [herror cause hallocated]
      exact tracks_malformed cause
    | ok d =>
      obtain ⟨hnew, hplain⟩ := hok d hallocated
      rw [hnew]
      exact tracks_entry (tracks_value hplain (.frame position)) 1

/-- Declaring a local, with its conditional part as a computation of its own. -/
theorem declareLocal_eq (b : Body) (position : Nat) (entry : FrameValue) :
    declareLocal b position entry =
      (get >>= fun s => frameValue b position entry >>= fun p =>
        ensureLocals (s.declaredSlots + p.2) >>= fun _ =>
        setLocal s.declaredSlots p.1 >>= fun _ =>
        (if p.2 = 2 then invalid >>= setLocal (s.declaredSlots + 1) else pure ()) >>= fun _ =>
        modify fun s => { s with widths := p.2 :: s.widths }) := by
  unfold declareLocal
  refine bind_congr fun s => bind_congr fun p => bind_congr fun _ => bind_congr fun _ => ?_
  split <;> simp

theorem tracks_declareLocal (hr : r.KeepsTypes) {b : Body} (hb : b.IsPlain) (position : Nat)
    {entry : FrameValue} (h : entry.IsPlain) :
    TracksUnit r (declareLocal b position entry)
      (declareLocal (b.rename r) position (r.frameValue entry)) := by
  rw [declareLocal_eq, declareLocal_eq]
  apply tracks_bind tracks_get
  intro s _
  rw [State.declaredSlots_rename]
  apply tracks_bind (tracks_frameValue hr hb position h)
  intro p hp
  apply tracks_bind (tracks_ensureLocals _)
  intro _ _
  apply tracks_bind (tracks_setLocal _ hp)
  intro _ _
  apply tracks_bind (tracks_when (tracks_setInvalid _))
  intro _ _
  exact tracks_widths _

theorem tracks_declareLocals (hr : r.KeepsTypes) {b : Body} (hb : b.IsPlain) (position : Nat)
    {entries : List FrameValue} (h : ∀ entry ∈ entries, entry.IsPlain) :
    TracksUnit r (declareLocals b position entries)
      (declareLocals (b.rename r) position (entries.map r.frameValue)) := by
  induction entries with
  | nil => exact tracks_skip
  | cons entry rest ih =>
    apply tracks_bind (tracks_declareLocal hr hb position (h entry (by simp)))
    intro _ _
    exact ih fun other hother => h other (List.mem_cons_of_mem entry hother)

theorem tracks_pushEntries (hr : r.KeepsTypes) {b : Body} (hb : b.IsPlain) (position : Nat)
    {entries : List FrameValue} (h : ∀ entry ∈ entries, entry.IsPlain) :
    TracksUnit r (pushEntries b position entries)
      (pushEntries (b.rename r) position (entries.map r.frameValue)) := by
  induction entries with
  | nil => exact tracks_skip
  | cons entry rest ih =>
    apply tracks_bind (tracks_frameValue hr hb position (h entry (by simp)))
    intro p hp
    apply tracks_bind (tracks_push hp)
    intro _ _
    exact ih fun other hother => h other (List.mem_cons_of_mem entry hother)

theorem tracks_chop (count : Nat) : TracksUnit r (chop count) (chop count) := by
  induction count with
  | zero => exact tracks_skip
  | succ count ih =>
    apply tracks_bind tracks_get
    intro s hs
    have hwidths : (s.rename r).widths = s.widths := rfl
    rw [hwidths]
    cases s.widths with
    | nil => exact tracks_malformed .chopsTooMany
    | cons width rest =>
      apply tracks_bind (tracks_set (t := { s with widths := rest }) ⟨hs.stack, hs.locals⟩)
      intro _ _
      apply tracks_bind (tracks_invalidate _ _)
      intro _ _
      exact ih

theorem tracks_applyFrame (hr : r.KeepsTypes) {b : Body} (hb : b.IsPlain) (position : Nat)
    {declared : Frame} (h : declared.IsPlain) :
    TracksUnit r (applyFrame b position declared)
      (applyFrame (b.rename r) position (r.frame declared)) := by
  cases declared with
  | same => exact tracks_clearStack
  | same1 entry =>
    apply tracks_bind (tracks_frameValue hr hb position h)
    intro p hp
    apply tracks_bind tracks_clearStack
    intro _ _
    exact tracks_push hp
  | append entries =>
    apply tracks_bind (tracks_declareLocals hr hb position h)
    intro _ _
    exact tracks_clearStack
  | chop count =>
    apply tracks_bind (tracks_chop count.toNat)
    intro _ _
    exact tracks_clearStack
  | full entries stack =>
    apply tracks_bind (tracks_widths fun _ => [])
    intro _ _
    apply tracks_bind tracks_get
    intro before _
    rw [State.length_locals_rename]
    apply tracks_bind (tracks_declareLocals hr hb position h.1)
    intro _ _
    apply tracks_bind tracks_get
    intro s _
    rw [State.declaredSlots_rename]
    apply tracks_bind (tracks_invalidate _ _)
    intro _ _
    apply tracks_bind tracks_clearStack
    intro _ _
    exact tracks_pushEntries hr hb position h.2

end Sim

end Simulation

end Classmith
