import Classmith.Proofs.Simulation.Steps
import Mathlib.Data.List.Forall2

/-!
# Renamed walks

Walking a renamed method of a renamed class meets the renamed states in the same order and ends the
same way, unless renaming takes the closing parentheses from the class names of a descriptor that cannot be split
because of them.
-/
namespace Classmith

namespace Simulation

open Descriptor (IsPlainMethodType IsPlainRef IsPlainType)
open Signature (newName)

variable {r : Renaming}

/-! ## The start of a method -/

namespace Sim

theorem declareParameters_cons (index : Nat) (descriptor : String) (rest : List String) :
    declareParameters index (descriptor :: rest) =
      (get >>= fun s => value descriptor (.parameter index s.locals.length) >>= fun v =>
        pushLocal v >>= fun _ =>
        (if Descriptor.category descriptor = .two then invalid >>= pushLocal else pure ()) >>=
          fun _ =>
        (modify fun s => { s with widths := (Descriptor.category descriptor).words :: s.widths }) >>=
          fun _ =>
        declareParameters (index + 1) rest) := by
  rw [declareParameters]
  refine bind_congr fun s => bind_congr fun v => bind_congr fun _ => ?_
  split <;> simp

/-- The slots of parameters: a value for each and a placeholder after each of two words. -/
def parameterSlots (index slot made : Nat) : List String → List Value
  | [] => []
  | descriptor :: rest =>
    .mk (made + 1) (some descriptor) true false (.parameter index slot) ::
      if Descriptor.category descriptor = .two then
        .mk (made + 2) none false false .invalid :: parameterSlots (index + 1) (slot + 2) (made + 2) rest
      else parameterSlots (index + 1) (slot + 1) (made + 1) rest

theorem declareParameters_eq (index : Nat) (parameters : List String) (s : State) :
    declareParameters index parameters s = .ok ((), { s with
      locals := s.locals ++ parameterSlots index s.locals.length s.created parameters
      widths := (parameters.map fun p => (Descriptor.category p).words).reverse ++ s.widths
      created := s.created + (parameterSlots index s.locals.length s.created parameters).length }) := by
  induction parameters generalizing index s with
  | nil =>
    simp only [parameterSlots, List.append_nil, List.map_nil, List.reverse_nil, List.nil_append,
      List.length_nil, Nat.add_zero]
    rfl
  | cons descriptor rest ih =>
    rw [declareParameters_cons]
    cases hcategory : Descriptor.category descriptor with
    | one =>
      have hstep := ih (index + 1) { s with
        locals := s.locals ++
          [.mk (s.created + 1) (some descriptor) true false (.parameter index s.locals.length)]
        widths := 1 :: s.widths
        created := s.created + 1 }
      refine Eq.trans hstep ?_
      simp [parameterSlots, hcategory, Category.words]
      omega
    | two =>
      have hstep := ih (index + 1) { s with
        locals := s.locals ++
          [.mk (s.created + 1) (some descriptor) true false (.parameter index s.locals.length)] ++
          [.mk (s.created + 2) none false false .invalid]
        widths := 2 :: s.widths
        created := s.created + 2 }
      refine Eq.trans hstep ?_
      simp [parameterSlots, hcategory, Category.words]
      omega

theorem tracks_declareParameters {parameters : List String}
    (h : ∀ p ∈ parameters, IsPlainType p) (index : Nat) :
    TracksUnit r (declareParameters index parameters)
      (declareParameters index (parameters.map r.signature)) := by
  induction parameters generalizing index with
  | nil => exact tracks_skip
  | cons descriptor rest ih =>
    have hsecond : TracksUnit r (invalid >>= pushLocal) (invalid >>= pushLocal) :=
      tracks_bind tracks_invalid fun _ hv => tracks_pushLocal hv
    rw [List.map_cons, declareParameters_cons, declareParameters_cons, category_signature]
    apply tracks_bind tracks_get
    intro s _
    rw [State.length_locals_rename]
    apply tracks_bind (tracks_value (h descriptor List.mem_cons_self) (.parameter index _))
    intro v hv
    apply tracks_bind (tracks_pushLocal hv)
    intro _ _
    apply tracks_bind (tracks_when hsecond)
    intro _ _
    apply tracks_bind (tracks_widths _)
    intro _ _
    exact ih (fun p hp => h p (List.mem_cons_of_mem _ hp)) (index + 1)

/-- The slot of the receiver. -/
def declareReceiver (owner : String) : Sim Unit :=
  value (Descriptor.ofName owner) .this >>= fun v => pushLocal v >>= fun _ =>
    modify fun s => { s with widths := [1] }

theorem enter_eq {m : Method} {type : Descriptor.MethodType}
    (h : Descriptor.split m.descriptor = .ok type) (owner : String) :
    enter owner m = (if m.isStatic then pure () else declareReceiver owner) >>= fun _ =>
      declareParameters 0 type.parameters >>= fun _ => ensureLocals m.maxLocals.toNat := by
  unfold enter declareReceiver
  rw [h]
  cases m.isStatic <;> simp

/-- The parameters always find their slots. -/
theorem enter_eq_ok {m : Method} {type : Descriptor.MethodType}
    (h : Descriptor.split m.descriptor = .ok type) (owner : String) :
    ∃ t, enter owner m State.start = .ok ((), t) := by
  obtain ⟨s, hs⟩ : ∃ s, (if m.isStatic then pure () else declareReceiver owner : Sim Unit) State.start =
      .ok ((), s) := by
    split <;> exact ⟨_, rfl⟩
  rw [enter_eq h, bind_of_ok hs, bind_of_ok (declareParameters_eq 0 type.parameters s)]
  exact ⟨_, rfl⟩

theorem tracks_declareReceiver (hr : r.KeepsTypes) {owner : String} (hname : Signature.IsName owner)
    (harray : Descriptor.isArray owner = false) :
    TracksUnit r (declareReceiver owner) (declareReceiver (newName r.classes owner)) := by
  have href : IsPlainRef owner := by simpa [IsPlainRef, harray] using hname
  have howner : Descriptor.ofName (newName r.classes owner) =
      r.signature (Descriptor.ofName owner) := by
    rw [← r.ofName_classRef hr.plain href, r.classRef_of_not_isArray harray]
  unfold declareReceiver
  rw [howner]
  apply tracks_bind (tracks_value href.isPlainType_ofName .this)
  intro v hv
  apply tracks_bind (tracks_pushLocal hv)
  intro _ _
  exact tracks_widths fun _ => [1]

theorem tracks_enter (hr : r.KeepsTypes) {owner : String} {m : Method}
    (hname : Signature.IsName owner) (harray : Descriptor.isArray owner = false)
    (h : IsPlainMethodType m.descriptor) {type : Descriptor.MethodType}
    (hsplit : Descriptor.split m.descriptor = .ok type) :
    TracksUnit r (enter owner m) (enter (newName r.classes owner) (r.method owner m)) := by
  have hnew := r.split_signature hr.plain.areNames hr.noParen h hsplit
  have hparameters := (h.isPlainType (Descriptor.split_eq_ok_iff.mp hsplit).toDescribes).1
  have hreceiver : TracksUnit r (if m.isStatic then pure () else declareReceiver owner)
      (if m.isStatic then pure () else declareReceiver (newName r.classes owner)) := by
    split
    · exact tracks_skip
    · exact tracks_declareReceiver hr hname harray
  have hstatic : (r.method owner m).isStatic = m.isStatic := rfl
  rw [enter_eq hsplit, enter_eq (m := r.method owner m) hnew, hstatic]
  apply tracks_bind hreceiver
  intro _ _
  apply tracks_bind (tracks_declareParameters hparameters 0)
  intro _ _
  exact tracks_ensureLocals _

end Sim

/-! ## Mended descriptors -/

/-- The same fault up to the names of classes, or a descriptor that could not be split and another malformation. -/
inductive Fault.Agrees (r : Renaming) : Fault → Fault → Prop
  | renamed (fault : Fault) : Agrees r fault (fault.rename r)
  | badDescriptor (descriptor : String) (defect : Descriptor.Defect) (cause : Malformation) :
    Agrees r (.malformed (.badDescriptor descriptor defect)) (.malformed cause)

/-- How a computation and the renamed one end. Only a mended descriptor makes the renamed one succeed alone. -/
inductive Renamed (r : Renaming) (mended : Prop) : Except Fault (Unit × State) → Except Fault (Unit × State) → Prop
  | ok (h : ¬mended) {t : State} (ht : t.IsPlain) : Renamed r mended (.ok ((), t)) (.ok ((), t.rename r))
  | error (h : ¬mended) {fault fault' : Fault} (hfault : fault.Agrees r fault') :
    Renamed r mended (.error fault) (.error fault')
  | mended (h : mended) (descriptor : String) (defect : Descriptor.Defect) (t : State) :
    Renamed r mended (.error (.malformed (.badDescriptor descriptor defect))) (.ok ((), t))

theorem Renamed.of_tracks {mended : Prop} (h : ¬mended) {x y : Sim Unit} (htracks : TracksUnit r x y)
    {s : State} (hs : s.IsPlain) : Renamed r mended (x s) (y (s.rename r)) := by
  obtain ⟨herror, hok⟩ := htracks s hs
  cases hx : x s with
  | error fault =>
    rw [herror fault hx]
    exact .error h (.renamed fault)
  | ok result =>
    obtain ⟨⟨⟩, t⟩ := result
    obtain ⟨hnew, ht, -⟩ := hok () t hx
    rw [hnew]
    exact .ok h ht

/-- The instruction is a call by a descriptor that renaming mends, and the entries it takes are on the stack. -/
def IsMendedCall (r : Renaming) (i : Instruction) (s : State) : Prop :=
  ∃ descriptor receiver type, Sim.call? i = some (descriptor, receiver) ∧ r.Mends type descriptor ∧
    type.parameters.length + receiver.toNat ≤ s.stack.length

namespace Sim

theorem invoke_eq_error {descriptor : String} {defect : Descriptor.Defect}
    (h : Descriptor.split descriptor = .error defect) (receiver : Bool) (origin : Origin) (s : State) :
    invoke descriptor receiver origin s = .error (.malformed (.badDescriptor descriptor defect)) := by
  unfold invoke
  rw [h]
  rfl

theorem pushResult_eq_ok (result : String) (origin : Origin) (s : State) :
    ∃ t, pushResult result origin s = .ok ((), t) := by
  unfold pushResult
  split <;> exact ⟨_, rfl⟩

/-- A call whose descriptor can be split needs nothing but the entries it takes. -/
theorem invoke_of_split {descriptor : String} {type : Descriptor.MethodType}
    (h : Descriptor.split descriptor = .ok type) (receiver : Bool) (origin : Origin) (s : State) :
    (type.parameters.length + receiver.toNat ≤ s.stack.length →
      ∃ t, invoke descriptor receiver origin s = .ok ((), t)) ∧
    (s.stack.length < type.parameters.length + receiver.toNat →
      invoke descriptor receiver origin s = .error (.malformed .underflow)) := by
  rw [invoke_eq h]
  rcases Nat.lt_or_ge s.stack.length type.parameters.length with hfew | henough
  · rw [bind_of_error (popN_of_lt hfew)]
    exact ⟨fun hall => by omega, fun _ => rfl⟩
  rw [bind_of_ok (popN_of_le henough)]
  have hlength : (s.stack.drop type.parameters.length).length = s.stack.length - type.parameters.length :=
    List.length_drop
  cases receiver with
  | false => exact ⟨fun _ => pushResult_eq_ok _ _ _, fun hfew => absurd hfew (by simpa using henough)⟩
  | true =>
    cases hrest : s.stack.drop type.parameters.length with
    | nil =>
      rw [hrest, List.length_nil] at hlength
      refine ⟨fun hall => ?_, fun _ => rfl⟩
      rw [Bool.toNat_true] at hall
      omega
    | cons v rest =>
      rw [hrest, List.length_cons] at hlength
      refine ⟨fun _ => pushResult_eq_ok _ _ _, fun hfew => ?_⟩
      rw [Bool.toNat_true] at hfew
      omega

/-- A call by a descriptor that cannot be split fails. The renamed call fails too unless its descriptor is mended and
its entries are on the stack. -/
theorem renamed_step_of_split_error (hr : r.KeepsTypes) {i : Instruction} (hi : i.IsPlain) {descriptor : String}
    {receiver : Bool} (hcall : call? i = some (descriptor, receiver)) {defect : Descriptor.Defect}
    (herror : Descriptor.split descriptor = .error defect) (b : Body) (position : Nat) (s : State) :
    Renamed r (IsMendedCall r i s) (step b position i s)
      (step (b.rename r) position (r.instruction i) (s.rename r)) := by
  have hplain := isPlainMethodType_of_call? hi hcall
  obtain ⟨origin, hstep, hnew⟩ := step_of_call? (r := r) hcall b position
  rw [hstep, hnew, invoke_eq_error herror]
  by_cases hmends : ∃ type, r.Mends type descriptor
  · obtain ⟨type, htype⟩ := hmends
    obtain ⟨hok, hunderflow⟩ := invoke_of_split (htype.split_signature hr.plain.areNames hplain) receiver
      (origin.rename r) (s.rename r)
    rw [List.length_map, State.length_stack_rename] at hok hunderflow
    rcases Nat.lt_or_ge s.stack.length (type.parameters.length + receiver.toNat) with hfew | henough
    · rw [hunderflow hfew]
      refine .error ?_ (.badDescriptor _ _ _)
      rintro ⟨d, receives, other, hd, hother, hall⟩
      cases hcall.symm.trans hd
      cases htype.describes.unique hother.describes
      omega
    · obtain ⟨t, ht⟩ := hok henough
      rw [ht]
      exact .mended ⟨descriptor, receiver, type, hcall, htype, henough⟩ _ _ _
  · obtain ⟨defect', hdefect⟩ := Renaming.split_signature_eq_error hr.plain.areNames hplain herror
      (not_exists.mp hmends)
    rw [invoke_eq_error hdefect]
    refine .error ?_ (.badDescriptor _ _ _)
    rintro ⟨d, receives, type, hd, htype, -⟩
    cases hcall.symm.trans hd
    exact hmends ⟨type, htype⟩

theorem renamed_step (hr : r.KeepsTypes) {b : Body} (hb : b.IsPlain) (position : Nat) {i : Instruction}
    (hi : i.IsPlain) {s : State} (hs : s.IsPlain) :
    Renamed r (IsMendedCall r i s) (step b position i s)
      (step (b.rename r) position (r.instruction i) (s.rename r)) := by
  cases hcall : call? i with
  | none =>
    refine .of_tracks ?_ (tracks_step_of_call?_eq_none hr hb position hi hcall) hs
    rintro ⟨d, receiver, type, hd, -⟩
    cases hcall.symm.trans hd
  | some call =>
    obtain ⟨descriptor, receiver⟩ := call
    cases hsplit : Descriptor.split descriptor with
    | error defect => exact renamed_step_of_split_error hr hi hcall hsplit b position s
    | ok type =>
      refine .of_tracks ?_ (tracks_step_of_call? hr hi hcall hsplit b position) hs
      rintro ⟨d, receives, other, hd, hother, -⟩
      cases hcall.symm.trans hd
      obtain ⟨defect, herror⟩ := hother.split_eq_error
      cases hsplit.symm.trans herror

theorem renamed_enter (hr : r.KeepsTypes) {owner : String} {m : Method}
    (hname : Signature.IsName owner) (harray : Descriptor.isArray owner = false)
    (h : IsPlainMethodType m.descriptor) :
    Renamed r (∃ type, r.Mends type m.descriptor) (enter owner m State.start)
      (enter (newName r.classes owner) (r.method owner m) State.start) := by
  have hstart : State.IsPlain State.start := ⟨List.forall_mem_nil _, List.forall_mem_nil _⟩
  have hfails : ∀ {c : String} {n : Method} {defect : Descriptor.Defect},
      Descriptor.split n.descriptor = .error defect →
        enter c n State.start = .error (.malformed (.badDescriptor n.descriptor defect)) := by
    intro c n defect herror
    rw [enter, herror]
    rfl
  cases hsplit : Descriptor.split m.descriptor with
  | ok type =>
    refine .of_tracks ?_ (tracks_enter hr hname harray h hsplit) hstart
    rintro ⟨other, hother⟩
    obtain ⟨defect, herror⟩ := hother.split_eq_error
    cases hsplit.symm.trans herror
  | error defect =>
    rw [hfails hsplit]
    by_cases hmends : ∃ type, r.Mends type m.descriptor
    · obtain ⟨type, htype⟩ := hmends
      obtain ⟨t, ht⟩ := enter_eq_ok (m := r.method owner m) (htype.split_signature hr.plain.areNames h)
        (newName r.classes owner)
      rw [ht]
      exact .mended ⟨type, htype⟩ _ _ _
    · obtain ⟨defect', hdefect⟩ := Renaming.split_signature_eq_error hr.plain.areNames h hsplit
        (not_exists.mp hmends)
      rw [hfails (n := r.method owner m) hdefect]
      exact .error hmends (.badDescriptor _ _ _)

end Sim

/-! ## Runs -/

/-- One value is the other up to the names of classes. -/
structure Value.Agrees (r : Renaming) (v w : Value) : Prop where
  id : w.id = v.id
  isValid : w.isValid = v.isValid
  isNull : w.isNull = v.isNull
  category : w.category = v.category
  descriptor : w.descriptor = v.descriptor.map r.signature
  origin : w.origin = v.origin.rename r

structure State.Agrees (r : Renaming) (s t : State) : Prop where
  stack : List.Forall₂ (Value.Agrees r) s.stack t.stack
  locals : List.Forall₂ (Value.Agrees r) s.locals t.locals

structure Visit.Agrees (r : Renaming) (v w : Visit) : Prop where
  position : w.position = v.position
  instruction : w.instruction = r.instruction v.instruction
  before : v.before.Agrees r w.before
  after : Option.Rel (State.Agrees r) v.after w.after

theorem Value.agrees_rename (v : Value) : v.Agrees r (v.rename r) := by
  constructor <;> simp

theorem State.agrees_rename (s : State) : s.Agrees r (s.rename r) := by
  constructor <;> simp [State.rename, List.forall₂_same, Value.agrees_rename]

/-- Without a mended call a run and the renamed run go the same way. -/
theorem run_agrees (hr : r.KeepsTypes) {b : Body} (hb : b.IsPlain) {l : List Instruction}
    (hl : ∀ i ∈ l, i.IsPlain) (position : Nat) {s : State} (hs : s.IsPlain)
    (h : ∀ v ∈ (run b position l s).1, ¬IsMendedCall r v.instruction v.before) :
    List.Forall₂ (Visit.Agrees r) (run b position l s).1
      (run (b.rename r) position (l.map r.instruction) (s.rename r)).1 ∧
    Option.Rel (fun stop stop' => stop'.1 = stop.1 ∧ stop.2.Agrees r stop'.2) (run b position l s).2
      (run (b.rename r) position (l.map r.instruction) (s.rename r)).2 := by
  induction l generalizing position s with
  | nil => exact ⟨.nil, .none⟩
  | cons i rest ih =>
    obtain ⟨hi, hrest⟩ := List.forall_mem_cons.mp hl
    have hstep := Sim.renamed_step hr hb position hi hs
    rw [List.map_cons]
    simp only [run] at h ⊢
    generalize Sim.step b position i s = x at hstep h ⊢
    generalize Sim.step (b.rename r) position (r.instruction i) (s.rename r) = y at hstep ⊢
    cases hstep with
    | ok _ ht =>
      obtain ⟨hvisits, hstop⟩ := ih hrest (position + 1) ht (List.forall_mem_cons.mp h).2
      exact ⟨.cons ⟨rfl, rfl, s.agrees_rename, .some (State.agrees_rename _)⟩ hvisits, hstop⟩
    | error _ hfault => exact ⟨.cons ⟨rfl, rfl, s.agrees_rename, .none⟩ .nil, .some ⟨rfl, hfault⟩⟩
    | mended hmended => exact absurd hmended (h _ (List.mem_singleton_self _))

/-- A mended call ends the run but not the renamed one. -/
theorem run_of_isMendedCall (hr : r.KeepsTypes) {b : Body} (hb : b.IsPlain) {l : List Instruction}
    (hl : ∀ i ∈ l, i.IsPlain) (position : Nat) {s : State} (hs : s.IsPlain)
    (h : ∃ v ∈ (run b position l s).1, IsMendedCall r v.instruction v.before) :
    ¬List.Forall₂ (Visit.Agrees r) (run b position l s).1
      (run (b.rename r) position (l.map r.instruction) (s.rename r)).1 ∧
    ∃ at_ descriptor defect, (run b position l s).2 = some (at_, .malformed (.badDescriptor descriptor defect)) := by
  induction l generalizing position s with
  | nil =>
    obtain ⟨v, hv, -⟩ := h
    cases hv
  | cons i rest ih =>
    obtain ⟨hi, hrest⟩ := List.forall_mem_cons.mp hl
    have hstep := Sim.renamed_step hr hb position hi hs
    rw [List.map_cons]
    simp only [run] at h ⊢
    generalize Sim.step b position i s = x at hstep h ⊢
    generalize Sim.step (b.rename r) position (r.instruction i) (s.rename r) = y at hstep ⊢
    obtain ⟨v, hv, hmended⟩ := h
    cases hstep with
    | ok hnot ht =>
      rcases List.mem_cons.mp hv with rfl | hv
      · exact absurd hmended hnot
      · obtain ⟨hvisits, hstop⟩ := ih hrest (position + 1) ht ⟨v, hv, hmended⟩
        exact ⟨fun hagree => hvisits (List.forall₂_cons.mp hagree).2, hstop⟩
    | error hnot _ =>
      cases List.mem_singleton.mp hv
      exact absurd hmended hnot
    | mended _ descriptor defect t =>
      refine ⟨fun hagree => ?_, position, descriptor, defect, rfl⟩
      have hafter := (List.forall₂_cons.mp hagree).1.after
      cases hafter

theorem visits_ne_nil (b : Body) (position : Nat) (i : Instruction) (rest : List Instruction) (s : State) :
    (run b position (i :: rest) s).1 ≠ [] := by
  rw [run]
  split <;> exact List.cons_ne_nil _ _

/-! ## Walks -/

/-- The same end, or an error of the same kind at the same instruction. Only the malformation that a descriptor
cannot be split may be another one. -/
inductive SameEnd (r : Renaming) : Except Error Outcome → Except Error Outcome → Prop
  | ok (outcome : Outcome) : SameEnd r (.ok outcome) (.ok outcome)
  | malformed {site site' : Site} (h : site'.index = site.index) (cause : Malformation) :
    SameEnd r (.error (.malformed site cause)) (.error (.malformed site' (cause.rename r)))
  | badDescriptor {site site' : Site} (h : site'.index = site.index) (descriptor : String)
    (defect : Descriptor.Defect) (cause : Malformation) :
    SameEnd r (.error (.malformed site (.badDescriptor descriptor defect))) (.error (.malformed site' cause))
  | unsupported {site site' : Site} (h : site'.index = site.index) (cause : Unmodelled) :
    SameEnd r (.error (.unsupported site cause)) (.error (.unsupported site' cause))

structure Walk.Agrees (r : Renaming) (v w : Walk) : Prop where
  visits : List.Forall₂ (Visit.Agrees r) v.visits w.visits
  outcome : SameEnd r v.outcome w.outcome

theorem sameEnd_toError {fault fault' : Fault} (h : fault.Agrees r fault') (owner owner' : String) (m m' : Method)
    (position : Nat) :
    SameEnd r (.error (fault.toError owner m position)) (.error (fault'.toError owner' m' position)) := by
  cases h with
  | renamed =>
    cases fault with
    | malformed cause =>
      apply SameEnd.malformed
      rfl
    | unsupported cause =>
      apply SameEnd.unsupported
      rfl
  | badDescriptor descriptor defect cause =>
    apply SameEnd.badDescriptor
    rfl

/-- All that a walk of the method takes a type from is plain. -/
structure IsPlainMethod (c : Class) (m : Method) : Prop where
  body : Body.IsPlain ⟨c.name, m.instructions⟩
  descriptor : IsPlainMethodType m.descriptor

/-- The class is one of those that are walked, and renaming mends the descriptor of the method or that of a call that
its walk comes to with the entries of the call on the stack. -/
def Diverges (r : Renaming) (c : Class) (m : Method) : Prop :=
  lastWithoutFrames < c.version ∧
    ((∃ type, r.Mends type m.descriptor) ∨ ∃ v ∈ (walk c m).visits, IsMendedCall r v.instruction v.before)

theorem walk_agrees_iff (hr : r.KeepsTypes) {c : Class} {m : Method} (h : IsPlainMethod c m) :
    ((walk c m).Agrees r (walk (r.apply c) (r.method c.name m)) ↔ ¬Diverges r c m) ∧
    (Diverges r c m → ∃ site descriptor defect,
      (walk c m).outcome = .error (.malformed site (.badDescriptor descriptor defect))) := by
  have henter := Sim.renamed_enter hr h.body.owner h.body.notArray h.descriptor
  have hname : (r.apply c).name = newName r.classes c.name := rfl
  have hversion : (r.apply c).version = c.version := rfl
  have hinstructions : (r.method c.name m).instructions = m.instructions.map r.instruction := rfl
  unfold Diverges walk
  rw [hversion, hname, hinstructions]
  by_cases hold : c.version ≤ lastWithoutFrames
  · have hnot : ¬lastWithoutFrames < c.version := UInt16.not_lt.mpr hold
    simp only [if_pos hold, hnot, false_and, not_false_eq_true, iff_true, false_implies, and_true]
    exact ⟨.nil, .ok .skipped⟩
  have hnew : lastWithoutFrames < c.version := UInt16.not_le.mp hold
  simp only [if_neg hold, hnew, true_and]
  generalize Sim.enter c.name m State.start = x at henter ⊢
  generalize Sim.enter (newName r.classes c.name) (r.method c.name m) State.start = y at henter ⊢
  cases henter with
  | @ok _ start hplain =>
    rename_i hnot
    have hbody : Body.rename r ⟨c.name, m.instructions⟩ =
        ⟨newName r.classes c.name, m.instructions.map r.instruction⟩ := rfl
    simp only [hnot, false_or, ← hbody]
    constructor
    · constructor
      · rintro ⟨hvisits, -⟩ hmended
        exact (run_of_isMendedCall hr h.body h.body.instructions 0 hplain hmended).1 hvisits
      · intro hnone
        obtain ⟨hvisits, hstop⟩ := run_agrees hr h.body h.body.instructions 0 hplain fun v hv hmended =>
          hnone ⟨v, hv, hmended⟩
        refine ⟨hvisits, ?_⟩
        generalize (run ⟨c.name, m.instructions⟩ 0 m.instructions start).2 = stop at hstop ⊢
        generalize (run (Body.rename r ⟨c.name, m.instructions⟩) 0 (m.instructions.map r.instruction)
          (start.rename r)).2 = stop' at hstop ⊢
        cases hstop with
        | none => exact .ok .walked
        | some hstop =>
          rename_i stop stop'
          obtain ⟨hposition, hfault⟩ := hstop
          simp only [hposition]
          exact sameEnd_toError hfault _ _ _ _ stop.1
    · intro hmended
      obtain ⟨-, at_, descriptor, defect, hstop⟩ :=
        run_of_isMendedCall hr h.body h.body.instructions 0 hplain hmended
      rw [hstop]
      exact ⟨_, descriptor, defect, rfl⟩
  | error hnot hfault =>
    simp only [hnot, false_or, List.not_mem_nil, false_and, exists_false, not_false_eq_true, iff_true,
      false_implies, and_true]
    exact ⟨.nil, sameEnd_toError hfault _ _ _ _ 0⟩
  | mended hmended descriptor defect t =>
    simp only [hmended, true_or, not_true_eq_false, iff_false, true_implies]
    refine ⟨?_, _, descriptor, defect, rfl⟩
    rintro ⟨hvisits, houtcome⟩
    cases hbody : m.instructions with
    | nil =>
      rw [hbody] at houtcome
      cases houtcome
    | cons i rest =>
      rw [hbody] at hvisits
      exact visits_ne_nil _ _ _ _ _ (List.forall₂_nil_left_iff.mp hvisits)

end Simulation

open Simulation

/-- Walking a renamed method of a renamed class goes as walking the method: it ends the same way, and
before and after every instruction the stack and the locals are the same up to the names of classes.
Class names may be merged, and members renamed at will. The two walks part exactly where renaming takes the closing
parentheses from the class names of a descriptor, which cannot be split before. -/
theorem renamed_walk_agrees_iff (r : Renaming) (hr : r.KeepsTypes) (c : Class) (k : Nat) (m : Method)
    (hm : c.methods[k]? = some m) (h : IsPlainMethod c m) :
    ∃ m', (r.apply c).methods[k]? = some m' ∧
      ((walk c m).Agrees r (walk (r.apply c) m') ↔ ¬Diverges r c m) ∧
      (Diverges r c m → ∃ site descriptor defect,
        (walk c m).outcome = .error (.malformed site (.badDescriptor descriptor defect))) := by
  refine ⟨r.method c.name m, ?_, walk_agrees_iff hr h⟩
  have hmethods : (r.apply c).methods = c.methods.map (r.method c.name) := rfl
  rw [hmethods, List.getElem?_map, hm, Option.map_some]

namespace Samples

/-- Takes an element of an array as a leaf, with an allocation that a frame refers to. -/
def pick : Method where
  name := "pick"
  descriptor := "([Lp/Node;I)Lp/Leaf;"
  maxLocals := 3
  instructions := [.label 1, .type 0xbb "p/Leaf", .insn 0x59,
    .frame (.full [.object "p/Tree", .object "[Lp/Node;", .integer]
      [.uninitialized 1, .uninitialized 1]),
    .method 0xb7 "p/Leaf" "<init>" "()V" false, .insn 0x57, .var 0x19 1, .var 0x15 2, .insn 0x32,
    .type 0xc0 "p/Leaf", .ldc (.string "leaf"), .insn 0x57, .insn 0xb0]

def tree : Class where
  version := 52
  name := "p/Tree"
  superName := some "java/lang/Object"
  methods := [pick]

/-- Gives nodes and leaves one name. -/
def merge : Renaming where
  classes := (Table.empty.insert "p/Node" "q/Item").insert "p/Leaf" "q/Item"
  fields := MemberTable.empty
  methods := MemberTable.empty

theorem keepsTypes_merge : merge.KeepsTypes where
  plain := by decide
  noParen := by
    have hentries : ∀ e ∈ merge.classes.entries, ')' ∉ e.2.toList := by decide
    intro old new hget
    exact hentries (old, new) (merge.classes.get?_eq_some_iff.mp hget)
  implied := by decide

end Samples

theorem renamed_walk_agrees_merge :
    (walk Samples.tree Samples.pick).outcome.toOption = some .walked ∧
    (walk Samples.tree Samples.pick).visits.map (fun v => v.before.stack.filterMap (·.descriptor)) =
      [[], [], ["Lp/Leaf;"], ["Lp/Leaf;", "Lp/Leaf;"], ["Lp/Leaf;", "Lp/Leaf;"], ["Lp/Leaf;"], [],
        ["[Lp/Node;"], ["I", "[Lp/Node;"], ["Lp/Node;"], ["Lp/Leaf;"],
        ["Ljava/lang/String;", "Lp/Leaf;"], ["Lp/Leaf;"]] ∧
    ∃ m', (Samples.merge.apply Samples.tree).methods[0]? = some m' ∧
      (walk Samples.tree Samples.pick).Agrees Samples.merge
        (walk (Samples.merge.apply Samples.tree) m') := by
  have hplain : IsPlainMethod Samples.tree Samples.pick :=
    ⟨⟨by decide, by decide, by decide +kernel⟩, by decide +kernel⟩
  have hsplits : ∀ d ∈ Samples.pick.descriptor :: (walk Samples.tree Samples.pick).visits.flatMap (fun v =>
      (Sim.call? v.instruction).toList.map (·.1)), (Descriptor.split d).isOk = true := by decide +kernel
  have hbroken : ∀ d type, Samples.merge.Mends type d → (Descriptor.split d).isOk = false := by
    intro d type hmends
    obtain ⟨defect, herror⟩ := hmends.split_eq_error
    rw [herror]
    rfl
  have hnot : ¬Diverges Samples.merge Samples.tree Samples.pick := by
    rintro ⟨-, ⟨type, hmends⟩ | ⟨v, hv, d, receiver, type, hcall, hmends, -⟩⟩
    · exact Bool.false_ne_true ((hbroken _ type hmends).symm.trans (hsplits _ List.mem_cons_self))
    · refine Bool.false_ne_true ((hbroken d type hmends).symm.trans (hsplits d (List.mem_cons_of_mem _ ?_)))
      exact List.mem_flatMap.mpr ⟨v, hv, by rw [hcall]; exact List.mem_singleton_self _⟩
  obtain ⟨m', hm', hiff, -⟩ := renamed_walk_agrees_iff Samples.merge Samples.keepsTypes_merge Samples.tree 0
    Samples.pick rfl hplain
  exact ⟨by decide +kernel, by decide +kernel, m', hm', hiff.mpr hnot⟩

namespace Samples

/-- Passes nothing for a parameter whose class has a closing parenthesis in its name. -/
def pass : Method where
  access := 0x0008
  name := "pass"
  descriptor := "()V"
  instructions := [.insn 0x01, .method 0xb8 "p/Tree" "g" "(Lq/a)b;)V" false, .insn 0xb1]

def passer : Class := { tree with methods := [pass] }

/-- Gives the class a name without parenthesis. -/
def plainName : Renaming := ⟨Table.empty.insert "q/a)b" "q/c", MemberTable.empty, MemberTable.empty⟩

theorem keepsTypes_plainName : plainName.KeepsTypes where
  plain := by decide
  noParen := by
    have hentries : ∀ e ∈ plainName.classes.entries, ')' ∉ e.2.toList := by decide
    intro old new hget
    exact hentries (old, new) (plainName.classes.get?_eq_some_iff.mp hget)
  implied := by decide

end Samples

/-- A walk stops at a call by a valid descriptor, since a class in it has a closing parenthesis in its name, and goes to
the end once the class has another name. -/
theorem walk_mended_by_renaming :
    Samples.plainName.KeepsTypes ∧ IsPlainMethod Samples.passer Samples.pass ∧
    Samples.passer.methods[0]? = some Samples.pass ∧
    (walk Samples.passer Samples.pass).outcome =
      .error (.malformed ⟨"p/Tree", "pass", "()V", 1⟩ (.badDescriptor "(Lq/a)b;)V" (.badParameter 1))) ∧
    ∃ m', (Samples.plainName.apply Samples.passer).methods[0]? = some m' ∧
      (walk (Samples.plainName.apply Samples.passer) m').outcome = .ok .walked ∧
      ¬(walk Samples.passer Samples.pass).Agrees Samples.plainName
        (walk (Samples.plainName.apply Samples.passer) m') := by
  have hplain : IsPlainMethod Samples.passer Samples.pass :=
    ⟨⟨by decide, by decide, by decide +kernel⟩, by decide +kernel⟩
  have hold : (walk Samples.passer Samples.pass).outcome =
      .error (.malformed ⟨"p/Tree", "pass", "()V", 1⟩ (.badDescriptor "(Lq/a)b;)V" (.badParameter 1))) := by
    decide +kernel
  have hnew : (walk (Samples.plainName.apply Samples.passer)
      (Samples.plainName.method Samples.passer.name Samples.pass)).outcome = .ok .walked := by decide +kernel
  refine ⟨Samples.keepsTypes_plainName, hplain, rfl, hold, _, rfl, hnew, fun hagree => ?_⟩
  have hsame := hagree.outcome
  rw [hold, hnew] at hsame
  cases hsame

end Classmith
