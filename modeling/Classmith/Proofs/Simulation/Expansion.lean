import Classmith.Proofs.Simulation.Declarations
import Classmith.Proofs.Simulation.Walks

/-!
# Expanded frames

A frame that is given as a change to the frame before it abbreviates a full frame. Walking a method with
its frames written out goes as walking the method for as long as the method holds, at each frame, what
the frame declares. A frame other than a full one leaves the slots it does not name as they are, so a
value that was stored before it may outlive it.
-/
namespace Classmith

/-! ## Expansion -/

/-- The verification type of a parameter. -/
def FrameValue.ofType (descriptor : String) : FrameValue :=
  match descriptor.toList with
  | 'J' :: _ => .long
  | 'D' :: _ => .double
  | 'F' :: _ => .float
  | 'L' :: _ => .object ((Descriptor.internalName? descriptor).getD descriptor)
  | '[' :: _ => .object descriptor
  | _ => .integer

/-- The full frame that a frame abbreviates, where the given locals are declared before it. -/
def Frame.expand (current : List FrameValue) (declared : Frame) : Frame :=
  .full (declared.localsAfter current) declared.stackEntries

namespace Instruction

def localsAfter (current : List FrameValue) : Instruction → List FrameValue
  | .frame declared => declared.localsAfter current
  | _ => current

def expandFrame (current : List FrameValue) : Instruction → Instruction
  | .frame declared => .frame (declared.expand current)
  | i => i

/-- The locals of a full frame. -/
def fullLocals? : Instruction → Option (List FrameValue)
  | .frame (.full locals _) => some locals
  | _ => none

theorem expandFrame_of_ne {i : Instruction} (h : ∀ declared, i ≠ .frame declared)
    (current : List FrameValue) : i.expandFrame current = i ∧ i.localsAfter current = current := by
  cases i with
  | frame declared => exact absurd rfl (h declared)
  | _ => exact ⟨rfl, rfl⟩

end Instruction

/-- The instructions with all frames written out. -/
def expandFrames (current : List FrameValue) : List Instruction → List Instruction
  | [] => []
  | i :: rest => i.expandFrame current :: expandFrames (i.localsAfter current) rest

namespace Method

/-- The locals that are declared at the start of a method. -/
def entryLocals (owner : String) (m : Method) : List FrameValue :=
  match Descriptor.split m.descriptor with
  | .error _ => []
  | .ok type =>
    (if m.isStatic then []
      else [if m.name = "<init>" then FrameValue.uninitializedThis else .object owner]) ++
    type.parameters.map FrameValue.ofType

def expandFrames (owner : String) (m : Method) : Method :=
  { m with instructions := Classmith.expandFrames (m.entryLocals owner) m.instructions }

/-- The locals that the frame at a position declares, written out. -/
def declaredLocals? (owner : String) (m : Method) (position : Nat) : Option (List FrameValue) :=
  ((m.expandFrames owner).instructions[position]?).bind Instruction.fullLocals?

end Method

theorem getElem?_expandFrames {current : List FrameValue} {l : List Instruction} {position : Nat}
    {i : Instruction} (h : (expandFrames current l)[position]? = some i) :
    ∃ before j, l[position]? = some j ∧ i = j.expandFrame before := by
  induction l generalizing current position with
  | nil => simp [expandFrames] at h
  | cons head rest ih =>
    cases position with
    | zero =>
      rw [expandFrames, List.getElem?_cons_zero] at h
      exact ⟨current, head, rfl, (Option.some.inj h).symm⟩
    | succ position =>
      rw [expandFrames, List.getElem?_cons_succ] at h
      exact ih h

namespace Simulation

/-! ## Allocations -/

theorem after?_expandFrames (label : Label) (current : List FrameValue) (l : List Instruction) :
    Option.Rel (fun rest rest' => ∃ before, rest' = expandFrames before rest) (Body.after? label l)
      (Body.after? label (expandFrames current l)) := by
  induction l generalizing current with
  | nil => exact .none
  | cons head rest ih =>
    have hrest := ih (head.localsAfter current)
    rw [expandFrames, Body.after?.eq_def, Body.after?.eq_def label (_ :: _)]
    simp only
    generalize Body.after? label rest = found at hrest ⊢
    generalize Body.after? label (expandFrames (head.localsAfter current) rest) = found' at hrest ⊢
    cases hrest with
    | some h => exact .some h
    | none =>
      cases head with
      | label id =>
        simp only [Instruction.expandFrame]
        split
        · exact .some ⟨_, rfl⟩
        · exact .none
      | _ => exact .none

theorem firstAllocation_expandFrames (current : List FrameValue) (l : List Instruction) :
    ((expandFrames current l).find? fun i => !Body.isMarker i).bind allocation? =
      (l.find? fun i => !Body.isMarker i).bind allocation? := by
  induction l generalizing current with
  | nil => rfl
  | cons head rest ih =>
    rw [expandFrames, List.find?_cons, List.find?_cons]
    cases head with
    | frame declared => exact ih _
    | label _ => exact ih _
    | line _ _ => exact ih _
    | _ => rfl

theorem allocated_expandFrames (owner : String) (current : List FrameValue) (l : List Instruction)
    (label : Label) : Body.allocated ⟨owner, expandFrames current l⟩ label =
      Body.allocated ⟨owner, l⟩ label := by
  have hrel := after?_expandFrames label current l
  rw [allocated_eq, allocated_eq]
  simp only
  generalize Body.after? label l = found at hrel ⊢
  generalize Body.after? label (expandFrames current l) = found' at hrel ⊢
  cases hrel with
  | none => rfl
  | some h =>
    obtain ⟨before, rfl⟩ := h
    simp only [Option.elim_some, firstAllocation_expandFrames]

theorem kind?_expandFrames (owner : String) (current : List FrameValue) (l : List Instruction) :
    FrameValue.kind? ⟨owner, expandFrames current l⟩ = FrameValue.kind? ⟨owner, l⟩ := by
  funext entry
  cases entry with
  | uninitialized label => simp only [FrameValue.kind?, FrameValue.make?, allocated_expandFrames]
  | _ => rfl

/-! ## The start of a method -/

theorem width_ofType (descriptor : String) :
    (FrameValue.ofType descriptor).width = (Descriptor.category descriptor).words := by
  unfold FrameValue.ofType Descriptor.category
  split <;> simp_all [FrameValue.width, Category.words]

theorem known_ofType (b : Body) (descriptor : String) :
    ((FrameValue.ofType descriptor).kind? b).isSome = true := by
  unfold FrameValue.ofType
  split <;> rfl

theorem known_entryLocals (b : Body) (owner : String) (m : Method) : Known b (m.entryLocals owner) := by
  unfold Method.entryLocals
  cases Descriptor.split m.descriptor with
  | error defect => simp [Known]
  | ok type =>
    intro entry hentry
    rcases List.mem_append.mp hentry with hreceiver | hparameter
    · split at hreceiver
      · cases hreceiver
      · rw [List.mem_singleton.mp hreceiver]
        split <;> rfl
    · obtain ⟨descriptor, -, rfl⟩ := List.mem_map.mp hparameter
      exact known_ofType b descriptor

theorem State.hasRoom_cons {s t : State} (hs : s.HasRoom) {width : Nat}
    (hwidths : t.widths = width :: s.widths) (hlength : s.locals.length + width ≤ t.locals.length) :
    t.HasRoom := by
  unfold State.HasRoom State.declaredSlots at *
  rw [hwidths, List.foldl_cons, foldl_add_eq]
  omega

theorem Sim.declareParameters_step (index : Nat) (descriptor : String) (rest : List String) {s : State}
    (hs : s.HasRoom) : ∃ t : State, t.HasRoom ∧
      t.widths = (Descriptor.category descriptor).words :: s.widths ∧
      declareParameters index (descriptor :: rest) s = declareParameters (index + 1) rest t := by
  rw [declareParameters_cons]
  cases hcategory : Descriptor.category descriptor with
  | one =>
    refine ⟨_, ?_, ?_, rfl⟩
    · refine State.hasRoom_cons hs rfl ?_
      simp [Category.words]
    · rfl
  | two =>
    refine ⟨_, ?_, ?_, rfl⟩
    · refine State.hasRoom_cons hs rfl ?_
      simp [Category.words]
    · rfl

theorem Sim.declareParameters_ok (index : Nat) (parameters : List String) {s : State} (hs : s.HasRoom) :
    ∃ t, declareParameters index parameters s = .ok ((), t) ∧ t.HasRoom ∧
      t.widths = widthsOf (parameters.map FrameValue.ofType) ++ s.widths := by
  induction parameters generalizing index s with
  | nil => exact ⟨s, rfl, hs, rfl⟩
  | cons descriptor rest ih =>
    obtain ⟨u, hu, hwidths, hrest⟩ := declareParameters_step index descriptor rest hs
    obtain ⟨t, ht, hroom, hall⟩ := ih (index + 1) hu
    refine ⟨t, hrest.trans ht, hroom, ?_⟩
    rw [hall, hwidths]
    simp [widthsOf, width_ofType]

theorem Sim.declareReceiver_ok (owner : String) :
    ∃ t, declareReceiver owner State.start = .ok ((), t) ∧ t.HasRoom ∧ t.widths = [1] := by
  refine ⟨_, rfl, ?_, rfl⟩
  simp [State.HasRoom, State.declaredSlots, State.start]

theorem Sim.enter_spec {owner : String} {m : Method} {s : State}
    (h : enter owner m State.start = .ok ((), s)) :
    s.HasRoom ∧ s.widths = widthsOf (m.entryLocals owner) := by
  cases hsplit : Descriptor.split m.descriptor with
  | error defect =>
    unfold enter at h
    rw [hsplit] at h
    cases h
  | ok type =>
    obtain ⟨u, hu, hroom, hwidths⟩ : ∃ u,
        (if m.isStatic then pure () else declareReceiver owner : Sim Unit) State.start = .ok ((), u) ∧
        u.HasRoom ∧ u.widths = if m.isStatic then [] else [1] := by
      split
      · exact ⟨State.start, rfl, Nat.zero_le _, rfl⟩
      · exact declareReceiver_ok owner
    obtain ⟨t, ht, hroom', hwidths'⟩ := declareParameters_ok 0 type.parameters hroom
    obtain ⟨w, hw, -, hsame, hlocals⟩ := ensureLocals_ok m.maxLocals.toNat t
    have hlength := congrArg List.length hlocals
    rw [enter_eq hsplit, bind_of_ok hu, bind_of_ok ht, hw] at h
    cases h
    refine ⟨?_, ?_⟩
    · simp only [List.length_map, List.length_append] at hlength
      unfold State.HasRoom State.declaredSlots at *
      rw [hsame]
      omega
    · rw [hsame, hwidths', hwidths, Method.entryLocals, hsplit]
      cases m.isStatic with
      | true => simp
      | false =>
        have hreceiver : (if m.name = "<init>" then FrameValue.uninitializedThis
            else .object owner).width = 1 := by
          split <;> rfl
        simp [widthsOf, hreceiver]

/-! ## Steps and runs -/

/-- The slots hold what the locals of a frame declare, and the others hold nothing usable. -/
def State.HoldsTo (b : Body) (locals : List FrameValue) (s : State) : Prop :=
  s.locals.map Value.kind = slotKinds b locals ++
    List.replicate (s.locals.length - (slotKinds b locals).length) .unusable

instance (b : Body) (locals : List FrameValue) (s : State) : Decidable (s.HoldsTo b locals) :=
  inferInstanceAs (Decidable (_ = _))

theorem exists_step_of_run {b : Body} {position : Nat} {head : Instruction} {rest : List Instruction}
    {s s' : State} {i : Nat}
    (h : ((run b position (head :: rest) s).1[i]?).bind Visit.after = some s') :
    ∃ next, Sim.step b position head s = .ok ((), next) := by
  cases hstep : Sim.step b position head s with
  | error fault =>
    -- the failed instruction is the last that is visited, and there is no state after it
    cases i <;> simp [run, hstep] at h
  | ok result => exact ⟨result.2, rfl⟩

section

variable {b b' : Body} (hkinds : FrameValue.kind? b' = FrameValue.kind? b)

include hkinds

theorem kind_eq_of_kind? : FrameValue.kind b' = FrameValue.kind b := by
  funext entry
  rw [FrameValue.kind, FrameValue.kind, hkinds]

theorem slotKinds_eq_of_kind? : slotKinds b' = slotKinds b := by
  funext entries
  have hslots : FrameValue.slotKinds b' = FrameValue.slotKinds b := by
    funext entry
    rw [FrameValue.slotKinds, FrameValue.slotKinds, kind_eq_of_kind? hkinds]
  rw [slotKinds, slotKinds, hslots]

theorem known_of_kind? {entries : List FrameValue} (h : Known b entries) : Known b' entries := by
  intro entry hentry
  rw [hkinds]
  exact h entry hentry

variable {current : List FrameValue}

/-- Where the locals are as a frame declares them, its full form makes an equal of the state. -/
theorem Sim.applyFrame_expand (position : Nat) {declared : Frame} {s t s' : State}
    (hlike : s.Like (widthsOf current) t) (hknown : Known b current)
    (hstep : applyFrame b position declared s = .ok ((), s'))
    (hholds : s'.HoldsTo b (declared.localsAfter current)) :
    ∃ t', applyFrame b' position (declared.expand current) t = .ok ((), t') ∧
      s'.Like (widthsOf (declared.localsAfter current)) t' ∧
      Known b (declared.localsAfter current) := by
  obtain ⟨hentries, hstack⟩ := stack_of_applyFrame hstep
  obtain ⟨hlocals, hwidths, hlength⟩ := locals_of_applyFrame hlike.left hlike.room hknown hstep
  obtain ⟨t', ht', hsettled⟩ := applyFrame_full position (known_of_kind? hkinds hlocals)
    (known_of_kind? hkinds hentries) t
  have hslots : s'.declaredSlots = (slotKinds b (declared.localsAfter current)).length :=
    declaredSlots_eq b (by rw [hwidths, List.append_nil])
  refine ⟨t', ht', ⟨?_, ?_, hwidths, hsettled.widths, by omega⟩, hlocals⟩
  · rw [hstack, hsettled.stack, kind_eq_of_kind? hkinds]
  · -- neither frame removes slots, so both pad the declared ones to the same length
    have hpad : s'.locals.length - (slotKinds b (declared.localsAfter current)).length =
        t.locals.length - (slotKinds b (declared.localsAfter current)).length := by
      have hsame := hlike.length_locals
      omega
    rw [hholds, hsettled.locals, slotKinds_eq_of_kind? hkinds, hpad]

theorem Sim.step_expandFrame (position : Nat) {i : Instruction} {s t s' : State}
    (hlike : s.Like (widthsOf current) t) (hknown : Known b current)
    (hstep : step b position i s = .ok ((), s'))
    (hholds : ∀ locals ∈ (i.expandFrame current).fullLocals?, s'.HoldsTo b locals) :
    ∃ t', step b' position (i.expandFrame current) t = .ok ((), t') ∧
      s'.Like (widthsOf (i.localsAfter current)) t' ∧ Known b (i.localsAfter current) := by
  by_cases hframe : ∃ declared, i = .frame declared
  · obtain ⟨declared, rfl⟩ := hframe
    exact applyFrame_expand hkinds position hlike hknown hstep (hholds _ rfl)
  · have hne : ∀ declared, i ≠ .frame declared := fun declared h => hframe ⟨declared, h⟩
    obtain ⟨hsame, hcurrent⟩ := Instruction.expandFrame_of_ne hne current
    obtain ⟨_, t', ht', -, hlike'⟩ := follows_step b b' position hne s t hlike () s' hstep
    rw [hsame, hcurrent]
    exact ⟨t', ht', hlike', hknown⟩

/-- The run over expanded frames keeps up with the run for as long as the locals are as declared. -/
theorem run_expandFrames (position : Nat) {l : List Instruction} {s t : State}
    (hlike : s.Like (widthsOf current) t) (hknown : Known b current) {i : Nat} {s' : State}
    (hrun : ((run b position l s).1[i]?).bind Visit.after = some s')
    (hholds : ∀ j, j ≤ i → ∀ u ∈ ((run b position l s).1[j]?).bind Visit.after,
      ∀ locals ∈ ((expandFrames current l)[j]?).bind Instruction.fullLocals?, u.HoldsTo b locals) :
    ∃ t' widths, ((run b' position (expandFrames current l) t).1[i]?).bind Visit.after = some t' ∧
      s'.Like widths t' := by
  -- the locals declared so far change along the way, and the two states only stay alike
  induction l generalizing current position s t i with
  | nil => simp [run] at hrun
  | cons head rest ih =>
    rw [expandFrames] at hholds ⊢
    obtain ⟨next, hstep⟩ := exists_step_of_run hrun
    have hfirst := hholds 0 (Nat.zero_le i) next (by simp [run, hstep])
    obtain ⟨t₁, ht₁, hlike₁, hknown₁⟩ :=
      Sim.step_expandFrame hkinds position hlike hknown hstep (by simpa using hfirst)
    cases i with
    | zero =>
      simp only [run, hstep, List.getElem?_cons_zero, Option.bind_some, Option.some.injEq] at hrun
      subst hrun
      exact ⟨t₁, _, by simp [run, ht₁], hlike₁⟩
    | succ i =>
      simp only [run, hstep, ht₁, List.getElem?_cons_succ] at hrun ⊢
      refine ih (position + 1) hlike₁ hknown₁ hrun fun j hj u hu locals hlocals => ?_
      exact hholds (j + 1) (Nat.succ_le_succ hj) u (by simpa [run, hstep] using hu) locals
        (by simpa using hlocals)

end

theorem step_of_run {b : Body} {position : Nat} {l : List Instruction} {s s' : State} {i : Nat}
    (h : ((run b position l s).1[i]?).bind Visit.after = some s') :
    ∃ j before, l[i]? = some j ∧ Sim.step b (position + i) j before = .ok ((), s') := by
  induction l generalizing position s i with
  | nil => simp [run] at h
  | cons head rest ih =>
    obtain ⟨next, hstep⟩ := exists_step_of_run h
    cases i with
    | zero =>
      simp only [run, hstep, List.getElem?_cons_zero, Option.bind_some, Option.some.injEq] at h
      subst h
      exact ⟨head, s, rfl, hstep⟩
    | succ i =>
      simp only [run, hstep, List.getElem?_cons_succ] at h
      obtain ⟨j, before, hj, hstep'⟩ := ih h
      have hposition : position + 1 + i = position + (i + 1) := by omega
      rw [hposition] at hstep'
      exact ⟨j, before, hj, hstep'⟩

theorem exists_after_of_run {b : Body} {position : Nat} {l : List Instruction} {s : State}
    (h : (run b position l s).2 = none) {i : Nat} (hi : i < l.length) :
    ∃ s', ((run b position l s).1[i]?).bind Visit.after = some s' := by
  induction l generalizing position s i with
  | nil => cases hi
  | cons head rest ih =>
    cases hstep : Sim.step b position head s with
    | error fault => simp [run, hstep] at h
    | ok result =>
      obtain ⟨⟨⟩, next⟩ := result
      simp only [run, hstep] at h ⊢
      cases i with
      | zero => exact ⟨next, rfl⟩
      | succ i => exact ih h (Nat.lt_of_succ_lt_succ hi)

/-! ## Walks -/

/-- The state after the instruction at a position. -/
def Walk.after? (w : Walk) (position : Nat) : Option State := (w.visits[position]?).bind Visit.after

theorem exists_run_of_walked {c : Class} {m : Method} (h : (walk c m).outcome = .ok .walked) :
    ∃ start, lastWithoutFrames < c.version ∧ Sim.enter c.name m State.start = .ok ((), start) ∧
      (run ⟨c.name, m.instructions⟩ 0 m.instructions start).2 = none := by
  unfold walk at h
  split at h
  · cases h
  · rename_i hversion
    cases henter : Sim.enter c.name m State.start with
    | error fault =>
      rw [henter] at h
      cases h
    | ok result =>
      obtain ⟨⟨⟩, start⟩ := result
      rw [henter] at h
      refine ⟨start, UInt16.not_le.mp hversion, rfl, ?_⟩
      simp only at h
      cases hfault : (run ⟨c.name, m.instructions⟩ 0 m.instructions start).2 with
      | none => rfl
      | some stop =>
        rw [hfault] at h
        cases h

theorem visits_eq {c : Class} {m : Method} {start : State} (hversion : lastWithoutFrames < c.version)
    (henter : Sim.enter c.name m State.start = .ok ((), start)) :
    (walk c m).visits = (run ⟨c.name, m.instructions⟩ 0 m.instructions start).1 := by
  unfold walk
  rw [if_neg (UInt16.not_le.mpr hversion), henter]

/-- How a value can be used: whether it is valid, and its category. -/
def Value.use (v : Value) : Bool × Option Category := (v.isValid, v.category)

def Kind.use (k : Kind) : Bool × Option Category := (k.isValid, k.category)

theorem Value.use_kind (v : Value) : v.kind.use = v.use := by
  rw [Kind.use, Value.category_kind]
  rfl

/-- How a slot can be used; one that does not exist is invalid. -/
def State.useAt (s : State) (slot : Nat) : Bool × Option Category :=
  ((s.locals[slot]?).map Value.use).getD Kind.unusable.use

/-- The entries of the stacks and the slots can be used in the same way. -/
structure State.SameUse (s t : State) : Prop where
  stack : s.stack.map Value.use = t.stack.map Value.use
  locals : ∀ slot, s.useAt slot = t.useAt slot

/-- How the locals of a frame say that a slot can be used; one they do not declare is invalid. -/
def declaredUse (b : Body) (locals : List FrameValue) (slot : Nat) : Bool × Option Category :=
  (((slotKinds b locals)[slot]?).map Kind.use).getD Kind.unusable.use

theorem map_use_eq {l l' : List Value} (h : l.map Value.kind = l'.map Value.kind) :
    l.map Value.use = l'.map Value.use := by
  have huse : ∀ l : List Value, l.map Value.use = (l.map Value.kind).map Kind.use := by
    intro l
    rw [List.map_map]
    exact List.map_congr_left fun v _ => v.use_kind.symm
  rw [huse, huse, h]

theorem State.useAt_eq (s : State) (slot : Nat) :
    s.useAt slot = (((s.locals.map Value.kind)[slot]?).map Kind.use).getD Kind.unusable.use := by
  rw [State.useAt, List.getElem?_map]
  cases s.locals[slot]? with
  | none => rfl
  | some v => exact v.use_kind.symm

theorem State.Like.sameUse {widths : List Nat} {s t : State} (h : s.Like widths t) : s.SameUse t := by
  refine ⟨map_use_eq h.stack, fun slot => ?_⟩
  rw [State.useAt_eq, State.useAt_eq, h.locals]

theorem Sim.Settled.useAt {b : Body} {locals stack : List FrameValue} {length : Nat} {t : State}
    (h : Sim.Settled b locals stack length t) (slot : Nat) :
    t.useAt slot = declaredUse b locals slot := by
  rw [State.useAt_eq, h.locals, declaredUse]
  by_cases hslot : slot < (slotKinds b locals).length
  · rw [List.getElem?_append_left hslot]
  · have habsent : (slotKinds b locals)[slot]? = none := List.getElem?_eq_none (by omega)
    rw [List.getElem?_append_right (by omega), habsent, List.getElem?_replicate]
    split <;> rfl

/-- Up to a position, the slots hold after each frame what the frame declares. -/
def KeepsToFrames (c : Class) (m : Method) (position : Nat) : Prop :=
  ∀ i, i ≤ position → ∀ s ∈ (walk c m).after? i, ∀ locals ∈ m.declaredLocals? c.name i,
    s.HoldsTo ⟨c.name, m.instructions⟩ locals

/-- At a frame the two walks can only differ in how the slots of the first can be used. -/
theorem sameUse_iff_of_steps {b b' : Body} (hkinds : FrameValue.kind? b' = FrameValue.kind? b)
    {current : List FrameValue} {position : Nat} {i : Instruction} {s s' t t' : State}
    {locals : List FrameValue} (hlocals : (i.expandFrame current).fullLocals? = some locals)
    (hs : Sim.step b position i s = .ok ((), s'))
    (ht : Sim.step b' position (i.expandFrame current) t = .ok ((), t')) :
    s'.SameUse t' ↔ ∀ slot, s'.useAt slot = declaredUse b locals slot := by
  cases i with
  | frame declared =>
    obtain rfl : declared.localsAfter current = locals := Option.some.inj hlocals
    have hsettled := Sim.settled_of_applyFrame ht
    have hstack : s'.stack.map Value.kind = t'.stack.map Value.kind := by
      rw [(Sim.stack_of_applyFrame hs).2, hsettled.stack, kind_eq_of_kind? hkinds]
    have hdeclared : ∀ slot, t'.useAt slot = declaredUse b (declared.localsAfter current) slot := by
      intro slot
      rw [hsettled.useAt, declaredUse, declaredUse, slotKinds_eq_of_kind? hkinds]
    constructor
    · intro h slot
      rw [h.locals, hdeclared]
    · intro h
      refine ⟨map_use_eq hstack, fun slot => ?_⟩
      rw [h, hdeclared]
  | _ => cases hlocals

end Simulation

open Simulation

/-- Frames as changes and frames written out. After every instruction of a method whose walk succeeds,
the walk of the method with its frames written out is in a state of the same use, provided that up to
there the slots hold after each frame what the frame declares. Where both walks reach a frame, they
agree after it exactly if the slots of the first can be used as the frame declares: the other walk
cannot use a slot that the frame does not declare. -/
theorem expanded_frames_agree (c : Class) (m : Method) (hwalk : (walk c m).outcome = .ok .walked)
    (i : Nat) (hi : i < m.instructions.length) :
    ∃ s, (walk c m).after? i = some s ∧
      (KeepsToFrames c m i →
        ∃ t, (walk c (m.expandFrames c.name)).after? i = some t ∧ s.SameUse t) ∧
      ∀ locals t, m.declaredLocals? c.name i = some locals →
        (walk c (m.expandFrames c.name)).after? i = some t →
        (s.SameUse t ↔ ∀ slot, s.useAt slot = declaredUse ⟨c.name, m.instructions⟩ locals slot) := by
  obtain ⟨start, hversion, henter, hfault⟩ := exists_run_of_walked hwalk
  obtain ⟨s, hs⟩ := exists_after_of_run hfault hi
  have hkinds := kind?_expandFrames c.name (m.entryLocals c.name) m.instructions
  have hvisits := visits_eq hversion henter
  have hvisits' := visits_eq (m := m.expandFrames c.name) hversion henter
  refine ⟨s, by rw [Walk.after?, hvisits, hs], ?_, ?_⟩
  · intro hkeeps
    obtain ⟨hroom, hwidths⟩ := Sim.enter_spec henter
    have hknown := known_entryLocals ⟨c.name, m.instructions⟩ c.name m
    simp only [KeepsToFrames, Walk.after?, hvisits] at hkeeps
    obtain ⟨t, _, ht, hlike⟩ :=
      run_expandFrames hkinds 0 ⟨rfl, rfl, hwidths, hwidths, hroom⟩ hknown hs hkeeps
    refine ⟨t, ?_, hlike.sameUse⟩
    rw [Walk.after?, hvisits']
    exact ht
  · intro locals t hlocals ht
    rw [Walk.after?, hvisits'] at ht
    obtain ⟨j, before, hj, hstep⟩ := step_of_run hs
    obtain ⟨j', before', hj', hstep'⟩ := step_of_run ht
    obtain ⟨current, k, hk, rfl⟩ := getElem?_expandFrames hj'
    obtain rfl : j = k := Option.some.inj (hj.symm.trans hk)
    rw [Method.declaredLocals?, hj'] at hlocals
    exact sameUse_iff_of_steps hkinds hlocals hstep hstep'

namespace Samples

/-- Declares a local, a stack entry and then one local less. -/
def announce : Method where
  name := "announce"
  descriptor := "(J)V"
  maxLocals := 4
  instructions := [.insn 0x03, .var 0x36 3, .frame (.append [.integer]), .insn 0x04,
    .frame (.same1 .integer), .insn 0x57, .frame (.chop 1), .insn 0xb1]

/-- Stores a value before a frame that declares no locals. -/
def leave : Method where
  access := 0x0008
  name := "leave"
  descriptor := "()V"
  maxLocals := 1
  instructions := [.insn 0x03, .var 0x36 0, .frame .same]

theorem walked_announce : (walk tree announce).outcome = .ok .walked := by
  have hwalked : (walk tree announce).outcome.toOption = some .walked := by decide +kernel
  cases h : (walk tree announce).outcome with
  | error fault => simp [h, Except.toOption] at hwalked
  | ok outcome =>
    rw [h] at hwalked
    exact congrArg _ (Option.some.inj hwalked)

end Samples

theorem expanded_frames_agree_announce :
    KeepsToFrames Samples.tree Samples.announce 6 ∧
    Samples.announce.declaredLocals? Samples.tree.name 6 = some [.object "p/Tree", .long] ∧
    ∃ s t, (walk Samples.tree Samples.announce).after? 6 = some s ∧
      (walk Samples.tree (Samples.announce.expandFrames Samples.tree.name)).after? 6 = some t ∧
      s.SameUse t ∧ ∀ slot, s.useAt slot =
        declaredUse ⟨Samples.tree.name, Samples.announce.instructions⟩ [.object "p/Tree", .long] slot := by
  have hkeeps : KeepsToFrames Samples.tree Samples.announce 6 := by
    unfold KeepsToFrames
    decide +kernel
  have hlocals : Samples.announce.declaredLocals? Samples.tree.name 6 =
      some [.object "p/Tree", .long] := by decide +kernel
  obtain ⟨s, hs, hagree, hiff⟩ := expanded_frames_agree Samples.tree Samples.announce
    Samples.walked_announce 6 (by decide)
  obtain ⟨t, ht, hsame⟩ := hagree hkeeps
  exact ⟨hkeeps, hlocals, s, t, hs, ht, hsame, (hiff _ t hlocals ht).mp hsame⟩

/-- A stored value outlives a frame that declares no locals, but not the full frame that it abbreviates. -/
theorem stored_value_outlives_frame :
    (walk Samples.tree Samples.leave).outcome.toOption = some .walked ∧
    ∃ s t, (walk Samples.tree Samples.leave).after? 2 = some s ∧
      (walk Samples.tree (Samples.leave.expandFrames Samples.tree.name)).after? 2 = some t ∧
      s.useAt 0 = (true, some .one) ∧ t.useAt 0 = (false, none) ∧ ¬ s.SameUse t := by
  have hs : ((walk Samples.tree Samples.leave).after? 2).map (·.useAt 0) =
      some (true, some .one) := by decide +kernel
  have ht : ((walk Samples.tree (Samples.leave.expandFrames Samples.tree.name)).after? 2).map
      (·.useAt 0) = some (false, none) := by decide +kernel
  obtain ⟨s, hs, huse⟩ := Option.map_eq_some_iff.mp hs
  obtain ⟨t, ht, huse'⟩ := Option.map_eq_some_iff.mp ht
  refine ⟨by decide +kernel, s, t, hs, ht, huse, huse', fun h => ?_⟩
  have hslot := h.locals 0
  rw [huse, huse'] at hslot
  cases hslot

end Classmith
