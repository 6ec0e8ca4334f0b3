import Classmith.Proofs.Simulation.Shuffles

/-!
# Stack programs

An instruction that is neither a store nor a frame takes values from the top of the stack, moves them, makes new
ones and puts them back, and it looks at no more than a local slot besides. What holds of each of these operations
and carries over to their sequences holds of all such instructions.
-/
namespace Classmith

/-- Whether an instruction writes a local slot. -/
def Instruction.isStore : Instruction → Bool
  | .var opcode _ => 0x36 ≤ opcode && opcode ≤ 0x3a
  | _ => false

namespace Simulation.Sim

/-- Pushes what a local slot holds. -/
def load (slot : Nat) : Sim Unit :=
  get >>= fun s => (s.locals[slot]?).elim (malformed (.missingLocal slot)) push

theorem applyVar_of_load {opcode : UInt8} (h : (0x15 ≤ opcode && opcode ≤ 0x19) = true) (slot : Nat) :
    applyVar opcode slot = load slot := by
  rw [applyVar, if_pos h]
  refine bind_congr fun s => ?_
  cases s.locals[slot]? <;> rfl

theorem applyVar_of_store {opcode : UInt8} (h : (0x36 ≤ opcode && opcode ≤ 0x3a) = true) (slot : Nat) :
    applyVar opcode slot = pop >>= storeLocal slot := by
  have hload : ¬(0x15 ≤ opcode && opcode ≤ 0x19) = true := by
    simp only [Bool.and_eq_true, decide_eq_true_eq, UInt8.le_iff_toNat_le, UInt8.reduceToNat] at h ⊢
    omega
  rw [applyVar, if_neg hload, if_pos h]

/-- What is put together from operations on the stack and from looks at local slots. -/
inductive StackProgram : {α : Type} → Sim α → Prop
  | pure {α : Type} (a : α) : StackProgram (pure a : Sim α)
  | bind {α β : Type} {x : Sim α} {k : α → Sim β} (hx : StackProgram x) (hk : ∀ a, StackProgram (k a)) :
    StackProgram (x >>= k)
  | malformed {α : Type} (cause : Malformation) : StackProgram (malformed cause : Sim α)
  | unsupported {α : Type} (cause : Unmodelled) : StackProgram (unsupported cause : Sim α)
  | fresh (descriptor : Option String) (isValid isNull : Bool) (origin : Origin) :
    StackProgram (fresh descriptor isValid isNull origin)
  | push (v : Value) : StackProgram (push v)
  | pop : StackProgram pop
  | popN (count : Nat) : StackProgram (popN count)
  | shuffle (position : Nat) (op : Shuffle) : StackProgram (applyEffect position op.effect)
  | load (slot : Nat) : StackProgram (load slot)

namespace StackProgram

theorem discard {α : Type} {x : Sim α} (h : StackProgram x) : StackProgram (x >>= fun _ => Pure.pure ()) :=
  h.bind fun _ => .pure ()

theorem pushFresh (descriptor : Option String) (isValid isNull : Bool) (origin : Origin) :
    StackProgram (Sim.fresh descriptor isValid isNull origin >>= Sim.push) :=
  (StackProgram.fresh descriptor isValid isNull origin).bind .push

theorem unary (descriptor : String) (origin : Value → Origin) : StackProgram (unary descriptor origin) :=
  StackProgram.pop.bind fun _ => pushFresh _ _ _ _

theorem binary (descriptor : String) (origin : Value → Value → Origin) :
    StackProgram (binary descriptor origin) :=
  StackProgram.pop.bind fun _ => StackProgram.pop.bind fun _ => pushFresh _ _ _ _

theorem applyEffect (position : Nat) (effect : Effect) : StackProgram (applyEffect position effect) := by
  cases effect with
  | noop => exact .pure ()
  | push constant => exact pushFresh _ _ _ _
  | pushNull => exact pushFresh _ _ _ _
  | arrayLoad element =>
    cases element with
    | some descriptor => exact binary descriptor _
    | none =>
      apply StackProgram.pop.bind
      intro index
      apply StackProgram.pop.bind
      intro array
      cases elementType? array with
      | none => exact .malformed _
      | some descriptor => exact pushFresh _ _ _ _
  | arrayLength => exact unary "I" _
  | consume count => exact (StackProgram.popN count).discard
  | pop => exact .shuffle position .pop
  | pop2 => exact .shuffle position .pop2
  | dup form => exact .shuffle position (.dup form)
  | swap => exact .shuffle position .swap
  | binary descriptor => exact binary descriptor _
  | negate descriptor => exact unary descriptor _
  | convert descriptor => exact unary descriptor _
  | compare => exact binary "I" _

theorem applyInt (position : Nat) (opcode : UInt8) (operand : Int32) :
    StackProgram (applyInt position opcode operand) := by
  unfold Sim.applyInt
  split
  · exact pushFresh _ _ _ _
  · exact pushFresh _ _ _ _
  · cases arrayType? operand with
    | none => exact .malformed _
    | some descriptor => exact unary descriptor _
  · exact .unsupported _

theorem applyType (position : Nat) (opcode : UInt8) (operand : String) :
    StackProgram (applyType position opcode operand) := by
  unfold Sim.applyType
  split
  · exact pushFresh _ _ _ _
  · exact unary _ _
  · exact StackProgram.pop.bind fun _ => pushFresh _ _ _ _
  · exact unary _ _
  · exact .unsupported _

theorem applyField (position : Nat) (opcode : UInt8) (descriptor : String) :
    StackProgram (applyField position opcode descriptor) := by
  unfold Sim.applyField
  split
  · exact pushFresh _ _ _ _
  · exact StackProgram.pop.discard
  · exact unary descriptor _
  · exact (StackProgram.popN 2).discard
  · exact .unsupported _

theorem pushResult (result : String) (origin : Origin) : StackProgram (pushResult result origin) := by
  unfold Sim.pushResult
  split
  · exact pushFresh _ _ _ _
  · exact .pure ()

theorem invoke (descriptor : String) (receiver : Bool) (origin : Origin) :
    StackProgram (invoke descriptor receiver origin) := by
  cases hsplit : Descriptor.split descriptor with
  | error defect =>
    have hfails : Sim.invoke descriptor receiver origin =
        Sim.malformed (.badDescriptor descriptor defect) := by
      unfold Sim.invoke
      rw [hsplit]
    rw [hfails]
    exact .malformed _
  | ok type =>
    rw [invoke_eq hsplit]
    apply (StackProgram.popN _).bind
    intro _
    cases receiver with
    | true => exact StackProgram.pop.bind fun _ => pushResult _ origin
    | false => exact pushResult _ origin

theorem applyMethod (position : Nat) (opcode : UInt8) (descriptor : String) :
    StackProgram (applyMethod position opcode descriptor) := by
  unfold Sim.applyMethod
  split
  · exact invoke descriptor _ _
  · exact .unsupported _

theorem applyJump (opcode : UInt8) : StackProgram (applyJump opcode) := by
  unfold Sim.applyJump
  split
  · exact StackProgram.pop.discard
  split
  · exact (StackProgram.popN 2).discard
  split
  · exact .pure ()
  split
  · exact .unsupported _
  · exact .unsupported _

theorem applyVar {opcode : UInt8} (hstore : (0x36 ≤ opcode && opcode ≤ 0x3a) = false) (slot : Nat) :
    StackProgram (applyVar opcode slot) := by
  by_cases hload : (0x15 ≤ opcode && opcode ≤ 0x19) = true
  · rw [applyVar_of_load hload]
    exact .load slot
  · rw [Sim.applyVar, if_neg hload, hstore]
    exact .unsupported _

/-- Only stores and frames do more than operate on the stack. -/
theorem step (b : Body) (position : Nat) {i : Instruction} (hstore : i.isStore = false)
    (hframe : ∀ declared, i ≠ .frame declared) : StackProgram (step b position i) := by
  cases i with
  | frame declared => exact absurd rfl (hframe declared)
  | var opcode slot => exact applyVar hstore slot.toNat
  | insn opcode =>
    simp only [Sim.step]
    cases Effect.ofOpcode? opcode with
    | none => exact .unsupported _
    | some effect => exact applyEffect position effect
  | int opcode operand => exact applyInt position opcode operand
  | type opcode operand => exact applyType position opcode operand
  | field opcode owner name descriptor => exact applyField position opcode descriptor
  | method opcode owner name descriptor isInterface => exact applyMethod position opcode descriptor
  | invokeDynamic name descriptor bootstrap arguments => exact invoke descriptor false _
  | jump opcode label => exact applyJump opcode
  | label _ | line _ _ | iinc _ _ => exact .pure ()
  | ldc constant => exact pushFresh _ _ _ _
  | tableSwitch _ _ _ _ | lookupSwitch _ _ _ => exact StackProgram.pop.discard
  | multiNewArray descriptor dimensions =>
    exact (StackProgram.popN dimensions.toNat).bind fun _ => pushFresh _ _ _ _

end StackProgram

end Simulation.Sim

end Classmith
