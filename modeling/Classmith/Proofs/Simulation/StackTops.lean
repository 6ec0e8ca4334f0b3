import Classmith.Proofs.Simulation.Locals

/-!
# The top of the stack

An instruction that is no frame works on entries at the top of the stack. Where it succeeds with these alone it does
the same whatever lies below them, and so does any sequence of such instructions.
-/
namespace Classmith

namespace Simulation

/-- The state with further entries below those on its stack. -/
def State.onto (base : List Value) (s : State) : State := { s with stack := s.stack ++ base }

def Visit.onto (base : List Value) (v : Visit) : Visit :=
  { v with before := v.before.onto base, after := v.after.map (State.onto base) }

namespace Sim

/-- Where the computation succeeds it does the same with any entries below, which stay as they are. -/
def OnTop {α : Type} (x : Sim α) : Prop :=
  ∀ s a t, x s = .ok (a, t) → ∀ base, x (s.onto base) = .ok (a, t.onto base)

section

variable {α β : Type}

theorem onTop_bind {x : Sim α} {k : α → Sim β} (hx : OnTop x) (hk : ∀ a, OnTop (k a)) : OnTop (x >>= k) := by
  intro s c u h base
  obtain ⟨a, t, ht, hu⟩ := exists_of_bind h
  rw [bind_of_ok (hx s a t ht base)]
  exact hk a t c u hu base

theorem onTop_pure (a : α) : OnTop (pure a) := by
  intro s b t h base
  cases h
  rfl

/-- A computation that looks at the state and goes on without regard to what lies below. -/
theorem onTop_get {k : State → Sim α}
    (h : ∀ s a t, k s s = .ok (a, t) → ∀ base, k (s.onto base) (s.onto base) = .ok (a, t.onto base)) :
    OnTop (get >>= k) := by
  intro s a t ht base
  have hget : ∀ u : State, (get : Sim State) u = .ok (u, u) := fun _ => rfl
  rw [bind_of_ok (hget s)] at ht
  rw [bind_of_ok (hget _)]
  exact h s a t ht base

theorem onTop_when (p : Prop) [Decidable p] {x : Sim Unit} (hx : OnTop x) :
    OnTop (if p then x else pure ()) := by
  split
  · exact hx
  · exact onTop_pure ()

end

theorem onTop_pop : OnTop pop := by
  apply onTop_get
  intro s v t h base
  cases hstack : s.stack with
  | nil =>
    rw [hstack] at h
    cases h
  | cons w rest =>
    rw [hstack] at h
    cases h
    have hbelow : (s.onto base).stack = v :: (rest ++ base) := congrArg (· ++ base) hstack
    rw [hbelow]
    rfl

theorem onTop_popN (count : Nat) : OnTop (popN count) := by
  apply onTop_get
  intro s l t h base
  split at h
  · rename_i hcount
    cases h
    have hbelow : (s.onto base).stack = s.stack ++ base := rfl
    have hcount' : count ≤ (s.onto base).stack.length := by
      rw [hbelow, List.length_append]
      omega
    rw [if_pos hcount', hbelow, List.take_append_of_le_length hcount, List.drop_append_of_le_length hcount]
    rfl
  · cases h

/-- The blocks that a shuffle can cut out of a stack are the same with more entries below. -/
theorem onTop_shuffle (position : Nat) (op : Shuffle) : OnTop (applyEffect position op.effect) := by
  intro s a t h base
  rcases divides_or_malformed position op s with ⟨upper, lower, rest, hdivides⟩ | ⟨cause, hcause⟩
  · have hbelow : op.Divides (s.onto base).stack upper lower (rest ++ base) := by
      refine ⟨?_, hdivides.upper, hdivides.lower⟩
      rw [State.onto, hdivides.stack, List.append_assoc]
    rw [applyEffect_of_divides position hdivides] at h
    rw [applyEffect_of_divides position hbelow]
    cases h
    simp only [State.onto, List.append_assoc]
  · rw [hcause] at h
    cases h

theorem onTop_load (slot : Nat) : OnTop (load slot) := by
  apply onTop_get
  intro s a t h base
  have hlocals : (s.onto base).locals = s.locals := rfl
  rw [hlocals]
  cases hlocal : s.locals[slot]? with
  | none =>
    rw [hlocal] at h
    cases h
  | some v =>
    rw [hlocal] at h
    cases h
    rfl

theorem StackProgram.onTop {α : Type} {x : Sim α} (h : StackProgram x) : OnTop x := by
  induction h with
  | pure a => exact onTop_pure a
  | bind _ _ hx hk => exact onTop_bind hx hk
  | pop => exact onTop_pop
  | popN count => exact onTop_popN count
  | shuffle position op => exact onTop_shuffle position op
  | load slot => exact onTop_load slot
  | malformed cause | unsupported cause =>
    intro s a t h
    cases h
  | fresh descriptor isValid isNull origin | push v =>
    intro s b t h base
    cases h
    rfl

/-! ## Stores -/

theorem onTop_modify {f : State → State} (h : ∀ s base, f (s.onto base) = (f s).onto base) :
    OnTop (modify f : Sim Unit) := by
  intro s a t ht base
  cases ht
  exact congrArg (fun u => Except.ok ((), u)) (h s base)

theorem onTop_setLocal (slot : Nat) (v : Value) : OnTop (setLocal slot v) := onTop_modify fun _ _ => rfl

theorem onTop_setInvalid (slot : Nat) : OnTop (invalid >>= setLocal slot) :=
  onTop_bind (StackProgram.fresh none false false .invalid).onTop (onTop_setLocal slot)

theorem onTop_ensureLocals (count : Nat) : OnTop (ensureLocals count) := by
  apply onTop_get
  intro s a t h base
  exact onTop_modify (fun _ _ => rfl) s a t h base

theorem onTop_storeLocal (slot : Nat) (v : Value) : OnTop (storeLocal slot v) := by
  rw [storeLocal_eq]
  apply onTop_bind (onTop_ensureLocals _)
  intro _
  apply onTop_get
  intro s a t h base
  -- what is looked at is a local slot
  refine onTop_bind (onTop_when _ (onTop_setInvalid (slot - 1))) (fun _ => ?_) s a t h base
  apply onTop_bind (onTop_setLocal slot v)
  intro _
  exact onTop_when _ (onTop_setInvalid (slot + 1))

/-! ## Instructions -/

theorem onTop_step (b : Body) (position : Nat) {i : Instruction} (hframe : ∀ declared, i ≠ .frame declared) :
    OnTop (step b position i) := by
  cases hstore : i.isStore with
  | false => exact (StackProgram.step b position hstore hframe).onTop
  | true =>
    cases i with
    | var opcode slot =>
      rw [step, applyVar_of_store hstore]
      exact onTop_bind onTop_pop fun v => onTop_storeLocal slot.toNat v
    | _ => cases hstore

/-- A run without frames that meets no fault goes the same way above any entries. -/
theorem run_onto {b : Body} {l : List Instruction} (hframes : ∀ i ∈ l, ∀ declared, i ≠ .frame declared)
    {position : Nat} {s : State} {visits : List Visit} (h : run b position l s = (visits, none))
    (base : List Value) : run b position l (s.onto base) = (visits.map (Visit.onto base), none) := by
  induction l generalizing position s visits with
  | nil =>
    cases h
    rfl
  | cons i rest ih =>
    obtain ⟨hhead, hrest⟩ := List.forall_mem_cons.mp hframes
    cases hstep : step b position i s with
    | error fault => simp [run, hstep] at h
    | ok result =>
      obtain ⟨⟨⟩, next⟩ := result
      cases htail : run b (position + 1) rest next with
      | mk later fault =>
        simp only [run, hstep, htail, Prod.mk.injEq] at h
        obtain ⟨rfl, rfl⟩ := h
        simp only [run, onTop_step b position hhead s () next hstep base, ih hrest htail]
        rfl

end Sim

open Sim

/-- Instructions act on the top of the stack. If an instruction that is no frame succeeds with a part of the
stack that lies on top it succeeds with the whole stack, it leaves the rest of the stack below what it left of the
part, and all else comes out the same; the same goes for runs of such instructions. Only stores and frames change
the locals. -/
theorem instructions_act_on_top (b : Body) :
    (∀ (position : Nat) (i : Instruction) (s t : State) (base top : List Value),
      (∀ declared, i ≠ .frame declared) → s.stackValues = base ++ top →
      step b position i { s with stack := top.reverse } = .ok ((), t) →
      ∃ u, step b position i s = .ok ((), u) ∧ u.stackValues = base ++ t.stackValues ∧
        u.locals = t.locals ∧ u.widths = t.widths ∧ u.created = t.created) ∧
    (∀ (position : Nat) (l : List Instruction) (s : State) (base : List Value) (visits : List Visit),
      (∀ i ∈ l, ∀ declared, i ≠ .frame declared) → run b position l s = (visits, none) →
      run b position l (s.onto base) = (visits.map (Visit.onto base), none)) ∧
    ∀ (position : Nat) (i : Instruction) (s t : State), step b position i s = .ok ((), t) →
      t.locals ≠ s.locals → i.isStore = true ∨ ∃ declared, i = .frame declared := by
  refine ⟨?_, fun position l s base visits hframes h => run_onto hframes h base, ?_⟩
  · intro position i s t base top hframe hstack h
    have hwhole : State.onto base.reverse { s with stack := top.reverse } = s := by
      rw [State.onto, ← List.reverse_append, ← hstack, State.stackValues, List.reverse_reverse]
    have hstep := onTop_step b position hframe _ () t h base.reverse
    rw [hwhole] at hstep
    refine ⟨_, hstep, ?_, rfl, rfl, rfl⟩
    simp [State.stackValues, State.onto]
  · intro position i s t h hlocals
    by_cases hframe : ∃ declared, i = .frame declared
    · exact .inr hframe
    cases hstore : i.isStore with
    | true => exact .inl rfl
    | false =>
      have hprogram := StackProgram.step b position hstore (not_exists.mp hframe)
      exact absurd (hprogram.onStack s () t h).1 hlocals

end Simulation

namespace Samples

open Simulation (State Value)

/-- The value of a parameter, by its slot. -/
def argument (slot : Nat) (descriptor : String) : Value :=
  .mk slot (some descriptor) true false (.parameter slot slot)

def deep : List Value := [argument 1 "D", argument 2 "I"]

def shallow : List Value := [argument 3 "J", argument 4 "I", argument 5 "I"]

/-- The two ints also below the long. -/
def shuffled : List Value := [argument 4 "I", argument 5 "I"] ++ shallow

def mixed : State := ⟨(deep ++ shallow).reverse, deep, [1, 2], 5⟩

end Samples

namespace Simulation

/-- Two ints are copied below a long, as they would be without the int and the double that lie deeper. -/
theorem instructions_act_on_top_mixed :
    Samples.mixed.stackValues = Samples.deep ++ Samples.shallow ∧
    ∃ u, Sim.step ⟨"p/Tree", []⟩ 0 (.insn 0x5e) Samples.mixed = .ok ((), u) ∧
      u.stackValues = Samples.deep ++ Samples.shuffled ∧
      u.locals = Samples.deep ∧ u.widths = [1, 2] ∧ u.created = 5 := by
  refine ⟨rfl, ?_⟩
  exact (instructions_act_on_top ⟨"p/Tree", []⟩).1 0 (.insn 0x5e) Samples.mixed
    { Samples.mixed with stack := Samples.shuffled.reverse } Samples.deep Samples.shallow
    (fun _ => by simp) rfl rfl

end Simulation

end Classmith
