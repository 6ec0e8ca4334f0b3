import Classmith.Proofs.Simulation.Expansion

/-!
# States along a walk

The state after the first instructions of a method, instruction by instruction. A property of the states
of a walk that only certain steps break holds up to some instruction exactly if none of these steps is
taken before it.
-/
namespace Classmith.Simulation

/-- The state after so many of the instructions. -/
def reach? (b : Body) (position : Nat) (l : List Instruction) (s : State) : (count : Nat) → Option State
  | 0 => some s
  | count + 1 => (reach? b position l s count).bind fun t => (l[count]?).bind fun i =>
      (Sim.step b (position + count) i t).toOption.map Prod.snd

theorem reach?_cons (b : Body) (position : Nat) (head : Instruction) (rest : List Instruction)
    (s : State) (count : Nat) : reach? b position (head :: rest) s (count + 1) =
      ((Sim.step b position head s).toOption.map Prod.snd).bind fun t =>
        reach? b (position + 1) rest t count := by
  induction count with
  | zero => simp [reach?]
  | succ count ih =>
    have hposition : position + (count + 1) = position + 1 + count := by omega
    rw [reach?, ih, Option.bind_assoc]
    simp only [reach?, List.getElem?_cons_succ, hposition]

theorem after_run (b : Body) (position : Nat) (l : List Instruction) (s : State) (count : Nat) :
    ((run b position l s).1[count]?).bind Visit.after = reach? b position l s (count + 1) := by
  induction l generalizing position s count with
  | nil =>
    rw [reach?]
    simp [run]
  | cons head rest ih =>
    rw [reach?_cons]
    cases hstep : Sim.step b position head s with
    | error fault => cases count <;> simp [run, hstep, Except.toOption]
    | ok result =>
      obtain ⟨⟨⟩, next⟩ := result
      cases count with
      | zero => simp [run, hstep, Except.toOption, reach?]
      | succ count =>
        simp only [run, hstep, List.getElem?_cons_succ, Except.toOption, Option.map_some,
          Option.bind_some]
        exact ih (position + 1) next count

theorem before_run {b : Body} {position : Nat} {l : List Instruction} {s : State} {count : Nat}
    {v : Visit} (h : (run b position l s).1[count]? = some v) :
    reach? b position l s count = some v.before := by
  induction l generalizing position s count with
  | nil => simp [run] at h
  | cons head rest ih =>
    cases hstep : Sim.step b position head s with
    | error fault =>
      cases count with
      | zero =>
        simp only [run, hstep, List.getElem?_cons_zero, Option.some.injEq] at h
        subst h
        rfl
      | succ count => simp [run, hstep] at h
    | ok result =>
      obtain ⟨⟨⟩, next⟩ := result
      cases count with
      | zero =>
        simp only [run, hstep, List.getElem?_cons_zero, Option.some.injEq] at h
        subst h
        rfl
      | succ count =>
        simp only [run, hstep, List.getElem?_cons_succ] at h
        rw [reach?_cons, hstep]
        exact ih h

/-- The state in which the walk of a method starts. -/
def start? (c : Class) (m : Method) : Option State :=
  if c.version ≤ lastWithoutFrames then none
  else (Sim.enter c.name m State.start).toOption.map Prod.snd

/-- The state after the first instructions of a method, if its walk gets there. -/
def stateAfter? (c : Class) (m : Method) (count : Nat) : Option State :=
  (start? c m).bind fun s => reach? ⟨c.name, m.instructions⟩ 0 m.instructions s count

theorem visits_eq_of_start? {c : Class} {m : Method} {start : State} (h : start? c m = some start) :
    (walk c m).visits = (run ⟨c.name, m.instructions⟩ 0 m.instructions start).1 := by
  unfold start? at h
  split at h
  · cases h
  · rename_i hversion
    obtain ⟨⟨⟨⟩, s⟩, hs, rfl⟩ := Option.map_eq_some_iff.mp h
    refine visits_eq (UInt16.not_le.mp hversion) ?_
    cases henter : Sim.enter c.name m State.start with
    | error fault => simp [henter, Except.toOption] at hs
    | ok result =>
      rw [henter] at hs
      exact congrArg _ (Option.some.inj hs)

theorem visits_of_start?_eq_none {c : Class} {m : Method} (h : start? c m = none) :
    (walk c m).visits = [] := by
  unfold start? at h
  unfold walk
  split at h
  · rename_i hversion
    rw [if_pos hversion]
  · rename_i hversion
    rw [if_neg hversion]
    cases henter : Sim.enter c.name m State.start with
    | error fault => rfl
    | ok result => simp [henter, Except.toOption] at h

/-- The states after the instructions that a walk visits. -/
theorem after?_walk (c : Class) (m : Method) (position : Nat) :
    (walk c m).after? position = stateAfter? c m (position + 1) := by
  unfold Walk.after? stateAfter?
  cases hstart : start? c m with
  | none => simp [visits_of_start?_eq_none hstart]
  | some start =>
    rw [visits_eq_of_start? hstart, Option.bind_some]
    exact after_run _ 0 m.instructions start position

/-- The states before the instructions that a walk visits. -/
theorem before_walk {c : Class} {m : Method} {position : Nat} {v : Visit}
    (h : (walk c m).visits[position]? = some v) : stateAfter? c m position = some v.before := by
  unfold stateAfter?
  cases hstart : start? c m with
  | none => simp [visits_of_start?_eq_none hstart] at h
  | some start =>
    rw [visits_eq_of_start? hstart] at h
    exact before_run h

theorem stateAfter?_zero (c : Class) (m : Method) : stateAfter? c m 0 = start? c m := by
  unfold stateAfter?
  cases start? c m <;> rfl

theorem stateAfter?_succ (c : Class) (m : Method) (count : Nat) : stateAfter? c m (count + 1) =
    (stateAfter? c m count).bind fun s => (m.instructions[count]?).bind fun i =>
      (Sim.step ⟨c.name, m.instructions⟩ count i s).toOption.map Prod.snd := by
  unfold stateAfter?
  rw [Option.bind_assoc]
  simp only [reach?, Nat.zero_add]

/-- The last step to a state that a walk reaches. -/
theorem step_of_stateAfter? {c : Class} {m : Method} {count : Nat} {t : State}
    (h : stateAfter? c m (count + 1) = some t) :
    ∃ s i, stateAfter? c m count = some s ∧ m.instructions[count]? = some i ∧
      Sim.step ⟨c.name, m.instructions⟩ count i s = .ok ((), t) := by
  rw [stateAfter?_succ] at h
  obtain ⟨s, hs, h⟩ := Option.bind_eq_some_iff.mp h
  obtain ⟨i, hi, h⟩ := Option.bind_eq_some_iff.mp h
  obtain ⟨⟨⟨⟩, u⟩, hu, rfl⟩ := Option.map_eq_some_iff.mp h
  refine ⟨s, i, hs, hi, ?_⟩
  cases hstep : Sim.step ⟨c.name, m.instructions⟩ count i s with
  | error fault => simp [hstep, Except.toOption] at hu
  | ok result =>
    rw [hstep] at hu
    exact congrArg _ (Option.some.inj hu)

theorem enter_of_start? {c : Class} {m : Method} {s : State} (h : start? c m = some s) :
    Sim.enter c.name m State.start = .ok ((), s) := by
  unfold start? at h
  split at h
  · cases h
  · obtain ⟨⟨⟨⟩, u⟩, hu, rfl⟩ := Option.map_eq_some_iff.mp h
    cases henter : Sim.enter c.name m State.start with
    | error fault => simp [henter, Except.toOption] at hu
    | ok result =>
      rw [henter] at hu
      exact congrArg _ (Option.some.inj hu)

/-- What holds at the start and is kept by every step holds in every state that a walk reaches. -/
theorem stateAfter?_induction {c : Class} {m : Method} {good : State → Prop}
    (hstart : ∀ s, Sim.enter c.name m State.start = .ok ((), s) → good s)
    (hstep : ∀ position i s t, m.instructions[position]? = some i → good s →
      Sim.step ⟨c.name, m.instructions⟩ position i s = .ok ((), t) → good t)
    {count : Nat} {s : State} (h : stateAfter? c m count = some s) : good s := by
  induction count generalizing s with
  | zero =>
    rw [stateAfter?_zero] at h
    exact hstart s (enter_of_start? h)
  | succ count ih =>
    obtain ⟨before, i, hbefore, hi, hlast⟩ := step_of_stateAfter? h
    exact hstep count i before s hi (ih hbefore) hlast

/-- Along a sequence of states a property that holds at the start holds up to a point exactly if no step
before it is one of those that break the property. -/
theorem forall_le_iff_no_break {σ : Type} {states : Nat → Option σ} {good : σ → Prop}
    {breaks : Nat → σ → Prop} (hstart : ∀ s, states 0 = some s → good s)
    (hback : ∀ n t, states (n + 1) = some t → ∃ s, states n = some s)
    (hstep : ∀ n s t, states n = some s → states (n + 1) = some t → good s →
      (good t ↔ ¬breaks n s)) (n : Nat) :
    (∀ k, k ≤ n → ∀ s, states k = some s → good s) ↔
      ∀ k, k < n → ∀ s t, states k = some s → states (k + 1) = some t → ¬breaks k s := by
  constructor
  · intro h k hk s t hs ht
    exact (hstep k s t hs ht (h k (Nat.le_of_lt hk) s hs)).mp (h (k + 1) hk t ht)
  · intro h k hk
    induction k with
    | zero => exact hstart
    | succ k ih =>
      intro t ht
      obtain ⟨s, hs⟩ := hback k t ht
      exact (hstep k s t hs ht (ih (Nat.le_of_lt hk) s hs)).mpr (h k hk s t hs ht)

end Classmith.Simulation
