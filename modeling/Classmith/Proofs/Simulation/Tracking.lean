import Classmith.Proofs.Simulation.Renaming

/-!
# Simulations that track each other

A computation tracks another up to a renaming if, from the renamed state, it ends in the renamed result
and state, or in the renamed fault. As long as field types are plain every operation on states tracks
itself, and what is put together from such operations does too.
-/
namespace Classmith.Simulation

open Descriptor (IsPlainType)

def Value.IsPlain (v : Value) : Prop := ∀ d ∈ v.descriptor, IsPlainType d

/-- Every value on the stack and in the locals has a plain field type or none. -/
structure State.IsPlain (s : State) : Prop where
  stack : ∀ v ∈ s.stack, v.IsPlain
  locals : ∀ v ∈ s.locals, v.IsPlain

/-- The second computation does on renamed states what the first one does, up to the given map of
results, and the first one keeps states plain and gives a good result. -/
def Tracks (r : Renaming) {α β : Type} (good : α → Prop) (f : α → β) (x : Sim α) (y : Sim β) : Prop :=
  ∀ s : State, s.IsPlain →
    (∀ fault, x s = .error fault → y (s.rename r) = .error (fault.rename r)) ∧
    ∀ a t, x s = .ok (a, t) → y (s.rename r) = .ok (f a, t.rename r) ∧ t.IsPlain ∧ good a

/-- Tracking for computations without a result. -/
abbrev TracksUnit (r : Renaming) (x y : Sim Unit) : Prop := Tracks r (fun _ => True) id x y

/-- Tracking for computations that give a value. -/
abbrev TracksValue (r : Renaming) (x y : Sim Value) : Prop :=
  Tracks r Value.IsPlain (Value.rename r) x y

section

variable {r : Renaming} {α β γ δ : Type}

theorem Sim.bind_of_error {x : Sim α} {s : State} {fault : Fault} (h : x s = .error fault)
    (k : α → Sim β) : (x >>= k) s = .error fault := by
  simp only [bind, StateT.bind, h, Except.bind]

theorem Sim.bind_of_ok {x : Sim α} {s t : State} {a : α} (h : x s = .ok (a, t))
    (k : α → Sim β) : (x >>= k) s = k a t := by
  simp only [bind, StateT.bind, h, Except.bind]

theorem tracks_bind {good : α → Prop} {f : α → β} {x : Sim α} {y : Sim β} {good' : γ → Prop}
    {g : γ → δ} {k : α → Sim γ} {l : β → Sim δ} (hx : Tracks r good f x y)
    (hk : ∀ a, good a → Tracks r good' g (k a) (l (f a))) :
    Tracks r good' g (x >>= k) (y >>= l) := by
  intro s hs
  obtain ⟨herror, hok⟩ := hx s hs
  cases hxs : x s with
  | error fault =>
    rw [Sim.bind_of_error hxs, Sim.bind_of_error (herror fault hxs)]
    refine ⟨fun other hother => ?_, fun a t hother => by cases hother⟩
    cases hother
    rfl
  | ok result =>
    obtain ⟨a, t⟩ := result
    obtain ⟨hy, ht, ha⟩ := hok a t hxs
    rw [Sim.bind_of_ok hxs, Sim.bind_of_ok hy]
    exact hk a ha t ht

/-- A computation that neither fails nor looks at more than the state. -/
theorem tracks_of_ok {good : α → Prop} {f : α → β} {x : Sim α} {y : Sim β}
    (h : ∀ s : State, s.IsPlain →
      ∃ a t, x s = .ok (a, t) ∧ y (s.rename r) = .ok (f a, t.rename r) ∧ t.IsPlain ∧ good a) :
    Tracks r good f x y := by
  intro s hs
  obtain ⟨a, t, hx, hy⟩ := h s hs
  refine ⟨fun fault hfault => ?_, fun b u hb => ?_⟩
  · rw [hx] at hfault
    cases hfault
  · rw [hx] at hb
    cases hb
    exact hy

theorem tracks_pure {good : α → Prop} {f : α → β} {a : α} (ha : good a) :
    Tracks r good f (pure a) (pure (f a)) :=
  tracks_of_ok fun s hs => ⟨a, s, rfl, rfl, hs, ha⟩

theorem tracks_skip : TracksUnit r (pure ()) (pure ()) := tracks_pure trivial

theorem tracks_when {p : Prop} [Decidable p] {x y : Sim Unit} (h : TracksUnit r x y) :
    TracksUnit r (if p then x else pure ()) (if p then y else pure ()) := by
  split
  · exact h
  · exact tracks_skip

theorem tracks_get : Tracks r State.IsPlain (State.rename r) get get :=
  tracks_of_ok fun s hs => ⟨s, s, rfl, rfl, hs, hs⟩

theorem tracks_set {t : State} (ht : t.IsPlain) : TracksUnit r (set t) (set (t.rename r)) :=
  tracks_of_ok fun _ _ => ⟨(), t, rfl, rfl, ht, trivial⟩

theorem tracks_modify {f g : State → State} (hplain : ∀ s, s.IsPlain → (f s).IsPlain)
    (hrename : ∀ s : State, g (s.rename r) = (f s).rename r) :
    TracksUnit r (modify f) (modify g) :=
  tracks_of_ok fun s hs =>
    ⟨(), f s, rfl, congrArg (fun t => Except.ok ((), t)) (hrename s), hplain s hs, trivial⟩

theorem tracks_malformed {good : α → Prop} {f : α → β} (cause : Malformation) :
    Tracks r good f (Sim.malformed cause) (Sim.malformed (cause.rename r)) := by
  intro s hs
  refine ⟨fun fault h => ?_, fun a t h => by cases h⟩
  cases h
  rfl

theorem tracks_unsupported {good : α → Prop} {f : α → β} (cause : Unmodelled) :
    Tracks r good f (Sim.unsupported cause) (Sim.unsupported cause) := by
  intro s hs
  refine ⟨fun fault h => ?_, fun a t h => by cases h⟩
  cases h
  rfl

end

/-! ## Operations on states -/

namespace Sim

variable {r : Renaming}

theorem tracks_fresh {descriptor : Option String} (h : ∀ d ∈ descriptor, IsPlainType d)
    (isValid isNull : Bool) (origin : Origin) :
    TracksValue r (fresh descriptor isValid isNull origin)
      (fresh (descriptor.map r.signature) isValid isNull (origin.rename r)) :=
  tracks_of_ok fun s hs =>
    ⟨.mk (s.created + 1) descriptor isValid isNull origin, { s with created := s.created + 1 }, rfl,
      rfl, ⟨hs.stack, hs.locals⟩, h⟩

theorem tracks_value {descriptor : String} (h : IsPlainType descriptor) (origin : Origin) :
    TracksValue r (value descriptor origin) (value (r.signature descriptor) (origin.rename r)) :=
  tracks_fresh (by simpa using h) true false origin

theorem tracks_invalid : TracksValue r invalid invalid := tracks_fresh (by simp) false false .invalid

theorem tracks_push {v : Value} (h : v.IsPlain) : TracksUnit r (push v) (push (v.rename r)) := by
  apply tracks_modify
  · intro s hs
    refine ⟨fun u hu => ?_, hs.locals⟩
    rcases List.mem_cons.mp hu with rfl | hu
    · exact h
    · exact hs.stack u hu
  · intro s
    rfl

theorem tracks_pop : TracksValue r pop pop := by
  apply tracks_bind tracks_get
  intro s hs
  cases hstack : s.stack with
  | nil =>
    simp only [State.rename, hstack, List.map_nil]
    exact tracks_malformed .underflow
  | cons v rest =>
    have hall := hs.stack
    rw [hstack] at hall
    simp only [State.rename, hstack, List.map_cons]
    apply tracks_bind (tracks_set (t := { s with stack := rest }) ?_)
    · intro _ _
      exact tracks_pure (hall v (by simp))
    · exact ⟨fun u hu => hall u (List.mem_cons_of_mem v hu), hs.locals⟩

theorem popN_of_le {count : Nat} {s : State} (h : count ≤ s.stack.length) :
    popN count s = .ok ((s.stack.take count).reverse, { s with stack := s.stack.drop count }) := by
  have hget : (get : Sim State) s = .ok (s, s) := rfl
  rw [popN, bind_of_ok hget, if_pos h]
  rfl

theorem popN_of_lt {count : Nat} {s : State} (h : s.stack.length < count) :
    popN count s = .error (.malformed .underflow) := by
  have hget : (get : Sim State) s = .ok (s, s) := rfl
  rw [popN, bind_of_ok hget, if_neg (Nat.not_le_of_lt h)]
  rfl

theorem tracks_popN (count : Nat) : Tracks r (fun l => ∀ v ∈ l, v.IsPlain)
    (List.map (Value.rename r)) (popN count) (popN count) := by
  apply tracks_bind tracks_get
  intro s hs
  rw [State.length_stack_rename]
  split
  · have hstack : (s.rename r).stack = s.stack.map (Value.rename r) := rfl
    simp only [hstack, ← List.map_drop, ← List.map_take, ← List.map_reverse]
    apply tracks_bind (tracks_set (t := { s with stack := s.stack.drop count }) ?_)
    · intro _ _
      apply tracks_pure
      intro v hv
      exact hs.stack v (List.mem_of_mem_take (List.mem_reverse.mp hv))
    · exact ⟨fun v hv => hs.stack v (List.mem_of_mem_drop hv), hs.locals⟩
  · exact tracks_malformed .underflow

theorem tracks_popOneWord : TracksValue r popOneWord popOneWord := by
  apply tracks_bind tracks_pop
  intro v hv
  rw [Value.category_rename]
  split
  · exact tracks_pure hv
  · rw [Value.text_rename]
    exact tracks_malformed (.notOneWord v.text)

theorem tracks_clearStack : TracksUnit r clearStack clearStack := by
  apply tracks_modify
  · intro s hs
    exact ⟨by simp, hs.locals⟩
  · intro s
    rfl

theorem tracks_widths (f : List Nat → List Nat) :
    TracksUnit r (modify fun s => { s with widths := f s.widths })
      (modify fun s => { s with widths := f s.widths }) :=
  tracks_modify (fun _ hs => ⟨hs.stack, hs.locals⟩) fun _ => rfl

theorem tracks_setLocal (slot : Nat) {v : Value} (h : v.IsPlain) :
    TracksUnit r (setLocal slot v) (setLocal slot (v.rename r)) := by
  apply tracks_modify
  · intro s hs
    refine ⟨hs.stack, fun u hu => ?_⟩
    rcases List.mem_or_eq_of_mem_set hu with hu | rfl
    · exact hs.locals u hu
    · exact h
  · intro s
    simp [State.rename, List.map_set]

theorem tracks_setInvalid (slot : Nat) :
    TracksUnit r (invalid >>= setLocal slot) (invalid >>= setLocal slot) :=
  tracks_bind tracks_invalid fun _ hv => tracks_setLocal slot hv

theorem tracks_pushLocal {v : Value} (h : v.IsPlain) :
    TracksUnit r (pushLocal v) (pushLocal (v.rename r)) := by
  apply tracks_modify
  · intro s hs
    refine ⟨hs.stack, fun u hu => ?_⟩
    rcases List.mem_append.mp hu with hu | hu
    · exact hs.locals u hu
    · obtain rfl := List.mem_singleton.mp hu
      exact h
  · intro s
    simp [State.rename]

theorem isPlain_of_descriptor_none {v : Value} (h : v.descriptor = none) : v.IsPlain := by
  intro d hd
  rw [h] at hd
  cases hd

theorem tracks_fill (count : Nat) : TracksUnit r (fill count) (fill count) := by
  apply tracks_modify
  · intro s hs
    refine ⟨hs.stack, fun u hu => ?_⟩
    rcases List.mem_append.mp hu with hu | hu
    · exact hs.locals u hu
    · obtain ⟨i, -, rfl⟩ := List.mem_map.mp hu
      exact isPlain_of_descriptor_none rfl
  · intro s
    simp [State.rename, Value.rename, Value.map, Origin.map]

theorem tracks_ensureLocals (count : Nat) : TracksUnit r (ensureLocals count) (ensureLocals count) := by
  apply tracks_bind tracks_get
  intro s _
  rw [State.length_locals_rename]
  exact tracks_fill _

theorem tracks_invalidate (slot count : Nat) :
    TracksUnit r (invalidate slot count) (invalidate slot count) := by
  apply tracks_modify
  · intro s hs
    refine ⟨hs.stack, fun u hu => ?_⟩
    obtain ⟨i, hi, rfl⟩ := List.mem_mapIdx.mp hu
    split
    · exact isPlain_of_descriptor_none rfl
    · exact hs.locals _ (List.getElem_mem hi)
  · intro s
    simp only [State.rename, State.mk.injEq, true_and, and_true]
    apply List.ext_getElem?
    intro i
    simp only [List.getElem?_mapIdx, List.getElem?_map]
    cases s.locals[i]? with
    | none => rfl
    | some v =>
      simp only [Option.map_some, Option.some.injEq]
      split <;> rfl

/-- Storing a value, with each of its conditional parts as a computation of its own. -/
theorem storeLocal_eq (slot : Nat) (v : Value) : storeLocal slot v =
    (ensureLocals (slot + if v.category = some .two then 2 else 1) >>= fun _ =>
      get >>= fun s =>
      (if 0 < slot ∧ (s.locals[slot - 1]?).bind Value.category = some .two then
        invalid >>= setLocal (slot - 1) else pure ()) >>= fun _ =>
      setLocal slot v >>= fun _ =>
      if v.category = some .two then invalid >>= setLocal (slot + 1) else pure ()) := by
  unfold storeLocal
  refine bind_congr fun _ => bind_congr fun s => ?_
  simp only
  split <;> simp

theorem tracks_storeLocal (slot : Nat) {v : Value} (h : v.IsPlain) :
    TracksUnit r (storeLocal slot v) (storeLocal slot (v.rename r)) := by
  rw [storeLocal_eq, storeLocal_eq, Value.category_rename]
  apply tracks_bind (tracks_ensureLocals _)
  intro _ _
  apply tracks_bind tracks_get
  intro s _
  have hbelow : ((s.rename r).locals[slot - 1]?).bind Value.category =
      (s.locals[slot - 1]?).bind Value.category := by
    simp only [State.rename, List.getElem?_map]
    cases s.locals[slot - 1]? with
    | none => rfl
    | some w => exact Value.category_rename r w
  rw [hbelow]
  apply tracks_bind (tracks_when (tracks_setInvalid (slot - 1)))
  intro _ _
  apply tracks_bind (tracks_setLocal slot h)
  intro _ _
  exact tracks_when (tracks_setInvalid (slot + 1))

end Sim

end Classmith.Simulation
