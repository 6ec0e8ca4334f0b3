import Classmith.Proofs.Simulation.Reach
import Classmith.Proofs.Simulation.StackPrograms

/-!
# Steps and the local slots

Only stores and frames change the locals. What a store does to each slot, and that the slots of the
locals a frame has declared are always there.
-/
namespace Classmith

theorem Descriptor.category_ofName (name : String) : Descriptor.category (Descriptor.ofName name) = .one := by
  unfold Descriptor.category Descriptor.ofName Descriptor.isArray
  cases hname : name.toList with
  | nil => simp [hname]
  | cons first rest =>
    by_cases hfirst : first = '['
    · simp [hname, hfirst]
    · simp [hfirst, String.toList_append]

namespace Simulation

namespace Sim

/-! ## Steps that leave the locals alone -/

/-- Whenever the computation succeeds, the locals and the declared widths are as before. -/
def OnStack {α : Type} (x : Sim α) : Prop :=
  ∀ s a t, x s = .ok (a, t) → t.locals = s.locals ∧ t.widths = s.widths

section

variable {α β : Type}

theorem onStack_bind {x : Sim α} {k : α → Sim β} (hx : OnStack x) (hk : ∀ a, OnStack (k a)) :
    OnStack (x >>= k) := by
  intro s c u h
  obtain ⟨a, t, ht, hu⟩ := exists_of_bind h
  obtain ⟨hlocals, hwidths⟩ := hx s a t ht
  obtain ⟨hlocals', hwidths'⟩ := hk a t c u hu
  exact ⟨hlocals'.trans hlocals, hwidths'.trans hwidths⟩

/-- A computation that looks at the state and then writes another stack into it, or fails. -/
theorem onStack_get {k : State → Sim α}
    (h : ∀ s a t, k s s = .ok (a, t) → t.locals = s.locals ∧ t.widths = s.widths) :
    OnStack (get >>= k) := by
  intro s a t ht
  have hget : (get : Sim State) s = .ok (s, s) := rfl
  rw [bind_of_ok hget] at ht
  exact h s a t ht

end

theorem onStack_pop : OnStack pop := by
  apply onStack_get
  intro s v t h
  cases hstack : s.stack with
  | nil =>
    rw [hstack] at h
    cases h
  | cons w rest =>
    rw [hstack] at h
    cases h
    exact ⟨rfl, rfl⟩

theorem onStack_popN (count : Nat) : OnStack (popN count) := by
  apply onStack_get
  intro s l t h
  split at h
  · cases h
    exact ⟨rfl, rfl⟩
  · cases h

theorem onStack_shuffle (position : Nat) (op : Shuffle) : OnStack (applyEffect position op.effect) := by
  intro s a t h
  rcases divides_or_malformed position op s with ⟨upper, lower, rest, hdivides⟩ | ⟨cause, hcause⟩
  · rw [applyEffect_of_divides position hdivides] at h
    cases h
    exact ⟨rfl, rfl⟩
  · rw [hcause] at h
    cases h

theorem onStack_load (slot : Nat) : OnStack (load slot) := by
  apply onStack_get
  intro s a t h
  cases hlocal : s.locals[slot]? with
  | none =>
    rw [hlocal] at h
    cases h
  | some v =>
    rw [hlocal] at h
    cases h
    exact ⟨rfl, rfl⟩

theorem StackProgram.onStack {α : Type} {x : Sim α} (h : StackProgram x) : OnStack x := by
  induction h with
  | bind _ _ hx hk => exact onStack_bind hx hk
  | pop => exact onStack_pop
  | popN count => exact onStack_popN count
  | shuffle position op => exact onStack_shuffle position op
  | load slot => exact onStack_load slot
  | malformed cause | unsupported cause =>
    intro s a t h
    cases h
  | pure a | fresh descriptor isValid isNull origin | push v =>
    intro s b t h
    cases h
    exact ⟨rfl, rfl⟩

/-! ## Stores -/

theorem ensureLocals_spec (count : Nat) (s : State) : ∃ filler : List Value,
    ensureLocals count s =
      .ok ((), { s with locals := s.locals ++ filler, created := s.created + filler.length }) ∧
    filler.length = count - s.locals.length ∧ ∀ v ∈ filler, v.kind = .unusable := by
  refine ⟨(List.range (count - s.locals.length)).map fun i =>
    .mk (s.created + 1 + i) none false false .undefined, ?_, ?_, ?_⟩
  · rw [List.length_map, List.length_range]
    rfl
  · rw [List.length_map, List.length_range]
  · intro v hv
    obtain ⟨i, -, rfl⟩ := List.mem_map.mp hv
    rfl

/-- What storing a value does to the slots. -/
structure Stores (slot : Nat) (v : Value) (s t : State) : Prop where
  stack : t.stack = s.stack
  widths : t.widths = s.widths
  created : s.created ≤ t.created
  length : s.locals.length ≤ t.locals.length
  stored : t.locals[slot]? = some v
  /-- The slot after a two-word value is its placeholder. -/
  second : v.category = some .two → ∃ w, t.locals[slot + 1]? = some w ∧ w.kind = .unusable
  /-- A two-word value before the slot is lost. -/
  below : ∀ i w, i + 1 = slot → t.locals[i]? = some w → w.category ≠ some .two
  other : ∀ i, i ≠ slot →
    t.locals[i]? = s.locals[i]? ∨ ∃ w, t.locals[i]? = some w ∧ w.kind = .unusable
  kept : ∀ i w, i ≠ slot → s.locals[i]? = some w → (v.category = some .two → i ≠ slot + 1) →
    (i + 1 = slot → w.category ≠ some .two) → t.locals[i]? = some w

theorem category_of_unusable {v : Value} (h : v.kind = .unusable) : v.category = none := by
  rw [← v.category_kind, h]
  rfl

theorem setInvalid_when (p : Prop) [Decidable p] (slot : Nat) (s : State) :
    ∃ t w, (if p then invalid >>= setLocal slot else pure () : Sim Unit) s = .ok ((), t) ∧
      w.kind = .unusable ∧ t.stack = s.stack ∧ t.widths = s.widths ∧ s.created ≤ t.created ∧
      t.locals = if p then s.locals.set slot w else s.locals := by
  by_cases hp : p
  · rw [if_pos hp]
    refine ⟨_, .mk (s.created + 1) none false false .invalid, rfl, rfl, rfl, rfl, Nat.le_succ _, ?_⟩
    rw [if_pos hp]
  · rw [if_neg hp]
    refine ⟨s, .mk 0 none false false .invalid, rfl, rfl, rfl, rfl, Nat.le_refl _, ?_⟩
    rw [if_neg hp]

theorem storeLocal_spec (slot : Nat) (v : Value) (s : State) :
    ∃ t, storeLocal slot v s = .ok ((), t) ∧ Stores slot v s t := by
  obtain ⟨filler, hensure, hlength, hfiller⟩ :=
    ensureLocals_spec (slot + if v.category = some .two then 2 else 1) s
  generalize hpadded : s.locals ++ filler = padded at hensure
  obtain ⟨u, lost, hclear, hlost, hstack, hwidths, hcreated, hlocals⟩ :=
    setInvalid_when (0 < slot ∧ (padded[slot - 1]?).bind Value.category = some .two) (slot - 1)
      { s with locals := padded, created := s.created + filler.length }
  obtain ⟨t, placeholder, hsecond, hplaceholder, hstack', hwidths', hcreated', hlocals'⟩ :=
    setInvalid_when (v.category = some .two) (slot + 1) { u with locals := u.locals.set slot v }
  have hstore : storeLocal slot v s = .ok ((), t) := by
    have hget : (get : Sim State) { s with locals := padded, created := s.created + filler.length } =
        .ok (_, _) := rfl
    have hset : setLocal slot v u = .ok ((), { u with locals := u.locals.set slot v }) := rfl
    rw [storeLocal_eq, bind_of_ok hensure, bind_of_ok hget, bind_of_ok hclear, bind_of_ok hset]
    exact hsecond
  simp only at hlocals hlocals' hcreated hcreated' hstack hstack' hwidths hwidths'
  -- the slots before the value is written: padded, and without a two-word value that it would cut
  have hroom : slot + (if v.category = some .two then 2 else 1) ≤ padded.length := by
    rw [← hpadded, List.length_append]
    omega
  have hulength : u.locals.length = padded.length := by
    rw [hlocals]
    split <;> simp
  have hpad : ∀ i : Nat, padded[i]? = s.locals[i]? ∨
      ∃ w : Value, padded[i]? = some w ∧ w.kind = .unusable := by
    intro i
    rw [← hpadded]
    by_cases hi : i < s.locals.length
    · exact .inl (List.getElem?_append_left hi)
    · rw [List.getElem?_append_right (Nat.le_of_not_lt hi)]
      cases hfill : filler[i - s.locals.length]? with
      | none => exact .inl (List.getElem?_eq_none (Nat.le_of_not_lt hi)).symm
      | some w => exact .inr ⟨w, rfl, hfiller w (List.mem_of_getElem? hfill)⟩
  have hcleared : ∀ i : Nat, u.locals[i]? = padded[i]? ∨
      i + 1 = slot ∧ (padded[i]?).bind Value.category = some .two ∧ u.locals[i]? = some lost := by
    intro i
    rw [hlocals]
    grind
  have hwritten : ∀ i : Nat, i ≠ slot → t.locals[i]? = u.locals[i]? ∨
      v.category = some .two ∧ i = slot + 1 ∧ t.locals[i]? = some placeholder := by
    intro i hi
    rw [hlocals']
    grind
  exact ⟨t, hstore, {
    stack := hstack'.trans hstack
    widths := hwidths'.trans hwidths
    created := by omega
    length := by grind
    stored := by grind
    second := by grind
    below := by grind [category_of_unusable]
    other := by grind
    kept := by grind }⟩

/-! ## What a step does to the slots -/

theorem stores_of_isStore {b : Body} {position : Nat} {i : Instruction} {s t : State}
    (hstore : i.isStore = true) (h : step b position i s = .ok ((), t)) :
    ∃ opcode slot v rest, i = .var opcode slot ∧ s.stack = v :: rest ∧
      Stores slot.toNat v { s with stack := rest } t := by
  cases i with
  | var opcode slot =>
    rw [step, applyVar_of_store hstore] at h
    obtain ⟨v, u, hpop, h⟩ := exists_of_bind h
    cases hstack : s.stack with
    | nil =>
      have hempty : pop s = .error (.malformed .underflow) := by
        have hget : (get : Sim State) s = .ok (s, s) := rfl
        rw [pop, bind_of_ok hget, hstack]
        rfl
      rw [hempty] at hpop
      cases hpop
    | cons w rest =>
      rw [pop_cons hstack] at hpop
      cases hpop
      obtain ⟨t', ht', hstores⟩ := storeLocal_spec slot.toNat v { s with stack := rest }
      rw [ht'] at h
      cases h
      exact ⟨opcode, slot, v, rest, rfl, rfl, hstores⟩
  | _ => cases hstore

/-- A step leaves the locals alone, stores the top of the stack, or applies a frame. -/
theorem step_cases {b : Body} {position : Nat} {i : Instruction} {s t : State}
    (h : step b position i s = .ok ((), t)) :
    (t.locals = s.locals ∧ t.widths = s.widths) ∨
    (∃ opcode slot v rest, i = .var opcode slot ∧ s.stack = v :: rest ∧
      Stores slot.toNat v { s with stack := rest } t) ∨
    ∃ declared, i = .frame declared ∧ applyFrame b position declared s = .ok ((), t) := by
  by_cases hframe : ∃ declared, i = .frame declared
  · obtain ⟨declared, rfl⟩ := hframe
    exact .inr (.inr ⟨declared, rfl, h⟩)
  cases hstore : i.isStore with
  | true => exact .inr (.inl (stores_of_isStore hstore h))
  | false => exact .inl ((StackProgram.step b position hstore (not_exists.mp hframe)).onStack s () t h)

/-! ## Room for the declared locals -/

theorem foldl_add_drop_le (l : List Nat) (count : Nat) :
    (l.drop count).foldl (· + ·) 0 ≤ l.foldl (· + ·) 0 := by
  have hsplit : l.foldl (· + ·) 0 =
      (l.take count).foldl (· + ·) 0 + (l.drop count).foldl (· + ·) 0 := by
    rw [← foldl_add_eq, ← List.foldl_append, List.take_append_drop]
  omega

theorem hasRoom_applyFrame {b : Body} {position : Nat} {declared : Frame} {s t : State}
    (hs : s.HasRoom) (h : applyFrame b position declared s = .ok ((), t)) : t.HasRoom := by
  cases declared with
  | same =>
    cases h
    exact hs
  | same1 entry =>
    rw [applyFrame] at h
    obtain ⟨⟨v, width⟩, u, hvalue, h⟩ := exists_of_bind h
    obtain ⟨_, _, hclear, h⟩ := exists_of_bind h
    cases hclear
    cases h
    obtain ⟨-, rfl⟩ := frameValue_spec hvalue
    exact hs
  | append entries =>
    rw [applyFrame] at h
    obtain ⟨_, u, hlocals, h⟩ := exists_of_bind h
    cases h
    obtain ⟨u', hu', hdeclares⟩ := declareLocals_known position (known_of_declareLocals hlocals) hs
    rw [hu'] at hlocals
    cases hlocals
    have hslots := hdeclares.declaredSlots
    have hlength := hdeclares.length_locals hs
    show u.declaredSlots ≤ u.locals.length
    omega
  | chop count =>
    rw [applyFrame] at h
    obtain ⟨_, u, hchop, h⟩ := exists_of_bind h
    cases h
    obtain ⟨hwidths, hlength⟩ := chop_spec hchop
    have hle := foldl_add_drop_le s.widths count.toNat
    have hroom : s.widths.foldl (· + ·) 0 ≤ s.locals.length := hs
    show u.widths.foldl (· + ·) 0 ≤ u.locals.length
    rw [hwidths]
    omega
  | full entries stack =>
    have hsettled := settled_of_applyFrame h
    have hslots : t.declaredSlots = (slotKinds b entries).length :=
      declaredSlots_eq b (by rw [hsettled.widths, List.append_nil])
    have hlength := congrArg List.length hsettled.locals
    rw [List.length_map, List.length_append, List.length_replicate] at hlength
    show t.declaredSlots ≤ t.locals.length
    omega

theorem hasRoom_step {b : Body} {position : Nat} {i : Instruction} {s t : State} (hs : s.HasRoom)
    (h : step b position i s = .ok ((), t)) : t.HasRoom := by
  have hroom : s.widths.foldl (· + ·) 0 ≤ s.locals.length := hs
  rcases step_cases h with ⟨hlocals, hwidths⟩ | ⟨_, _, v, rest, -, -, hstores⟩ | ⟨declared, -, hframe⟩
  · show t.widths.foldl (· + ·) 0 ≤ t.locals.length
    rw [hlocals, hwidths]
    exact hroom
  · show t.widths.foldl (· + ·) 0 ≤ t.locals.length
    rw [hstores.widths]
    exact Nat.le_trans hroom hstores.length
  · exact hasRoom_applyFrame hs hframe

end Sim

theorem hasRoom_of_stateAfter? {c : Class} {m : Method} {count : Nat} {s : State}
    (h : stateAfter? c m count = some s) : s.HasRoom :=
  stateAfter?_induction (fun _ henter => (Sim.enter_spec henter).1)
    (fun _ _ _ _ _ hs hstep => Sim.hasRoom_step hs hstep) h

end Simulation

end Classmith
