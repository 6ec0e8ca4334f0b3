import Classmith.Proofs.DescriptorGrammar
import Classmith.Proofs.Simulation.Locals

/-!
# Method entry

A method starts with the receiver, if it has one, and its parameters in the first local slots. Slots, parameters and
declared frame locals are counted apart, as a long or a double is one parameter and one declared local but takes two
slots.
-/
namespace Classmith

theorem Descriptor.SpellsType.category_eq_two_iff {type : List Char} (h : SpellsType type) :
    category (String.ofList type) = .two ↔ type = ['J'] ∨ type = ['D'] := by
  cases h with
  | primitive h =>
    simp only [List.mem_cons, List.not_mem_nil, or_false] at h
    rcases h with rfl | rfl | rfl | rfl | rfl | rfl | rfl | rfl <;> simp [category]
  | object h => simp [category]
  | array h => simp [category]

namespace Simulation

/-! ## Slots of parameters -/

/-- How many slots a parameter takes. -/
def slotWidth (parameter : String) : Nat := if parameter = "J" ∨ parameter = "D" then 2 else 1

theorem slotWidth_of_wide {p : String} (h : p = "J" ∨ p = "D") : slotWidth p = 2 := if_pos h

theorem slotWidth_of_narrow {p : String} (h : ¬(p = "J" ∨ p = "D")) : slotWidth p = 1 := if_neg h

/-- The slot of each of the parameters that begin at a slot, and after the last one the next free slot. -/
def slotFrom (first : Nat) (parameters : List String) : Nat → Nat
  | 0 => first
  | k + 1 => slotFrom first parameters k + (parameters[k]?).elim 0 slotWidth

theorem slotFrom_cons (first : Nat) (p : String) (rest : List String) (k : Nat) :
    slotFrom first (p :: rest) (k + 1) = slotFrom (first + slotWidth p) rest k := by
  induction k with
  | zero => rfl
  | succ k ih => rw [slotFrom, ih, List.getElem?_cons_succ, ← slotFrom]

theorem words_category {p : String} (h : Descriptor.SpellsType p.toList) :
    (Descriptor.category p).words = slotWidth p := by
  have hwide := h.category_eq_two_iff
  rw [String.ofList_toList] at hwide
  have hletter : ∀ c : Char, p.toList = [c] ↔ p = String.ofList [c] := by
    intro c
    rw [← String.toList_inj, String.toList_ofList]
  rw [hletter, hletter] at hwide
  by_cases htwo : p = "J" ∨ p = "D"
  · rw [hwide.mpr htwo, slotWidth_of_wide htwo]
    rfl
  · rw [slotWidth_of_narrow htwo]
    cases hcategory : Descriptor.category p with
    | one => rfl
    | two => exact absurd (hwide.mp hcategory) htwo

namespace Sim

theorem parameterSlots_cons {p : String} (h : Descriptor.SpellsType p.toList) (index slot made : Nat)
    (rest : List String) : ∃ second : List Value,
      parameterSlots index slot made (p :: rest) =
        .mk (made + 1) (some p) true false (.parameter index slot) :: second ++
          parameterSlots (index + 1) (slot + slotWidth p) (made + slotWidth p) rest ∧
      second.length + 1 = slotWidth p ∧ ∀ v ∈ second, ∃ id, v = .mk id none false false .invalid := by
  rw [← words_category h, parameterSlots]
  cases Descriptor.category p with
  | one => exact ⟨[], rfl, rfl, List.forall_mem_nil _⟩
  | two => exact ⟨[.mk (made + 2) none false false .invalid], rfl, rfl, by simp⟩

end Sim

/-- A list of slots holds the parameters from one slot on, each with its number among all parameters, its slot and
its type, and after each of two slots a placeholder. -/
structure HoldsParameters (index first : Nat) (parameters : List String) (slots : List Value) : Prop where
  size : slots.length = slotFrom first parameters parameters.length
  value : ∀ {k p}, parameters[k]? = some p → ∃ id, slots[slotFrom first parameters k]? =
    some (.mk id (some p) true false (.parameter (index + k) (slotFrom first parameters k)))
  second : ∀ {k p}, parameters[k]? = some p → slotWidth p = 2 →
    ∃ id, slots[slotFrom first parameters k + 1]? = some (.mk id none false false .invalid)
  covered : ∀ {j}, first ≤ j → j < slots.length → ∃ k p, parameters[k]? = some p ∧
    slotFrom first parameters k ≤ j ∧ j < slotFrom first parameters k + slotWidth p

namespace HoldsParameters

variable {index first : Nat} {parameters : List String} {slots : List Value}

theorem cons {p : String} {id : Nat} (h : HoldsParameters (index + 1) (first + slotWidth p) parameters slots)
    (hvalue : slots[first]? = some (.mk id (some p) true false (.parameter index first)))
    (hsecond : slotWidth p = 2 → ∃ id, slots[first + 1]? = some (.mk id none false false .invalid)) :
    HoldsParameters index first (p :: parameters) slots := by
  refine ⟨?_, ?_, ?_, ?_⟩
  · rw [h.size, List.length_cons, slotFrom_cons]
  · intro k q hk
    cases k with
    | zero =>
      cases hk
      exact ⟨id, hvalue⟩
    | succ k =>
      have hindex : index + (k + 1) = index + 1 + k := by omega
      rw [slotFrom_cons, hindex]
      exact h.value hk
  · intro k q hk hwide
    cases k with
    | zero =>
      cases hk
      exact hsecond hwide
    | succ k =>
      rw [slotFrom_cons]
      exact h.second hk hwide
  · intro j hle hlt
    by_cases hj : first + slotWidth p ≤ j
    · obtain ⟨k, q, hk, hbounds⟩ := h.covered hj hlt
      refine ⟨k + 1, q, hk, ?_⟩
      rwa [slotFrom_cons]
    · exact ⟨0, p, rfl, hle, Nat.lt_of_not_le hj⟩

theorem eq_slot_or_second (h : HoldsParameters index first parameters slots) {j : Nat} (hle : first ≤ j)
    (hlt : j < slots.length) : ∃ k p, parameters[k]? = some p ∧
      (j = slotFrom first parameters k ∨ (p = "J" ∨ p = "D") ∧ j = slotFrom first parameters k + 1) := by
  obtain ⟨k, p, hk, hbegin, hend⟩ := h.covered hle hlt
  refine ⟨k, p, hk, ?_⟩
  by_cases hwide : p = "J" ∨ p = "D"
  · rw [slotWidth_of_wide hwide] at hend
    rcases Nat.eq_or_lt_of_le hbegin with heq | hbeyond
    · exact .inl heq.symm
    · exact .inr ⟨hwide, by omega⟩
  · rw [slotWidth_of_narrow hwide] at hend
    exact .inl (by omega)

end HoldsParameters

namespace Sim

theorem holdsParameters_parameterSlots {parameters : List String}
    (h : ∀ p ∈ parameters, Descriptor.SpellsType p.toList) (index made : Nat) {first : Nat} {front : List Value}
    (hfront : front.length = first) :
    HoldsParameters index first parameters (front ++ parameterSlots index first made parameters) := by
  induction parameters generalizing index made first front with
  | nil =>
    refine ⟨by simp [parameterSlots, slotFrom, hfront], by simp, by simp, ?_⟩
    intro j hle hlt
    rw [parameterSlots, List.append_nil] at hlt
    omega
  | cons p rest ih =>
    obtain ⟨hp, hrest⟩ := List.forall_mem_cons.mp h
    obtain ⟨second, hslots, hlength, hsecond⟩ := parameterSlots_cons hp index first made rest
    subst hfront
    -- the rest of the parameters begin after the slots of the first
    have hfront' : (front ++ .mk (made + 1) (some p) true false (.parameter index front.length) :: second).length =
        front.length + slotWidth p := by
      rw [List.length_append, List.length_cons, hlength]
    have hholds := ih hrest (index + 1) (made + slotWidth p) hfront'
    rw [List.append_assoc, ← hslots] at hholds
    have hvalue : (front ++ parameterSlots index front.length made (p :: rest))[front.length]? =
        some (.mk (made + 1) (some p) true false (.parameter index front.length)) := by
      simp [hslots]
    refine hholds.cons hvalue fun hwide => ?_
    obtain ⟨v, rfl⟩ : ∃ v, second = [v] := List.length_eq_one_iff.mp (by omega)
    obtain ⟨id, rfl⟩ := hsecond v List.mem_cons_self
    exact ⟨id, by simp [hslots]⟩

/-! ## The start of a method -/

/-- The slot of the receiver, if the method has one. -/
def receiverSlot (owner : String) (m : Method) : List Value :=
  if m.isStatic then [] else [.mk 1 (some (Descriptor.ofName owner)) true false .this]

theorem length_receiverSlot (owner : String) (m : Method) :
    (receiverSlot owner m).length = if m.isStatic then 0 else 1 := by
  unfold receiverSlot
  split <;> rfl

/-- The slots of the receiver and the parameters. -/
def entryValues (owner : String) (m : Method) (parameters : List String) : List Value :=
  receiverSlot owner m ++
    parameterSlots 0 (receiverSlot owner m).length (receiverSlot owner m).length parameters

theorem enter_ok {m : Method} {type : Descriptor.MethodType} (h : Descriptor.split m.descriptor = .ok type)
    (owner : String) : ∃ (filler : List Value) (created : Nat), enter owner m State.start = .ok ((), {
        stack := []
        locals := entryValues owner m type.parameters ++ filler
        widths := (type.parameters.map fun p => (Descriptor.category p).words).reverse ++
          List.replicate (receiverSlot owner m).length 1
        created }) ∧
      filler.length = m.maxLocals.toNat - (entryValues owner m type.parameters).length ∧
      ∀ v ∈ filler, ∃ id, v = .mk id none false false .undefined := by
  have hreceiver : (if m.isStatic then pure () else declareReceiver owner : Sim Unit) State.start =
      .ok ((), ⟨[], receiverSlot owner m, List.replicate (receiverSlot owner m).length 1,
        (receiverSlot owner m).length⟩) := by
    unfold receiverSlot
    cases m.isStatic <;> rfl
  have hparameters := declareParameters_eq 0 type.parameters ⟨[], receiverSlot owner m,
    List.replicate (receiverSlot owner m).length 1, (receiverSlot owner m).length⟩
  rw [enter_eq h, bind_of_ok hreceiver, bind_of_ok hparameters]
  refine ⟨_, _, rfl, ?_, ?_⟩
  · rw [List.length_map, List.length_range]
    rfl
  · intro v hv
    obtain ⟨i, -, rfl⟩ := List.mem_map.mp hv
    exact ⟨_, rfl⟩

theorem holdsParameters_entryValues {parameters : List String}
    (h : ∀ p ∈ parameters, Descriptor.SpellsType p.toList) (owner : String) (m : Method) :
    HoldsParameters 0 (if m.isStatic then 0 else 1) parameters (entryValues owner m parameters) := by
  rw [← length_receiverSlot owner m]
  exact holdsParameters_parameterSlots h 0 _ rfl

theorem foldl_widths {parameters : List String} (h : ∀ p ∈ parameters, Descriptor.SpellsType p.toList)
    (before : List Nat) :
    ((parameters.map fun p => (Descriptor.category p).words).reverse ++ before).foldl (· + ·) 0 =
      slotFrom (before.foldl (· + ·) 0) parameters parameters.length := by
  induction parameters generalizing before with
  | nil => rfl
  | cons p rest ih =>
    obtain ⟨hp, hrest⟩ := List.forall_mem_cons.mp h
    have hbefore : ((slotWidth p :: before).foldl (· + ·) 0) = before.foldl (· + ·) 0 + slotWidth p := by
      rw [List.foldl_cons, foldl_add_eq, Nat.zero_add, Nat.add_comm]
    rw [List.map_cons, List.reverse_cons, List.append_assoc, List.singleton_append, words_category hp, ih hrest,
      hbefore, List.length_cons, slotFrom_cons]

end Sim

/-- The slot of each parameter of a method, and after the last one the number of slots that the receiver and the
parameters take. -/
def parameterSlot (m : Method) (parameters : List String) (k : Nat) : Nat :=
  slotFrom (if m.isStatic then 0 else 1) parameters k

/-- The state in which a method of a class with the given parameters starts. -/
structure EntryLayout (c : Class) (m : Method) (parameters : List String) (s : State) : Prop where
  stack : s.stack = []
  size : s.locals.length = max m.maxLocals.toNat (parameterSlot m parameters parameters.length)
  receiver : m.isStatic = false → Descriptor.isArray c.name = false →
    ∃ id, s.locals[0]? = some (.mk id (some ("L" ++ c.name ++ ";")) true false .this)
  parameter : ∀ {k p}, parameters[k]? = some p → ∃ id, s.locals[parameterSlot m parameters k]? =
    some (.mk id (some p) true false (.parameter k (parameterSlot m parameters k)))
  placeholder : ∀ {k p}, parameters[k]? = some p → p = "J" ∨ p = "D" →
    ∃ id, s.locals[parameterSlot m parameters k + 1]? = some (.mk id none false false .invalid)
  undefined : ∀ {j v}, s.locals[j]? = some v → (m.isStatic = false → j ≠ 0) →
    (∀ k p, parameters[k]? = some p → j ≠ parameterSlot m parameters k ∧
      (p = "J" ∨ p = "D" → j ≠ parameterSlot m parameters k + 1)) →
    ∃ id, v = .mk id none false false .undefined
  declared : s.widths.length = parameters.length + if m.isStatic then 0 else 1
  declaredSlots : s.declaredSlots = parameterSlot m parameters parameters.length

theorem entryLayout_of_split {m : Method} {type : Descriptor.MethodType}
    (h : Descriptor.split m.descriptor = .ok type) (c : Class) :
    ∃ s, Sim.enter c.name m State.start = .ok ((), s) ∧ EntryLayout c m type.parameters s := by
  have hspells := (Descriptor.split_eq_ok_iff.mp h).parameters
  obtain ⟨filler, created, henter, hlength, hfiller⟩ := Sim.enter_ok h c.name
  have hholds := Sim.holdsParameters_entryValues hspells c.name m
  have hkept : ∀ {j v}, (Sim.entryValues c.name m type.parameters)[j]? = some v →
      (Sim.entryValues c.name m type.parameters ++ filler)[j]? = some v := fun hj =>
    (List.getElem?_append_left (List.getElem?_eq_some_iff.mp hj).1).trans hj
  refine ⟨_, henter, rfl, ?_, ?_, ?_, ?_, ?_, ?_, ?_⟩
  · rw [List.length_append, hlength, parameterSlot, ← hholds.size]
    omega
  · intro hstatic harray
    refine ⟨1, hkept ?_⟩
    simp [Sim.entryValues, Sim.receiverSlot, hstatic, Descriptor.ofName, harray]
  · intro k p hk
    obtain ⟨id, hvalue⟩ := hholds.value hk
    rw [Nat.zero_add] at hvalue
    exact ⟨id, hkept hvalue⟩
  · intro k p hk hwide
    obtain ⟨id, hsecond⟩ := hholds.second hk (slotWidth_of_wide hwide)
    exact ⟨id, hkept hsecond⟩
  · intro j v hj hreceiver hparameters
    by_cases hentry : j < (Sim.entryValues c.name m type.parameters).length
    · -- every slot that is taken belongs to the receiver or to a parameter
      have hfirst : (if m.isStatic then 0 else 1) ≤ j := by
        cases hstatic : m.isStatic with
        | true => exact Nat.zero_le j
        | false => exact Nat.pos_of_ne_zero (hreceiver hstatic)
      obtain ⟨k, p, hk, hslot | ⟨hwide, hsecond⟩⟩ := hholds.eq_slot_or_second hfirst hentry
      · exact absurd hslot (hparameters k p hk).1
      · exact absurd hsecond ((hparameters k p hk).2 hwide)
    · rw [List.getElem?_append_right (Nat.le_of_not_lt hentry)] at hj
      exact hfiller v (List.mem_of_getElem? hj)
  · simp [Sim.length_receiverSlot]
  · have hwidths := Sim.foldl_widths hspells (List.replicate (Sim.receiverSlot c.name m).length 1)
    have hone : (List.replicate (Sim.receiverSlot c.name m).length 1).foldl (· + ·) 0 =
        if m.isStatic then 0 else 1 := by
      rw [Sim.length_receiverSlot]
      split <;> rfl
    rw [hone] at hwidths
    exact hwidths

/-- The walk of a method starts with an empty stack and with the receiver and the parameters in the first slots. A
parameter stands in the slot after those of the ones before it, where a long or a double takes two, the second of
which cannot be used; slots beyond the parameters are there up to the number the method asks for, and undefined. The
receiver and each parameter are declared as frame locals, with the slots they take. -/
theorem walk_starts_with_parameters (c : Class) (m : Method) {type : Descriptor.MethodType}
    (hversion : 49 < c.version) (hsplit : Descriptor.split m.descriptor = .ok type) :
    ∃ s, Sim.enter c.name m State.start = .ok ((), s) ∧
      (walk c m).visits = (run ⟨c.name, m.instructions⟩ 0 m.instructions s).1 ∧
      EntryLayout c m type.parameters s := by
  obtain ⟨s, henter, hlayout⟩ := entryLayout_of_split hsplit c
  exact ⟨s, henter, visits_eq hversion henter, hlayout⟩

end Simulation

namespace Samples

/-- Takes words of all sizes and asks for two slots more than they need. -/
def measure : Method where
  name := "measure"
  descriptor := "(IJ[DLp/Node;D)V"
  maxLocals := 10
  instructions := [.insn 0xb1]

end Samples

namespace Simulation

theorem walk_starts_with_parameters_measure :
    Descriptor.split Samples.measure.descriptor = .ok ⟨["I", "J", "[D", "Lp/Node;", "D"], "V"⟩ ∧
    (List.range 6).map (parameterSlot Samples.measure ["I", "J", "[D", "Lp/Node;", "D"]) = [1, 2, 4, 5, 6, 8] ∧
    ∃ s, Sim.enter "p/Tree" Samples.measure State.start = .ok ((), s) ∧
      (walk Samples.tree Samples.measure).visits = (run ⟨"p/Tree", [.insn 0xb1]⟩ 0 [.insn 0xb1] s).1 ∧
      EntryLayout Samples.tree Samples.measure ["I", "J", "[D", "Lp/Node;", "D"] s := by
  have hsplit : Descriptor.split Samples.measure.descriptor =
      .ok ⟨["I", "J", "[D", "Lp/Node;", "D"], "V"⟩ := by
    decide +kernel
  refine ⟨hsplit, by decide +kernel, ?_⟩
  exact walk_starts_with_parameters Samples.tree Samples.measure (by decide) hsplit

end Simulation

end Classmith
