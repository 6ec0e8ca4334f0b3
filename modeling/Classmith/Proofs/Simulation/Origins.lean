import Classmith.Proofs.Simulation.Integers

/-!
# Origins of integers

Where a simulated value tells where it came from, an execution of the same code should hold the number
that this origin stands for, and copies of one value should stand for one number. It is so at the start
of a method, and every instruction keeps it so but an increment: that changes the number in a slot and
leaves the simulated value, so a known or copied value in the slot no longer tells its number.
-/
namespace Classmith

namespace Simulation

/-- The machine holds what the simulated values say. -/
structure Faithful (args : List Int32) (s : State) (m : Machine) : Prop where
  constant : ∀ place v x c, Holds s m place v x → v.origin = .constant (.int c) → x = c
  parameter : ∀ place v x k slot, Holds s m place v x → v.origin = .parameter k slot →
    args[k]? = some x
  shared : ∀ place place' v w x y, Holds s m place v x → Holds s m place' w y → v.id = w.id → x = y

/-- The instruction changes the number of a value that is known, or that is in another place too. -/
def Drifts (s : State) (m : Machine) : IntOp → Prop
  | .increment slot amount => amount ≠ 0 ∧ ∃ v x, Holds s m (.slot slot) v x ∧
      (v.origin.isKnown = true ∨
        ∃ place w y, place ≠ .slot slot ∧ Holds s m place w y ∧ w.id = v.id)
  | _ => False

theorem exists_of_drifts {s : State} {m : Machine} {op : IntOp} (h : Drifts s m op) :
    ∃ slot amount, op = .increment slot amount := by
  cases op with
  | increment slot amount => exact ⟨slot, amount, rfl⟩
  | _ => exact h.elim

theorem Advances.faithful {args : List Int32} {s t : State} {m m' : Machine}
    {made : Option (Value × Int32)} (h : Advances s m t m' made) (hs : Shadows s m)
    (hfaithful : Faithful args s m) : Faithful args t m' := by
  refine ⟨?_, ?_, ?_⟩
  · intro place v x c hholds horigin
    rcases h.carried place v x hholds with ⟨source, hsource⟩ | hnew
    · exact hfaithful.constant source v x c hsource horigin
    · exact h.constant v x c hnew horigin
  · intro place v x k slot hholds horigin
    rcases h.carried place v x hholds with ⟨source, hsource⟩ | hnew
    · exact hfaithful.parameter source v x k slot hsource horigin
    · exact absurd horigin (h.parameter v x k slot hnew)
  · intro place place' v w x y hv hw hid
    rcases h.carried place v x hv with ⟨source, hsource⟩ | hnew <;>
      rcases h.carried place' w y hw with ⟨source', hsource'⟩ | hnew'
    · exact hfaithful.shared source source' v w x y hsource hsource' hid
    · have hold := hs.made source v x hsource
      have hmade := h.fresh w y hnew'
      omega
    · have hold := hs.made source' w y hsource'
      have hmade := h.fresh v x hnew
      omega
    · rw [hnew] at hnew'
      cases hnew'
      rfl

/-! ## Increments -/

/-- After a write the slot holds the new number, and every other place what it held. -/
theorem holds_write {s : State} {m : Machine} {slot : Nat} {y z : Int32} {place : Place} {v : Value} :
    Holds s (m.write slot y) place v z ↔
      place = .slot slot ∧ s.at? (.slot slot) = some v ∧ z = y ∨
        place ≠ .slot slot ∧ Holds s m place v z := by
  by_cases hplace : place = .slot slot
  · subst hplace
    constructor
    · intro h
      have hnumber := h.number
      simp only [Machine.at?, Machine.write, if_true, Option.some.injEq] at hnumber
      exact .inl ⟨rfl, h.value, hnumber.symm⟩
    · rintro (⟨-, hv, rfl⟩ | ⟨hne, -⟩)
      · exact ⟨hv, by simp [Machine.at?, Machine.write]⟩
      · exact absurd rfl hne
  · have hsame : (m.write slot y).at? place = m.at? place := by
      cases place with
      | entry depth => rfl
      | slot index =>
        have hindex : index ≠ slot := fun heq => hplace (heq ▸ rfl)
        simp [Machine.at?, Machine.write, hindex]
    constructor
    · intro h
      exact .inr ⟨hplace, h.value, hsame ▸ h.number⟩
    · rintro (⟨heq, -⟩ | ⟨-, h⟩)
      · exact absurd heq hplace
      · exact ⟨h.value, hsame ▸ h.number⟩

theorem Shadows.write {s : State} {m : Machine} (h : Shadows s m) {slot : Nat} {x y : Int32}
    (hx : m.locals slot = some x) : Shadows s (m.write slot y) := by
  have hbefore : ∀ place v z, Holds s (m.write slot y) place v z → ∃ z', Holds s m place v z' := by
    intro place v z hholds
    rcases holds_write.mp hholds with ⟨rfl, hv, -⟩ | ⟨-, hold⟩
    · exact ⟨x, hv, hx⟩
    · exact ⟨z, hold⟩
  refine ⟨h.depth, ?_, ?_, h.narrow, ?_⟩
  · intro index z hz
    by_cases hindex : index = slot
    · exact hindex ▸ h.present slot x hx
    · simp only [Machine.write, if_neg hindex] at hz
      exact h.present index z hz
  · intro place v z hholds
    obtain ⟨z', hz'⟩ := hbefore place v z hholds
    exact h.oneWord place v z' hz'
  · intro place v z hholds
    obtain ⟨z', hz'⟩ := hbefore place v z hholds
    exact h.made place v z' hz'

/-- A known origin leaves no choice of the number. -/
theorem Faithful.number_unique {args : List Int32} {s : State} {m m' : Machine} {place : Place}
    {v : Value} {x y : Int32} (h : Faithful args s m) (h' : Faithful args s m')
    (hknown : v.origin.isKnown = true) (hx : Holds s m place v x) (hy : Holds s m' place v y) :
    x = y := by
  unfold Origin.isKnown at hknown
  split at hknown
  · rename_i c horigin
    rw [h.constant place v x c hx horigin, h'.constant place v y c hy horigin]
  · rename_i k slot horigin
    have hargs := h.parameter place v x k slot hx horigin
    rw [h'.parameter place v y k slot hy horigin] at hargs
    exact (Option.some.inj hargs).symm
  · cases hknown

theorem Machine.write_self {m : Machine} {slot : Nat} {x : Int32} (h : m.locals slot = some x) :
    m.write slot x = m := by
  have hlocals : (m.write slot x).locals = m.locals := by
    funext index
    by_cases hindex : index = slot
    · simp [write, hindex, h]
    · simp [write, hindex]
  calc m.write slot x = ⟨m.stack, (m.write slot x).locals⟩ := rfl
    _ = m := by rw [hlocals]

/-- An increment keeps the machine faithful exactly if it changes no value that tells its number. -/
theorem Faithful.increment_iff {args : List Int32} {s : State} {m : Machine} {slot : Nat}
    {amount x : Int32} (h : Faithful args s m) (hs : Shadows s m) (hx : m.locals slot = some x) :
    Faithful args s (m.write slot (x + amount)) ↔ ¬Drifts s m (.increment slot amount) := by
  obtain ⟨v, hv⟩ := hs.present slot x hx
  have hold : Holds s m (.slot slot) v x := ⟨hv, hx⟩
  have hnew : Holds s (m.write slot (x + amount)) (.slot slot) v (x + amount) :=
    holds_write.mpr (.inl ⟨rfl, hv, rfl⟩)
  have hmoved : x = x + amount → amount = 0 := by grind
  constructor
  · rintro hafter ⟨hamount, v', x', ⟨hv', -⟩, hdrift⟩
    obtain rfl : v = v' := Option.some.inj (hv.symm.trans hv')
    rcases hdrift with hknown | ⟨place, w, y, hplace, hw, hid⟩
    · exact hamount (hmoved (h.number_unique hafter hknown hold hnew))
    · have hbefore := h.shared place (.slot slot) w v y x hw hold hid
      have hshared := hafter.shared place (.slot slot) w v y _
        (holds_write.mpr (.inr ⟨hplace, hw⟩)) hnew hid
      exact hamount (hmoved (hbefore.symm.trans hshared))
  · intro hdrift
    by_cases hamount : amount = 0
    · rw [hamount, Int32.add_zero, Machine.write_self hx]
      exact h
    · have hunknown : v.origin.isKnown ≠ true := fun hknown =>
        hdrift ⟨hamount, v, x, hold, .inl hknown⟩
      have halone : ∀ place w y, place ≠ .slot slot → Holds s m place w y → w.id ≠ v.id := by
        intro place w y hplace hw hid
        exact hdrift ⟨hamount, v, x, hold, .inr ⟨place, w, y, hplace, hw, hid⟩⟩
      refine ⟨?_, ?_, ?_⟩
      · intro place w y c hholds horigin
        rcases holds_write.mp hholds with ⟨-, hw, -⟩ | ⟨-, hw⟩
        · obtain rfl : v = w := Option.some.inj (hv.symm.trans hw)
          exact absurd (by rw [horigin]; rfl) hunknown
        · exact h.constant place w y c hw horigin
      · intro place w y k index hholds horigin
        rcases holds_write.mp hholds with ⟨-, hw, -⟩ | ⟨-, hw⟩
        · obtain rfl : v = w := Option.some.inj (hv.symm.trans hw)
          exact absurd (by rw [horigin]; rfl) hunknown
        · exact h.parameter place w y k index hw horigin
      · intro place place' w w' y y' hholds hholds' hid
        rcases holds_write.mp hholds with ⟨-, hw, hy⟩ | ⟨hplace, hw⟩ <;>
          rcases holds_write.mp hholds' with ⟨-, hw', hy'⟩ | ⟨hplace', hw'⟩
        · rw [hy, hy']
        · obtain rfl : v = w := Option.some.inj (hv.symm.trans hw)
          exact absurd hid.symm (halone place' w' y' hplace' hw')
        · obtain rfl : v = w' := Option.some.inj (hv.symm.trans hw')
          exact absurd hid (halone place w y hplace hw)
        · exact h.shared place place' w w' y y' hw hw' hid

/-! ## The start of a method -/

/-- Integer parameters as values, from a position, a slot and a number on. -/
def intParameters (index slot made count : Nat) : List Value :=
  (List.range count).map fun k =>
    .mk (made + 1 + k) (some "I") true false (.parameter (index + k) (slot + k))

theorem intParameters_succ (index slot made count : Nat) :
    intParameters index slot made (count + 1) =
      .mk (made + 1) (some "I") true false (.parameter index slot) ::
        intParameters (index + 1) (slot + 1) (made + 1) count := by
  simp only [intParameters, List.range_succ_eq_map, List.map_cons, List.map_map]
  congr 1
  apply List.map_congr_left
  intro k _
  simp [Nat.add_comm, Nat.add_left_comm]

theorem parameterSlots_ints (index slot made count : Nat) :
    Sim.parameterSlots index slot made (List.replicate count "I") = intParameters index slot made count := by
  induction count generalizing index slot made with
  | zero => rfl
  | succ count ih =>
    rw [List.replicate_succ, intParameters_succ, ← ih]
    rfl

/-- The locals at the start of a method on integers: the receiver if there is one, a value for each
argument and undefined slots. -/
structure IntEntry (m : Method) (count : Nat) (s : State) (receiver filler : List Value) : Prop where
  stack : s.stack = []
  locals : s.locals = receiver ++ (intParameters 0 receiver.length receiver.length count ++ filler)
  receivers : receiver.length = if m.isStatic then 0 else 1
  created : receiver.length + count ≤ s.created
  narrow : ∀ v, v ∈ receiver ∨ v ∈ filler → v.category ≠ some .two

theorem exists_intEntry {owner : String} {m : Method} {type : Descriptor.MethodType} {count : Nat}
    {s : State} (hsplit : Descriptor.split m.descriptor = .ok type)
    (hints : type.parameters = List.replicate count "I")
    (h : Sim.enter owner m State.start = .ok ((), s)) :
    ∃ receiver filler, IntEntry m count s receiver filler := by
  obtain ⟨u, hu, hstack, hmade, hreceivers, hnarrow⟩ : ∃ u,
      (if m.isStatic then pure () else Sim.declareReceiver owner : Sim Unit) State.start = .ok ((), u) ∧
      u.stack = [] ∧ u.created = u.locals.length ∧ u.locals.length = (if m.isStatic then 0 else 1) ∧
      ∀ v ∈ u.locals, v.category ≠ some .two := by
    split
    · exact ⟨State.start, rfl, rfl, rfl, rfl, by simp [State.start]⟩
    · refine ⟨_, rfl, rfl, rfl, rfl, ?_⟩
      intro v hv
      rw [List.mem_singleton.mp hv]
      show some (Descriptor.category (Descriptor.ofName owner)) ≠ some .two
      simp [Descriptor.category_ofName]
  have hparameters := Sim.declareParameters_eq 0 type.parameters u
  rw [hints, parameterSlots_ints] at hparameters
  obtain ⟨filler, hensure, -, hfiller⟩ := Sim.ensureLocals_spec m.maxLocals.toNat { u with
    locals := u.locals ++ intParameters 0 u.locals.length u.created count
    widths := ((List.replicate count "I").map fun p => (Descriptor.category p).words).reverse ++ u.widths
    created := u.created + (intParameters 0 u.locals.length u.created count).length }
  rw [Sim.enter_eq hsplit, Sim.bind_of_ok hu, hints, Sim.bind_of_ok hparameters, hensure] at h
  cases h
  refine ⟨u.locals, filler, hstack, ?_, hreceivers, ?_, ?_⟩
  · simp [hmade]
  · simp only [intParameters, List.length_map, List.length_range]
    omega
  · rintro v (hv | hv)
    · exact hnarrow v hv
    · simp [Sim.category_of_unusable (hfiller v hv)]

theorem Machine.locals_start {m : Method} {args : List Int32} {index : Nat} {x : Int32}
    (h : (Machine.start m args).locals index = some x) :
    ∃ k, index = (if m.isStatic then 0 else 1) + k ∧ args[k]? = some x := by
  simp only [Machine.start] at h
  split at h
  · rename_i hstatic
    exact ⟨index, by simp [hstatic], h⟩
  · rename_i hstatic
    split at h
    · cases h
    · exact ⟨index - 1, by simp only [hstatic]; grind, h⟩

namespace IntEntry

variable {m : Method} {args : List Int32} {s : State} {receiver filler : List Value}

theorem parameter (h : IntEntry m args.length s receiver filler) {k : Nat} {x : Int32}
    (hx : args[k]? = some x) : s.locals[receiver.length + k]? =
      some (.mk (receiver.length + 1 + k) (some "I") true false (.parameter k (receiver.length + k))) := by
  have hk : k < args.length := (List.getElem?_eq_some_iff.mp hx).1
  rw [h.locals, List.getElem?_append_right (Nat.le_add_right _ _), Nat.add_sub_cancel_left,
    List.getElem?_append_left (by simpa [intParameters] using hk)]
  simp [intParameters, hk]

/-- At the start only the slots of the arguments hold integers. -/
theorem of_holds (h : IntEntry m args.length s receiver filler) {place : Place} {v : Value} {x : Int32}
    (hholds : Holds s (Machine.start m args) place v x) : ∃ k, args[k]? = some x ∧
      v = .mk (receiver.length + 1 + k) (some "I") true false (.parameter k (receiver.length + k)) := by
  obtain ⟨hv, hx⟩ := hholds
  cases place with
  | entry depth => simp [Machine.at?, Machine.start] at hx
  | slot index =>
    obtain ⟨k, hindex, hk⟩ := Machine.locals_start hx
    rw [← h.receivers] at hindex
    rw [State.at?, hindex, h.parameter hk] at hv
    exact ⟨k, hk, (Option.some.inj hv).symm⟩

theorem shadows (h : IntEntry m args.length s receiver filler) : Shadows s (Machine.start m args) := by
  refine ⟨by simp [h.stack, Machine.start], ?_, ?_, ?_, ?_⟩
  · intro index x hx
    obtain ⟨k, hindex, hk⟩ := Machine.locals_start hx
    exact ⟨_, by rw [hindex, ← h.receivers, h.parameter hk]⟩
  · intro place v x hholds
    obtain ⟨k, -, rfl⟩ := h.of_holds hholds
    rfl
  · intro index v hv
    have hmem := List.mem_of_getElem? hv
    rw [h.locals, List.mem_append, List.mem_append] at hmem
    rcases hmem with hreceiver | hparameter | hfiller
    · exact h.narrow v (.inl hreceiver)
    · obtain ⟨k, -, rfl⟩ := List.mem_map.mp hparameter
      exact (by decide : some Category.one ≠ some .two)
    · exact h.narrow v (.inr hfiller)
  · intro place v x hholds
    obtain ⟨k, hk, rfl⟩ := h.of_holds hholds
    have hlength : k < args.length := (List.getElem?_eq_some_iff.mp hk).1
    have hcreated := h.created
    show receiver.length + 1 + k ≤ s.created
    omega

theorem faithful (h : IntEntry m args.length s receiver filler) :
    Faithful args s (Machine.start m args) := by
  refine ⟨?_, ?_, ?_⟩
  · intro place v x c hholds horigin
    obtain ⟨k, -, rfl⟩ := h.of_holds hholds
    cases horigin
  · intro place v x k slot hholds horigin
    obtain ⟨k', hk', rfl⟩ := h.of_holds hholds
    cases horigin
    exact hk'
  · intro place place' v w x y hholds hholds' hid
    obtain ⟨k, hk, rfl⟩ := h.of_holds hholds
    obtain ⟨k', hk', rfl⟩ := h.of_holds hholds'
    have hsame : receiver.length + 1 + k = receiver.length + 1 + k' := hid
    obtain rfl : k = k' := by omega
    exact Option.some.inj (hk.symm.trans hk')

end IntEntry

/-! ## Runs -/

section

variable {c : Class} {m : Method} {args : List Int32} {type : Descriptor.MethodType}

/-- The last instruction of the simulation is that of the machine. -/
theorem op_of_after {count : Nat} {t : State} {machine' : Machine}
    (ht : stateAfter? c m (count + 1) = some t) (hm : machineAfter? m args (count + 1) = some machine') :
    ∃ s machine op, stateAfter? c m count = some s ∧ machineAfter? m args count = some machine ∧
      (m.instructions[count]?).bind IntOp.ofInstruction? = some op ∧
      op.simulate count s = .ok ((), t) ∧ machine.execute op = some machine' := by
  obtain ⟨s, i, hs, hi, hstep⟩ := step_of_stateAfter? ht
  obtain ⟨machine, hmachine, hm⟩ := Option.bind_eq_some_iff.mp hm
  obtain ⟨op, hop, hexecute⟩ := Option.bind_eq_some_iff.mp hm
  have hof : IntOp.ofInstruction? i = some op := by rwa [hi] at hop
  exact ⟨s, machine, op, hs, hmachine, hop, by rw [← IntOp.step_eq hof, hstep], hexecute⟩

theorem shadows_of_after (hsplit : Descriptor.split m.descriptor = .ok type)
    (hints : type.parameters = List.replicate args.length "I") {count : Nat} {s : State}
    {machine : Machine} (hs : stateAfter? c m count = some s)
    (hm : machineAfter? m args count = some machine) : Shadows s machine := by
  induction count generalizing s machine with
  | zero =>
    rw [stateAfter?_zero] at hs
    obtain ⟨receiver, filler, hentry⟩ := exists_intEntry hsplit hints (enter_of_start? hs)
    cases hm
    exact hentry.shadows
  | succ count ih =>
    obtain ⟨s', machine', op, hs', hm', -, hstep, hexecute⟩ := op_of_after hs hm
    have hbefore := ih hs' hm'
    rcases IntOp.advances_or_increments hbefore hstep hexecute with
      ⟨-, made, hadvances⟩ | ⟨slot, amount, x, -, rfl, hx, rfl⟩
    · exact hadvances.shadows
    · exact hbefore.write hx

/-- The simulation and the machine after the first instructions. -/
def bothAfter? (c : Class) (m : Method) (args : List Int32) (count : Nat) : Option (State × Machine) :=
  (stateAfter? c m count).bind fun s => (machineAfter? m args count).map fun machine => (s, machine)

theorem bothAfter?_eq_some_iff {count : Nat} {s : State} {machine : Machine} :
    bothAfter? c m args count = some (s, machine) ↔
      stateAfter? c m count = some s ∧ machineAfter? m args count = some machine := by
  simp [bothAfter?, Option.bind_eq_some_iff]

/-- An instruction at which the two drift apart is executed by both. -/
theorem bothAfter?_of_drifts {count : Nat} {s : State} {machine : Machine} {op : IntOp}
    (h : bothAfter? c m args count = some (s, machine))
    (hop : (m.instructions[count]?).bind IntOp.ofInstruction? = some op)
    (hdrifts : Drifts s machine op) : ∃ after, bothAfter? c m args (count + 1) = some after := by
  obtain ⟨hs, hm⟩ := bothAfter?_eq_some_iff.mp h
  obtain ⟨slot, amount, rfl⟩ := exists_of_drifts hdrifts
  obtain ⟨-, v, x, hholds, -⟩ := hdrifts
  obtain ⟨i, hi, hof⟩ := Option.bind_eq_some_iff.mp hop
  have hx : machine.locals slot = some x := hholds.number
  refine ⟨(s, machine.write slot (x + amount)), bothAfter?_eq_some_iff.mpr ⟨?_, ?_⟩⟩
  · rw [stateAfter?_succ, hs, Option.bind_some, hi, Option.bind_some, IntOp.step_eq hof]
    rfl
  · rw [machineAfter?, hm, Option.bind_some, hop, Option.bind_some, Machine.execute, hx]
    rfl

theorem faithful_after_iff (hsplit : Descriptor.split m.descriptor = .ok type)
    (hints : type.parameters = List.replicate args.length "I") {count : Nat} {s t : State}
    {machine machine' : Machine} (h : bothAfter? c m args count = some (s, machine))
    (h' : bothAfter? c m args (count + 1) = some (t, machine')) (hfaithful : Faithful args s machine) :
    Faithful args t machine' ↔ ¬∃ op, (m.instructions[count]?).bind IntOp.ofInstruction? = some op ∧
      Drifts s machine op := by
  obtain ⟨hs, hm⟩ := bothAfter?_eq_some_iff.mp h
  obtain ⟨ht, hm'⟩ := bothAfter?_eq_some_iff.mp h'
  obtain ⟨s₀, machine₀, op, hs₀, hm₀, hop, hstep, hexecute⟩ := op_of_after ht hm'
  obtain rfl : s = s₀ := Option.some.inj (hs.symm.trans hs₀)
  obtain rfl : machine = machine₀ := Option.some.inj (hm.symm.trans hm₀)
  have hshadows := shadows_of_after hsplit hints hs hm
  have honly : (∃ op, (m.instructions[count]?).bind IntOp.ofInstruction? = some op ∧
      Drifts s machine op) ↔ Drifts s machine op := by
    simp [hop]
  rw [honly]
  rcases IntOp.advances_or_increments hshadows hstep hexecute with
    ⟨hother, made, hadvances⟩ | ⟨slot, amount, x, rfl, rfl, hx, rfl⟩
  · refine iff_of_true (hadvances.faithful hshadows hfaithful) fun hdrifts => ?_
    obtain ⟨slot, amount, hop'⟩ := exists_of_drifts hdrifts
    exact hother slot amount hop'
  · exact hfaithful.increment_iff hshadows hx

end

end Simulation

open Simulation

/-- The simulated values of a method on integers tell what an execution holds up to some instruction
exactly if no increment before it changes a parameter, a constant or a value with a copy elsewhere. -/
theorem int_origins_faithful_iff (c : Class) (m : Method) (args : List Int32)
    (type : Descriptor.MethodType) (hsplit : Descriptor.split m.descriptor = .ok type)
    (hints : type.parameters = List.replicate args.length "I") (n : Nat) :
    (∀ count, count ≤ n → ∀ s machine, stateAfter? c m count = some s →
        machineAfter? m args count = some machine → Faithful args s machine) ↔
      ∀ count, count < n → ∀ s machine op, stateAfter? c m count = some s →
        machineAfter? m args count = some machine →
        (m.instructions[count]?).bind IntOp.ofInstruction? = some op → ¬Drifts s machine op := by
  have hboth : (∀ count, count ≤ n → ∀ p, bothAfter? c m args count = some p → Faithful args p.1 p.2) ↔
      ∀ count, count < n → ∀ p q, bothAfter? c m args count = some p →
        bothAfter? c m args (count + 1) = some q →
        ¬∃ op, (m.instructions[count]?).bind IntOp.ofInstruction? = some op ∧ Drifts p.1 p.2 op := by
    refine forall_le_iff_no_break ?_ ?_ ?_ n
    · intro ⟨s, machine⟩ h
      obtain ⟨hs, hm⟩ := bothAfter?_eq_some_iff.mp h
      rw [stateAfter?_zero] at hs
      obtain ⟨receiver, filler, hentry⟩ := exists_intEntry hsplit hints (enter_of_start? hs)
      cases hm
      exact hentry.faithful
    · intro count ⟨t, machine'⟩ h
      obtain ⟨ht, hm'⟩ := bothAfter?_eq_some_iff.mp h
      obtain ⟨s, machine, -, hs, hm, -⟩ := op_of_after ht hm'
      exact ⟨(s, machine), bothAfter?_eq_some_iff.mpr ⟨hs, hm⟩⟩
    · intro count ⟨s, machine⟩ ⟨t, machine'⟩ h h' hfaithful
      exact faithful_after_iff hsplit hints h h' hfaithful
  constructor
  · intro hfaithful count hcount s machine op hs hm hop hdrifts
    have h := bothAfter?_eq_some_iff.mpr ⟨hs, hm⟩
    obtain ⟨after, hafter⟩ := bothAfter?_of_drifts h hop hdrifts
    refine hboth.mp ?_ count hcount (s, machine) after h hafter ⟨op, hop, hdrifts⟩
    intro k hk ⟨u, machine'⟩ hu
    obtain ⟨hu, hm'⟩ := bothAfter?_eq_some_iff.mp hu
    exact hfaithful k hk u machine' hu hm'
  · intro hnone count hcount s machine hs hm
    refine hboth.mpr ?_ count hcount (s, machine) (bothAfter?_eq_some_iff.mpr ⟨hs, hm⟩)
    rintro k hk ⟨u, machine'⟩ after hu - ⟨op, hop, hdrifts⟩
    obtain ⟨hu, hm'⟩ := bothAfter?_eq_some_iff.mp hu
    exact hnone k hk u machine' op hu hm' hop hdrifts

namespace Samples

/-- Adds its parameters into the first one and counts that up. -/
def tally : Method where
  access := 0x0008
  name := "tally"
  descriptor := "(II)V"
  maxLocals := 2
  instructions := [.var 0x15 0, .var 0x15 1, .insn 0x60, .var 0x36 0, .iinc 0 5, .var 0x15 0]

/-- Counts its parameter up. -/
def count : Method where
  access := 0x0008
  name := "count"
  descriptor := "(I)V"
  maxLocals := 1
  instructions := [.iinc 0 1, .var 0x15 0]

end Samples

theorem tally_origins_faithful :
    (stateAfter? Samples.tree Samples.tally 6).isSome = true ∧
    (machineAfter? Samples.tally [3, 4] 6).map (·.stack) = some [12] ∧
    ∀ count, count ≤ 6 → ∀ s machine, stateAfter? Samples.tree Samples.tally count = some s →
      machineAfter? Samples.tally [3, 4] count = some machine → Faithful [3, 4] s machine := by
  have hsplit : Descriptor.split Samples.tally.descriptor = .ok ⟨["I", "I"], "V"⟩ := by decide +kernel
  refine ⟨by decide +kernel, by decide +kernel, ?_⟩
  refine (int_origins_faithful_iff Samples.tree Samples.tally [3, 4] _ hsplit rfl 6).mpr ?_
  intro count hcount s machine op hs hm hop hdrifts
  match count, hcount with
  | 0, _ | 1, _ | 2, _ | 3, _ | 5, _ =>
    cases hop
    exact hdrifts
  | 4, _ =>
    cases hop
    -- the sum is in the first slot, and nowhere else
    have hplaces : (stateAfter? Samples.tree Samples.tally 4).map (fun s => (s.stack.map Value.id,
        s.locals.map fun v => (v.id, v.origin.isKnown))) = some ([], [(3, false), (2, true)]) := by
      decide +kernel
    rw [hs, Option.map_some, Option.some.injEq, Prod.mk.injEq] at hplaces
    obtain ⟨hstack, hlocals⟩ := hplaces
    have hslot : ∀ (index : Nat) v, s.at? (.slot index) = some v →
        [(3, false), (2, true)][index]? = some (v.id, v.origin.isKnown) := by
      intro index v hv
      rw [← hlocals, List.getElem?_map, show s.locals[index]? = some v from hv, Option.map_some]
    obtain ⟨-, v, x, ⟨hv, -⟩, hdrift⟩ := hdrifts
    obtain ⟨hid, hunknown⟩ : 3 = v.id ∧ false = v.origin.isKnown := by simpa using hslot 0 v hv
    rcases hdrift with hknown | ⟨place, w, y, hplace, hw, hsame⟩
    · simp [← hunknown] at hknown
    · match place with
      | .entry depth =>
        have hentry : s.stack[depth]? = some w := hw.value
        simp [List.map_eq_nil_iff.mp hstack] at hentry
      | .slot 0 => exact hplace rfl
      | .slot 1 =>
        have hother : 2 = w.id ∧ true = w.origin.isKnown := by simpa using hslot 1 w hw.value
        omega
      | .slot (index + 2) => simpa using hslot (index + 2) w hw.value

/-- An increment leaves the parameter where it was, and the argument is no longer there. -/
theorem incremented_parameter_unchanged :
    (walk Samples.tree Samples.count).outcome.toOption = some .walked ∧
    ∃ s machine v, stateAfter? Samples.tree Samples.count 1 = some s ∧
      machineAfter? Samples.count [7] 1 = some machine ∧ Holds s machine (.slot 0) v 8 ∧
      v.origin = .parameter 0 0 ∧ ¬Faithful [7] s machine := by
  have hsplit : Descriptor.split Samples.count.descriptor = .ok ⟨["I"], "V"⟩ := by decide +kernel
  have hsome : (stateAfter? Samples.tree Samples.count 1).isSome = true := by decide +kernel
  obtain ⟨s, hs⟩ := Option.isSome_iff_exists.mp hsome
  obtain ⟨before, i, hbefore, hi, hstep⟩ := step_of_stateAfter? hs
  cases hi
  cases hstep
  rw [stateAfter?_zero] at hbefore
  obtain ⟨receiver, filler, hentry⟩ : ∃ receiver filler,
      IntEntry Samples.count [(7 : Int32)].length s receiver filler :=
    exists_intEntry hsplit rfl (enter_of_start? hbefore)
  obtain rfl : receiver = [] := List.length_eq_zero_iff.mp hentry.receivers
  have hholds : Holds s (Machine.write (Machine.start Samples.count [7]) 0 8) (.slot 0)
      (.mk 1 (some "I") true false (.parameter 0 0)) 8 := ⟨hentry.parameter (k := 0) rfl, rfl⟩
  refine ⟨by decide +kernel, s, _, _, hs, rfl, hholds, rfl, fun hfaithful => ?_⟩
  have hargument := hfaithful.parameter (.slot 0) _ 8 0 0 hholds rfl
  exact absurd hargument (by decide)

end Classmith
