import Classmith.Proofs.Simulation.Locals

/-!
# Integer code and its execution

A machine that executes straight-line code on 32-bit integers, next to the simulation of the same code.
Each instruction leaves in every place what some place held before, or a value that it made together
with its number; only an increment of a local changes a number and keeps the simulated value.
-/
namespace Classmith.Simulation

/-! ## The machine -/

/-- The arithmetic on two integers. -/
inductive IntArithmetic where
  | add
  | sub
  | mul
  | div
  | rem
  | shl
  | shr
  | ushr
  | and
  | or
  | xor
deriving DecidableEq, Repr

/-- The result, none for a division by zero. Shifts take the distance modulo the width. -/
def IntArithmetic.apply (x y : Int32) : IntArithmetic → Option Int32
  | add => some (x + y)
  | sub => some (x - y)
  | mul => some (x * y)
  | div => if y = 0 then none else some (x / y)
  | rem => if y = 0 then none else some (x % y)
  | shl => some (x <<< y)
  | shr => some (x >>> y)
  | ushr => some (x.toUInt32 >>> y.toUInt32).toInt32
  | and => some (x &&& y)
  | or => some (x ||| y)
  | xor => some (x ^^^ y)

/-- The instructions on integers without jumps. -/
inductive IntOp where
  | const (value : Int32)
  | load (slot : Nat)
  | store (slot : Nat)
  | increment (slot : Nat) (amount : Int32)
  | shuffle (op : Shuffle)
  | arithmetic (op : IntArithmetic)
  | negate
deriving DecidableEq, Repr

namespace IntOp

def ofOpcode? (opcode : UInt8) : Option IntOp :=
  match opcode.toNat with
  | 0x02 => some (.const (-1))
  | 0x03 => some (.const 0)
  | 0x04 => some (.const 1)
  | 0x05 => some (.const 2)
  | 0x06 => some (.const 3)
  | 0x07 => some (.const 4)
  | 0x08 => some (.const 5)
  | 0x57 => some (.shuffle .pop)
  | 0x58 => some (.shuffle .pop2)
  | 0x59 => some (.shuffle (.dup .dup))
  | 0x5a => some (.shuffle (.dup .dupX1))
  | 0x5b => some (.shuffle (.dup .dupX2))
  | 0x5c => some (.shuffle (.dup .dup2))
  | 0x5d => some (.shuffle (.dup .dup2X1))
  | 0x5e => some (.shuffle (.dup .dup2X2))
  | 0x5f => some (.shuffle .swap)
  | 0x60 => some (.arithmetic .add)
  | 0x64 => some (.arithmetic .sub)
  | 0x68 => some (.arithmetic .mul)
  | 0x6c => some (.arithmetic .div)
  | 0x70 => some (.arithmetic .rem)
  | 0x74 => some .negate
  | 0x78 => some (.arithmetic .shl)
  | 0x7a => some (.arithmetic .shr)
  | 0x7c => some (.arithmetic .ushr)
  | 0x7e => some (.arithmetic .and)
  | 0x80 => some (.arithmetic .or)
  | 0x82 => some (.arithmetic .xor)
  | _ => none

def ofInstruction? : Instruction → Option IntOp
  | .insn opcode => ofOpcode? opcode
  | .int opcode operand => if opcode = 0x10 ∨ opcode = 0x11 then some (.const operand) else none
  | .ldc (.int value) => some (.const value)
  | .var opcode slot =>
    if opcode = 0x15 then some (.load slot.toNat)
    else if opcode = 0x36 then some (.store slot.toNat)
    else none
  | .iinc slot amount => some (.increment slot.toNat amount.toInt32)
  | _ => none

end IntOp

/-- The operand stack, top first, and the integers in the local slots that have been written. -/
structure Machine where
  stack : List Int32
  locals : Nat → Option Int32

namespace Machine

def push (m : Machine) (x : Int32) : Machine := { m with stack := x :: m.stack }

def write (m : Machine) (slot : Nat) (x : Int32) : Machine :=
  { m with locals := fun i => if i = slot then some x else m.locals i }

/-- One instruction; none if an operand is missing, a slot was never written or zero divides. -/
def execute (m : Machine) : IntOp → Option Machine
  | .const x => some (m.push x)
  | .load slot => (m.locals slot).map m.push
  | .store slot =>
    match m.stack with
    | x :: rest => some (write { m with stack := rest } slot x)
    | [] => none
  | .increment slot amount => (m.locals slot).map fun x => m.write slot (x + amount)
  | .shuffle op =>
    if op.top + op.below ≤ m.stack.length then some { m with stack := op.onWords m.stack } else none
  | .arithmetic op =>
    match m.stack with
    | y :: x :: rest => (op.apply x y).map (push { m with stack := rest })
    | _ => none
  | .negate =>
    match m.stack with
    | x :: rest => some (push { m with stack := rest } (-x))
    | [] => none

/-- The arguments in the first slots, after the receiver if there is one. -/
def start (m : Method) (args : List Int32) : Machine where
  stack := []
  locals index := if m.isStatic then args[index]? else if index = 0 then none else args[index - 1]?

end Machine

/-- The machine after the first instructions of a method. -/
def machineAfter? (m : Method) (args : List Int32) : (count : Nat) → Option Machine
  | 0 => some (Machine.start m args)
  | count + 1 => (machineAfter? m args count).bind fun machine =>
      ((m.instructions[count]?).bind IntOp.ofInstruction?).bind machine.execute

/-! ## Simulated and real values -/

/-- Where a value can be: so deep in the stack, or in a local slot. -/
inductive Place where
  | entry (depth : Nat)
  | slot (index : Nat)
deriving DecidableEq, Repr

def State.at? (s : State) : Place → Option Value
  | .entry depth => s.stack[depth]?
  | .slot index => s.locals[index]?

def Machine.at? (m : Machine) : Place → Option Int32
  | .entry depth => m.stack[depth]?
  | .slot index => m.locals index

/-- A simulated value and the integer in the same place. -/
structure Holds (s : State) (m : Machine) (place : Place) (v : Value) (x : Int32) : Prop where
  value : s.at? place = some v
  number : m.at? place = some x

/-- The origins that tell which number a value is. -/
def Origin.isKnown : Origin → Bool
  | .constant (.int _) => true
  | .parameter _ _ => true
  | _ => false

/-! ## States and machines side by side -/

/-- The stacks are equally deep, and where the machine has an integer the simulation has a one-word
value that was made before. -/
structure Shadows (s : State) (m : Machine) : Prop where
  depth : s.stack.length = m.stack.length
  present : ∀ index x, m.locals index = some x → ∃ v, s.locals[index]? = some v
  oneWord : ∀ place v x, Holds s m place v x → v.category = some .one
  narrow : ∀ (index : Nat) v, s.locals[index]? = some v → v.category ≠ some .two
  made : ∀ place v x, Holds s m place v x → v.id ≤ s.created

/-- After an instruction every place holds what some place held before, or what the instruction made. -/
structure Advances (s : State) (m : Machine) (t : State) (m' : Machine)
    (made : Option (Value × Int32)) : Prop where
  shadows : Shadows t m'
  carried : ∀ place v x, Holds t m' place v x →
    (∃ source, Holds s m source v x) ∨ made = some (v, x)
  fresh : ∀ v x, made = some (v, x) → s.created < v.id
  constant : ∀ v x c, made = some (v, x) → v.origin = .constant (.int c) → x = c
  parameter : ∀ v x k slot, made = some (v, x) → v.origin ≠ .parameter k slot

/-! ## Instructions -/

theorem Shadows.exists_entry {s : State} {m : Machine} (h : Shadows s m) {x : Int32} {rest : List Int32}
    (hm : m.stack = x :: rest) : ∃ v below, s.stack = v :: below ∧ below.length = rest.length := by
  have hdepth := h.depth
  rw [hm] at hdepth
  cases hstack : s.stack with
  | nil => simp [hstack] at hdepth
  | cons v below => exact ⟨v, below, rfl, by simpa [hstack] using hdepth⟩

theorem Shadows.exists_two {s : State} {m : Machine} (h : Shadows s m) {y x : Int32}
    {rest : List Int32} (hm : m.stack = y :: x :: rest) :
    ∃ right left below, s.stack = right :: left :: below := by
  obtain ⟨right, stack, hright, hlength⟩ := h.exists_entry hm
  cases stack with
  | nil => simp at hlength
  | cons left below => exact ⟨right, left, below, hright⟩

/-- An instruction that makes nothing only has to keep the shape of the stack and of the slots. -/
theorem Shadows.carry {s t : State} {m m' : Machine} (h : Shadows s m)
    (hdepth : t.stack.length = m'.stack.length)
    (hpresent : ∀ index x, m'.locals index = some x → ∃ v, t.locals[index]? = some v)
    (hnarrow : ∀ (index : Nat) v, t.locals[index]? = some v → v.category ≠ some .two)
    (hcreated : s.created ≤ t.created)
    (hcarried : ∀ place v x, Holds t m' place v x → ∃ source, Holds s m source v x) :
    Advances s m t m' none := by
  refine ⟨⟨hdepth, hpresent, ?_, hnarrow, ?_⟩, ?_, ?_, ?_, ?_⟩
  · intro place v x hholds
    obtain ⟨source, hsource⟩ := hcarried place v x hholds
    exact h.oneWord source v x hsource
  · intro place v x hholds
    obtain ⟨source, hsource⟩ := hcarried place v x hholds
    exact Nat.le_trans (h.made source v x hsource) hcreated
  · intro place v x hholds
    exact .inl (hcarried place v x hholds)
  all_goals
    intros
    contradiction

theorem Advances.after {s t u : State} {m m' m'' : Machine} {made : Option (Value × Int32)}
    (h : Advances s m t m' none) (hcreated : s.created ≤ t.created)
    (h' : Advances t m' u m'' made) : Advances s m u m'' made where
  shadows := h'.shadows
  carried place v x hholds := by
    rcases h'.carried place v x hholds with ⟨source, hsource⟩ | hnew
    · rcases h.carried source v x hsource with hold | hnone
      · exact .inl hold
      · cases hnone
    · exact .inr hnew
  fresh v x hnew := Nat.lt_of_le_of_lt hcreated (h'.fresh v x hnew)
  constant := h'.constant
  parameter := h'.parameter

/-- Values may be removed from the tops of both stacks. -/
theorem Shadows.drop {s : State} {m : Machine} (h : Shadows s m) (count : Nat) :
    Advances s m { s with stack := s.stack.drop count } { m with stack := m.stack.drop count } none := by
  refine h.carry (by simp [h.depth]) h.present h.narrow (Nat.le_refl _) ?_
  rintro (depth | index) v x ⟨hv, hx⟩
  · simp only [State.at?, Machine.at?, List.getElem?_drop] at hv hx
    exact ⟨.entry (count + depth), hv, hx⟩
  · exact ⟨.slot index, hv, hx⟩

/-- What is on top after a push, and elsewhere what was there before. -/
theorem holds_push {s t : State} {m : Machine} {v w : Value} {x y : Int32} {place : Place}
    (h : Holds t (m.push x) place w y) (hstack : t.stack = v :: s.stack) (hlocals : t.locals = s.locals) :
    (∃ source, Holds s m source w y) ∨ v = w ∧ x = y := by
  obtain ⟨hw, hy⟩ := h
  match place with
  | .entry 0 =>
    simp only [State.at?, Machine.at?, Machine.push, hstack, List.getElem?_cons_zero,
      Option.some.injEq] at hw hy
    exact .inr ⟨hw, hy⟩
  | .entry (depth + 1) =>
    simp only [State.at?, Machine.at?, Machine.push, hstack, List.getElem?_cons_succ] at hw hy
    exact .inl ⟨.entry depth, hw, hy⟩
  | .slot index =>
    simp only [State.at?, hlocals] at hw
    exact .inl ⟨.slot index, hw, hy⟩

/-- A fresh one-word value goes on the simulated stack as its number goes on the real one. -/
theorem Shadows.pushFresh {s : State} {m : Machine} (h : Shadows s m) {v : Value} {x : Int32}
    (hid : v.id = s.created + 1) (hv : v.category = some .one)
    (hconstant : ∀ c, v.origin = .constant (.int c) → x = c)
    (hparameter : ∀ k slot, v.origin ≠ .parameter k slot) :
    Advances s m { s with stack := v :: s.stack, created := s.created + 1 } (m.push x)
      (some (v, x)) := by
  have hcarried : ∀ place w y,
      Holds { s with stack := v :: s.stack, created := s.created + 1 } (m.push x) place w y →
      (∃ source, Holds s m source w y) ∨ some (v, x) = some (w, y) := by
    intro place w y hholds
    rcases holds_push hholds rfl rfl with hold | ⟨rfl, rfl⟩
    · exact .inl hold
    · exact .inr rfl
  refine ⟨⟨?_, h.present, ?_, h.narrow, ?_⟩, hcarried, ?_, ?_, ?_⟩
  · simp [Machine.push, h.depth]
  · intro place w y hholds
    rcases hcarried place w y hholds with ⟨source, hsource⟩ | hnew
    · exact h.oneWord source w y hsource
    · cases hnew
      exact hv
  · intro place w y hholds
    rcases hcarried place w y hholds with ⟨source, hsource⟩ | hnew
    · exact Nat.le_succ_of_le (h.made source w y hsource)
    · cases hnew
      exact Nat.le_of_eq hid
  · intro w y hnew
    cases hnew
    omega
  · intro w y c hnew
    cases hnew
    exact hconstant c
  · intro w y k slot hnew
    cases hnew
    exact hparameter k slot

/-- The operands of an instruction give way to its result. -/
theorem Shadows.replace {s : State} {m : Machine} (h : Shadows s m) (count : Nat) {v : Value} {x : Int32}
    (hid : v.id = s.created + 1) (hv : v.category = some .one) (horigin : v.origin.isKnown = false) :
    Advances s m { s with stack := v :: s.stack.drop count, created := s.created + 1 }
      (Machine.push { m with stack := m.stack.drop count } x) (some (v, x)) := by
  have hdrop := h.drop count
  refine hdrop.after (Nat.le_refl _) (hdrop.shadows.pushFresh hid hv ?_ ?_)
  · intro c hc
    rw [hc] at horigin
    cases horigin
  · intro k slot hk
    rw [hk] at horigin
    cases horigin

theorem Shadows.load {s : State} {m : Machine} (h : Shadows s m) {slot : Nat} {v : Value} {x : Int32}
    (hv : s.locals[slot]? = some v) (hx : m.locals slot = some x) :
    Advances s m { s with stack := v :: s.stack } (m.push x) none := by
  refine h.carry (by simp [Machine.push, h.depth]) h.present h.narrow (Nat.le_refl _) ?_
  intro place w y hholds
  rcases holds_push hholds rfl rfl with hold | ⟨rfl, rfl⟩
  · exact hold
  · exact ⟨.slot slot, hv, hx⟩

/-- A store keeps every other slot: there are no two-word values that it could cut. -/
theorem Shadows.store {s t : State} {m : Machine} (h : Shadows s m) {slot : Nat} {v : Value}
    {x : Int32} {below : List Value} {rest : List Int32} (hstack : s.stack = v :: below)
    (hm : m.stack = x :: rest) (hstores : Sim.Stores slot v { s with stack := below } t) :
    Advances s m t (Machine.write { m with stack := rest } slot x) none := by
  have htop : Holds s m (.entry 0) v x := ⟨by simp [State.at?, hstack], by simp [Machine.at?, hm]⟩
  have hone := h.oneWord _ _ _ htop
  have hsame : ∀ (index : Nat) y, index ≠ slot → m.locals index = some y →
      t.locals[index]? = s.locals[index]? := by
    intro index y hne hy
    obtain ⟨w, hw⟩ := h.present index y hy
    have hwide : w.category ≠ some .two := h.narrow index w hw
    have hkept := hstores.kept index w hne hw (by simp [hone]) (fun _ => hwide)
    rw [hkept, hw]
  refine h.carry ?_ ?_ ?_ hstores.created ?_
  · have hdepth := h.depth
    rw [hstack, hm] at hdepth
    rw [hstores.stack]
    simpa [Machine.write] using hdepth
  · intro index y hy
    simp only [Machine.write] at hy
    by_cases hindex : index = slot
    · exact ⟨v, by rw [hindex, hstores.stored]⟩
    · rw [if_neg hindex] at hy
      obtain ⟨w, hw⟩ := h.present index y hy
      exact ⟨w, by rw [hsame index y hindex hy, hw]⟩
  · intro index w hw
    by_cases hindex : index = slot
    · rw [hindex, hstores.stored] at hw
      cases hw
      simp [hone]
    · rcases hstores.other index hindex with hold | ⟨lost, hlost, hkind⟩
      · rw [hold] at hw
        exact h.narrow index w hw
      · rw [hlost] at hw
        cases hw
        simp [Sim.category_of_unusable hkind]
  · rintro (depth | index) w y ⟨hw, hy⟩
    · simp only [State.at?, Machine.at?, Machine.write, hstores.stack] at hw hy
      refine ⟨.entry (depth + 1), ?_, ?_⟩
      · simp [State.at?, hstack, hw]
      · simp [Machine.at?, hm, hy]
    · simp only [State.at?, Machine.at?, Machine.write] at hw hy
      by_cases hindex : index = slot
      · rw [if_pos hindex] at hy
        rw [hindex, hstores.stored] at hw
        cases hw
        cases hy
        exact ⟨.entry 0, htop⟩
      · rw [if_neg hindex] at hy
        rw [hsame index y hindex hy] at hw
        exact ⟨.slot index, hw, hy⟩

theorem Shuffle.map_onWords {α β : Type} (f : α → β) (op : Shuffle) (l : List α) :
    (op.onWords l).map f = op.onWords (l.map f) := by
  rw [Shuffle.onWords, Shuffle.onWords, List.map_append, List.map_drop,
    op.move_append (List.map f) fun l l' => List.map_append, List.map_take, List.map_take, List.map_drop]

theorem Shuffle.mem_of_mem_onWords {α : Type} {op : Shuffle} {l : List α} {a : α}
    (h : a ∈ op.onWords l) : a ∈ l := by
  have htop : a ∈ l.take op.top → a ∈ l := List.mem_of_mem_take
  have hbelow : a ∈ (l.drop op.top).take op.below → a ∈ l := fun ha =>
    List.mem_of_mem_drop (List.mem_of_mem_take ha)
  rcases List.mem_append.mp h with hmoved | hrest
  · cases op with
    | pop | pop2 => exact hbelow hmoved
    | dup form =>
      rcases List.mem_append.mp hmoved with hboth | hcopy
      · exact (List.mem_append.mp hboth).elim htop hbelow
      · exact htop hcopy
    | swap => exact (List.mem_append.mp hmoved).elim hbelow htop
  · exact List.mem_of_mem_drop hrest

theorem length_of_fills {count : Nat} {entries : List Value} (h : Fills count entries)
    (hone : ∀ v ∈ entries, v.category = some .one) : entries.length = count := by
  rw [← h.count]
  clear h
  induction entries with
  | nil => rfl
  | cons v rest ih =>
    have hlength := length_words (hone v List.mem_cons_self)
    have hrest := ih fun w hw => hone w (List.mem_cons_of_mem v hw)
    simp only [wordsOf, List.flatMap_cons, List.length_append, List.length_cons, Category.words] at *
    omega

theorem Shadows.category_stack {s : State} {m : Machine} (h : Shadows s m) {v : Value}
    (hv : v ∈ s.stack) : v.category = some .one := by
  obtain ⟨depth, hdepth, hget⟩ := List.getElem_of_mem hv
  have hbound : depth < m.stack.length := by
    rw [← h.depth]
    exact hdepth
  refine h.oneWord (.entry depth) v m.stack[depth] ⟨?_, ?_⟩
  · rw [State.at?, List.getElem?_eq_getElem hdepth, hget]
  · rw [Machine.at?, List.getElem?_eq_getElem hbound]

/-- Among one-word values a shuffle moves entries as it moves words. -/
theorem Shadows.shuffle {s : State} {m : Machine} (h : Shadows s m) {op : Shuffle}
    {upper lower rest : List Value} (hdivides : op.Divides s.stack upper lower rest) :
    Advances s m { s with stack := op.move upper lower ++ rest }
      { m with stack := op.onWords m.stack } none := by
  have hmem : ∀ v ∈ upper ++ lower, v.category = some .one := by
    intro v hv
    refine h.category_stack ?_
    rw [hdivides.stack]
    exact List.mem_append_left rest hv
  have hupper := length_of_fills hdivides.upper fun v hv => hmem v (List.mem_append_left lower hv)
  have hlower := length_of_fills hdivides.lower fun v hv => hmem v (List.mem_append_right upper hv)
  have hwords : op.move upper lower ++ rest = op.onWords s.stack := by
    rw [hdivides.stack, op.onWords_append hupper hlower]
  -- both stacks are projections of the list of pairs, and the pairs are moved
  obtain ⟨pairs, hvalues, hnumbers⟩ : ∃ pairs : List (Value × Int32),
      s.stack = pairs.map Prod.fst ∧ m.stack = pairs.map Prod.snd :=
    ⟨s.stack.zip m.stack, (List.map_fst_zip (Nat.le_of_eq h.depth)).symm,
      (List.map_snd_zip (Nat.le_of_eq h.depth.symm)).symm⟩
  refine h.carry ?_ h.present h.narrow (Nat.le_refl _) ?_
  · simp [hwords, hvalues, hnumbers, ← Shuffle.map_onWords]
  · rintro (depth | index) v x ⟨hv, hx⟩
    · simp only [State.at?, Machine.at?, hwords, hvalues, hnumbers, ← Shuffle.map_onWords,
        List.getElem?_map] at hv hx
      obtain ⟨⟨v', x'⟩, hpair, rfl⟩ := Option.map_eq_some_iff.mp hv
      rw [hpair, Option.map_some, Option.some.injEq] at hx
      subst hx
      obtain ⟨source, hsource, hget⟩ :=
        List.getElem_of_mem (Shuffle.mem_of_mem_onWords (List.mem_of_getElem? hpair))
      have hsome : pairs[source]? = some (v', x') := by
        rw [List.getElem?_eq_getElem hsource, hget]
      exact ⟨.entry source, by simp [State.at?, hvalues, hsome], by simp [Machine.at?, hnumbers, hsome]⟩
    · exact ⟨.slot index, hv, hx⟩

/-- What the simulation does for an instruction on integers. -/
def IntOp.simulate (position : Nat) : IntOp → Sim Unit
  | .const x => Sim.value "I" (.constant (.int x)) >>= Sim.push
  | .load slot => Sim.applyVar 0x15 slot
  | .store slot => Sim.pop >>= Sim.storeLocal slot
  | .increment _ _ => pure ()
  | .shuffle op => Sim.applyEffect position op.effect
  | .arithmetic _ => Sim.binary "I" (.arithmetic position)
  | .negate => Sim.unary "I" (.negation position)

set_option maxRecDepth 2000 in
theorem IntOp.applyEffect_of_ofOpcode? {opcode : UInt8} {op : IntOp} (h : ofOpcode? opcode = some op)
    (position : Nat) : ∃ effect, Effect.ofOpcode? opcode = some effect ∧
      Sim.applyEffect position effect = op.simulate position := by
  have hopcode : UInt8.ofNat opcode.toNat = opcode := UInt8.ofNat_toNat
  unfold ofOpcode? at h
  split at h
  all_goals cases h
  all_goals
    rename_i hnat
    rw [hnat] at hopcode
    subst hopcode
    exact ⟨_, rfl, rfl⟩

theorem IntOp.step_eq {i : Instruction} {op : IntOp} (h : ofInstruction? i = some op) (b : Body)
    (position : Nat) : Sim.step b position i = op.simulate position := by
  cases i with
  | insn opcode =>
    obtain ⟨effect, heffect, hsame⟩ := applyEffect_of_ofOpcode? h position
    simp only [Sim.step, heffect, hsame]
  | int opcode operand =>
    simp only [ofInstruction?] at h
    split at h
    · rename_i hopcode
      cases h
      rcases hopcode with rfl | rfl <;> rfl
    · cases h
  | ldc constant =>
    cases constant with
    | int value =>
      cases h
      rfl
    | _ => cases h
  | var opcode slot =>
    simp only [ofInstruction?] at h
    split at h
    · rename_i hopcode
      cases h
      rw [hopcode]
      rfl
    · split at h
      · rename_i hopcode
        cases h
        rw [hopcode]
        rfl
      · cases h
  | iinc slot amount =>
    cases h
    rfl
  | _ => cases h

theorem Sim.binary_cons {descriptor : String} {origin : Value → Value → Origin} {s : State}
    {right left : Value} {rest : List Value} (h : s.stack = right :: left :: rest) :
    binary descriptor origin s = .ok ((), { s with
      stack := .mk (s.created + 1) (some descriptor) true false (origin left right) :: rest
      created := s.created + 1 }) := by
  obtain ⟨stack, locals, widths, created⟩ := s
  cases h
  rfl

theorem Sim.unary_cons {descriptor : String} {origin : Value → Origin} {s : State} {operand : Value}
    {rest : List Value} (h : s.stack = operand :: rest) :
    unary descriptor origin s = .ok ((), { s with
      stack := .mk (s.created + 1) (some descriptor) true false (origin operand) :: rest
      created := s.created + 1 }) := by
  obtain ⟨stack, locals, widths, created⟩ := s
  cases h
  rfl

theorem Sim.load_eq {s : State} {slot : Nat} {v : Value} (h : s.locals[slot]? = some v) :
    applyVar 0x15 slot s = .ok ((), { s with stack := v :: s.stack }) := by
  have hget : (get : Sim State) s = .ok (s, s) := rfl
  rw [applyVar, if_pos (by decide), bind_of_ok hget, h]
  rfl

/-- An instruction keeps the machine next to the simulation, except that an increment leaves the
simulation as it is. -/
theorem IntOp.advances_or_increments {position : Nat} {op : IntOp} {s t : State} {m m' : Machine}
    (h : Shadows s m) (hs : op.simulate position s = .ok ((), t)) (hm : m.execute op = some m') :
    ((∀ slot amount, op ≠ .increment slot amount) ∧ ∃ made, Advances s m t m' made) ∨
      ∃ slot amount x, op = .increment slot amount ∧ t = s ∧ m.locals slot = some x ∧
        m' = m.write slot (x + amount) := by
  cases op with
  | const x =>
    cases hs
    cases hm
    refine .inl ⟨nofun, _, h.pushFresh rfl rfl ?_ ?_⟩
    · intro c horigin
      cases horigin
      rfl
    · intro k slot horigin
      cases horigin
  | load slot =>
    obtain ⟨x, hx, rfl⟩ := Option.map_eq_some_iff.mp hm
    obtain ⟨v, hv⟩ := h.present slot x hx
    rw [simulate, Sim.load_eq hv] at hs
    cases hs
    exact .inl ⟨nofun, _, h.load hv hx⟩
  | store slot =>
    cases hstack : m.stack with
    | nil => simp [Machine.execute, hstack] at hm
    | cons x rest =>
      obtain ⟨v, below, hv, -⟩ := h.exists_entry hstack
      simp only [Machine.execute, hstack, Option.some.injEq] at hm
      subst hm
      obtain ⟨t', ht', hstores⟩ := Sim.storeLocal_spec slot v { s with stack := below }
      rw [simulate, Sim.bind_of_ok (Sim.pop_cons hv), ht'] at hs
      cases hs
      exact .inl ⟨nofun, _, h.store hv hstack hstores⟩
  | increment slot amount =>
    cases hs
    obtain ⟨x, hx, rfl⟩ := Option.map_eq_some_iff.mp hm
    exact .inr ⟨slot, amount, x, rfl, rfl, hx, rfl⟩
  | shuffle op =>
    rcases Sim.divides_or_malformed position op s with ⟨upper, lower, rest, hdivides⟩ | ⟨cause, hcause⟩
    · rw [simulate, Sim.applyEffect_of_divides position hdivides] at hs
      cases hs
      rw [Machine.execute] at hm
      split at hm
      · cases hm
        exact .inl ⟨nofun, _, h.shuffle hdivides⟩
      · cases hm
    · rw [simulate, hcause] at hs
      cases hs
  | arithmetic op =>
    match hstack : m.stack with
    | [] => simp [Machine.execute, hstack] at hm
    | [y] => simp [Machine.execute, hstack] at hm
    | y :: x :: rest =>
      obtain ⟨right, left, below, hright⟩ := h.exists_two hstack
      simp only [Machine.execute, hstack] at hm
      obtain ⟨z, -, rfl⟩ := Option.map_eq_some_iff.mp hm
      rw [simulate, Sim.binary_cons hright] at hs
      cases hs
      have hreplace := h.replace 2 (x := z)
        (v := .mk (s.created + 1) (some "I") true false (.arithmetic position left right)) rfl rfl rfl
      rw [hright, hstack] at hreplace
      exact .inl ⟨nofun, _, hreplace⟩
  | negate =>
    cases hstack : m.stack with
    | nil => simp [Machine.execute, hstack] at hm
    | cons x rest =>
      obtain ⟨operand, below, hoperand, -⟩ := h.exists_entry hstack
      simp only [Machine.execute, hstack, Option.some.injEq] at hm
      subst hm
      rw [simulate, Sim.unary_cons hoperand] at hs
      cases hs
      have hreplace := h.replace 1 (x := -x)
        (v := .mk (s.created + 1) (some "I") true false (.negation position operand)) rfl rfl rfl
      rw [hoperand, hstack] at hreplace
      exact .inl ⟨nofun, _, hreplace⟩

end Classmith.Simulation
