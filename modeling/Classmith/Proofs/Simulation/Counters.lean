import Classmith.Proofs.Simulation.Tracking

/-!
# Steps that check what they do

Values are numbered by a counter that shows no number above a largest one: after it the counter starts again at zero,
or there is nothing to go on with. A checked step asks such a counter for each number, and it has no result at all
when the counter stops or when it looks for something where nothing is. It agrees with a step if it does the same
up to the numbers that the counter shows, as long as the counter does not stop.
-/
namespace Classmith.Simulation

/-! ## Counters -/

/-- A counter up to a largest number, after which it starts again or stops. -/
structure Counter where
  largest : Nat
  wraps : Bool

namespace Counter

/-- The number after the one that the counter shows. -/
def next? (k : Counter) (n : Nat) : Option Nat :=
  if n < k.largest then some (n + 1) else if k.wraps then some 0 else none

/-- What the counter shows when so many numbers have been asked for. -/
def shows (k : Counter) (n : Nat) : Nat := if k.wraps then n % (k.largest + 1) else n

/-- Whether so many numbers can be asked for. -/
def reaches (k : Counter) (n : Nat) : Bool := k.wraps || decide (n ≤ k.largest)

variable {k : Counter}

end Counter

/-! ## Numbers that a counter shows -/

/-- A value with the numbers that a counter shows for it and for the values it comes from. -/
def Value.shown (k : Counter) : Value → Value := Value.map k.shows (fun d => d) (fun c => c)

def Origin.shown (k : Counter) : Origin → Origin := Origin.map k.shows (fun d => d) (fun c => c)

def State.shown (k : Counter) (s : State) : State where
  stack := s.stack.map (Value.shown k)
  locals := s.locals.map (Value.shown k)
  widths := s.widths
  created := k.shows s.created

section Observations

variable (k : Counter) (v : Value)

@[simp] theorem Value.descriptor_shown : (v.shown k).descriptor = v.descriptor := by
  cases v
  exact Option.map_id_apply

@[simp] theorem Value.isValid_shown : (v.shown k).isValid = v.isValid := by cases v; rfl

variable (s : State)

@[simp] theorem State.length_stack_shown : (s.shown k).stack.length = s.stack.length := List.length_map _

end Observations

/-! ## Agreement -/

/-- A step that checks what it does. There is nothing instead of a result or a fault when a check fails. -/
abbrev Checked := StateT State (ExceptT Fault Option)

namespace Checked

/-- A step that makes no value and finds nothing by its position. -/
def lift {α : Type} (x : Sim α) : Checked α := fun s => ExceptT.mk (some (x s))

/-- What an access has found. -/
def access {α : Type} (found : Option α) : Checked α :=
  fun s => ExceptT.mk (found.map fun a => .ok (a, s))

/-- From the state the step makes values up to some number. With a counter that reaches it the checked step ends as
the step does, up to the numbers shown, and with any other counter it has no result. -/
def Agrees {α β : Type} (f : Counter → α → β) (x : Counter → Checked β) (y : Sim α) (s : State) : Prop :=
  ∃ made, s.created ≤ made ∧ (∀ a t, y s = .ok (a, t) → t.created = made) ∧
    ∀ k : Counter, k.reaches s.created = true → x k (s.shown k) =
      ExceptT.mk (if k.reaches made then some ((y s).map fun result => (f k result.1, result.2.shown k)) else none)

section

variable {α β γ δ : Type} {s : State}

theorem bind_of_error {x : Checked α} {fault : Fault} (h : x s = ExceptT.mk (some (.error fault)))
    (c : α → Checked β) : (x >>= c) s = ExceptT.mk (some (.error fault)) := by
  simp only [bind, StateT.bind, ExceptT.bind, h]
  rfl

theorem bind_of_ok {x : Checked α} {a : α} {t : State} (h : x s = ExceptT.mk (some (.ok (a, t))))
    (c : α → Checked β) : (x >>= c) s = c a t := by
  simp only [bind, StateT.bind, ExceptT.bind, h]
  rfl

end

/-! ## Making values -/

/-- Asks the counter for the next number. -/
def number (k : Counter) : Checked Nat := do
  let s ← get
  let next ← access (k.next? s.created)
  set { s with created := next }
  return next

def fresh (k : Counter) (descriptor : Option String) (isValid isNull : Bool) (origin : Origin) : Checked Value :=
  return .mk (← number k) descriptor isValid isNull origin

def value (k : Counter) (descriptor : String) (origin : Origin) : Checked Value :=
  fresh k (some descriptor) true false origin

def invalid (k : Counter) : Checked Value := fresh k none false false .invalid

/-- Adds undefined slots, each with a value of its own. -/
def fill (k : Counter) : (count : Nat) → Checked Unit
  | 0 => pure ()
  | count + 1 => do
    let v ← fresh k none false false .undefined
    lift (Sim.pushLocal v)
    fill k count

def ensureLocals (k : Counter) (count : Nat) : Checked Unit := do
  fill k (count - (← get).locals.length)

section

variable {s : State}

end

end Checked

end Classmith.Simulation
