import Classmith.Proofs.Simulation.Profiles

/-!
# What frames declare

The kinds of the values that a frame declares, and what a frame makes of a state. A full frame settles
every slot, whatever was in it; the other frames settle the stack and the slots they name.
-/
namespace Classmith

open Simulation (Body Kind Value)

/-- A value that cannot be used. -/
def Simulation.Value.unusable (id : Nat) : Value := .mk id none false false .invalid

/-- A value of the field type that a frame at a position declares. -/
def Simulation.Value.declared (position : Nat) (descriptor : String) (id : Nat) : Value :=
  .mk id (some descriptor) true false (.frame position)

@[simp] theorem Simulation.Value.kind_unusable (id : Nat) : (Value.unusable id).kind = .unusable := rfl

@[simp] theorem Simulation.Value.kind_declared (position : Nat) (descriptor : String) (id : Nat) :
    (Value.declared position descriptor id).kind = .ofType descriptor := rfl

namespace FrameValue

/-- The slots that a local of a verification type takes. -/
def width : FrameValue → Nat
  | .long | .double => 2
  | _ => 1

/-- The value that an entry of a frame at a position declares, for the number it gets. There is none if the entry
refers to an allocation that the body does not have. -/
def make? (b : Body) (position : Nat) : FrameValue → Option (Nat → Value)
  | .top => some .unusable
  | .null => some fun id => .mk id none true true (.frame position)
  | .integer => some (.declared position "I")
  | .float => some (.declared position "F")
  | .long => some (.declared position "J")
  | .double => some (.declared position "D")
  | .uninitializedThis => some (.declared position (Descriptor.ofName b.owner))
  | .object name => some (.declared position (Descriptor.ofName name))
  | .uninitialized label => (b.allocated label).toOption.map (Value.declared position)

def make (b : Body) (position : Nat) (entry : FrameValue) : Nat → Value :=
  (entry.make? b position).getD Value.unusable

/-- The kind of a declared value, which depends neither on its number nor on the position of the frame. -/
def kind? (b : Body) (entry : FrameValue) : Option Kind := (entry.make? b 0).map fun make => (make 0).kind

def kind (b : Body) (entry : FrameValue) : Kind := (entry.kind? b).getD .unusable

/-- What the slots of a declared local get: one thing for the value, and another one for a second word. -/
def slots {α : Type} (entry : FrameValue) (first second : α) : List α :=
  first :: List.replicate (entry.width - 1) second

def slotValues (b : Body) (position : Nat) (entry : FrameValue) : List (Nat → Value) :=
  entry.slots (entry.make b position) Value.unusable

def slotKinds (b : Body) (entry : FrameValue) : List Kind := entry.slots (entry.kind b) .unusable

theorem width_eq (entry : FrameValue) : entry.width = 1 ∨ entry.width = 2 := by
  cases entry <;> simp [width]

theorem length_slots {α : Type} (entry : FrameValue) (first second : α) :
    (entry.slots first second).length = entry.width := by
  cases entry <;> rfl

theorem kind_make (b : Body) (position : Nat) (entry : FrameValue) (id : Nat) :
    (entry.make b position id).kind = entry.kind b := by
  cases entry with
  | uninitialized label =>
    simp only [make, kind, kind?, make?]
    cases (b.allocated label).toOption <;> rfl
  | _ => rfl

end FrameValue

namespace Frame

/-- The locals that are declared after a frame, from those declared before it. -/
def localsAfter (current : List FrameValue) : Frame → List FrameValue
  | .same | .same1 _ => current
  | .append more => current ++ more
  | .chop count => current.take (current.length - count.toNat)
  | .full locals _ => locals

/-- The stack that a frame declares, with the bottom first. -/
def stackEntries : Frame → List FrameValue
  | .same1 entry => [entry]
  | .full _ stack => stack
  | _ => []

end Frame

namespace Simulation

/-- The entries of a frame have kinds. -/
def Known (b : Body) (entries : List FrameValue) : Prop :=
  ∀ entry ∈ entries, (entry.kind? b).isSome = true

def slotKinds (b : Body) (entries : List FrameValue) : List Kind :=
  entries.flatMap (FrameValue.slotKinds b)

def slotValues (b : Body) (position : Nat) (entries : List FrameValue) : List (Nat → Value) :=
  entries.flatMap (FrameValue.slotValues b position)

/-- The widths of declared locals as a state records them. -/
def widthsOf (entries : List FrameValue) : List Nat := (entries.map FrameValue.width).reverse

theorem length_slotKinds_append (b : Body) (l l' : List FrameValue) :
    (slotKinds b (l ++ l')).length = (slotKinds b l).length + (slotKinds b l').length := by
  rw [slotKinds, List.flatMap_append, List.length_append]
  rfl

theorem length_slotValues (b : Body) (position : Nat) (entries : List FrameValue) :
    (slotValues b position entries).length = (slotKinds b entries).length := by
  simp only [slotValues, slotKinds, List.length_flatMap, FrameValue.slotValues, FrameValue.slotKinds,
    FrameValue.length_slots]

theorem foldl_add_eq (l : List Nat) (n : Nat) : l.foldl (· + ·) n = n + l.foldl (· + ·) 0 := by
  induction l generalizing n with
  | nil => rfl
  | cons a rest ih =>
    rw [List.foldl_cons, List.foldl_cons, ih, ih (0 + a)]
    omega

theorem foldr_add_eq (l : List Nat) : l.foldr (· + ·) 0 = l.foldl (· + ·) 0 := by
  induction l with
  | nil => rfl
  | cons width rest ih => rw [List.foldr_cons, List.foldl_cons, foldl_add_eq, ih, Nat.zero_add]

/-- Declared locals take as many slots as there are kinds. -/
theorem declaredSlots_eq {s : State} {entries : List FrameValue} {widths : List Nat} (b : Body)
    (h : s.widths = widthsOf entries ++ widths) :
    s.declaredSlots = (slotKinds b entries).length + widths.foldl (· + ·) 0 := by
  rw [State.declaredSlots, h]
  clear h
  induction entries with
  | nil => simp [widthsOf, slotKinds]
  | cons entry rest ih =>
    have hcons : widthsOf (entry :: rest) = widthsOf rest ++ [entry.width] := by simp [widthsOf]
    have hlength := length_slotKinds_append b [entry] rest
    have hentry : (slotKinds b [entry]).length = entry.width := by
      simp [slotKinds, FrameValue.slotKinds, FrameValue.length_slots]
    rw [List.foldl_append, foldl_add_eq] at ih
    rw [hcons, List.foldl_append, List.foldl_append, foldl_add_eq, List.foldl_cons, List.foldl_nil]
    rw [List.cons_append, List.nil_append] at hlength
    omega

namespace Sim

variable {b : Body} {position : Nat} {s t : State}

theorem exists_of_bind {α β : Type} {x : Sim α} {k : α → Sim β} {s u : State} {c : β}
    (h : (x >>= k) s = .ok (c, u)) : ∃ a t, x s = .ok (a, t) ∧ k a t = .ok (c, u) := by
  cases hx : x s with
  | error fault =>
    rw [bind_of_error hx] at h
    cases h
  | ok result =>
    obtain ⟨a, t⟩ := result
    rw [bind_of_ok hx] at h
    exact ⟨a, t, rfl, h⟩

/-! ## Entries -/

theorem frameValue_make (position : Nat) {entry : FrameValue} (h : (entry.kind? b).isSome = true) (s : State) :
    frameValue b position entry s =
      .ok ((entry.make b position (s.created + 1), entry.width), { s with created := s.created + 1 }) := by
  cases entry with
  | uninitialized label =>
    cases hallocated : b.allocated label with
    | error cause => simp [FrameValue.kind?, FrameValue.make?, hallocated, Except.toOption] at h
    | ok d =>
      simp only [frameValue, FrameValue.make, FrameValue.make?, hallocated]
      rfl
  | _ => rfl

theorem frameValue_known (position : Nat) {entry : FrameValue} (h : (entry.kind? b).isSome = true)
    (s : State) : ∃ v, frameValue b position entry s =
      .ok ((v, entry.width), { s with created := s.created + 1 }) ∧ v.kind = entry.kind b :=
  ⟨_, frameValue_make position h s, entry.kind_make b position _⟩

theorem known_of_frameValue {entry : FrameValue} {r : Value × Nat}
    (h : frameValue b position entry s = .ok (r, t)) : (entry.kind? b).isSome = true := by
  cases entry with
  | uninitialized label =>
    simp only [frameValue] at h
    cases hallocated : b.allocated label with
    | error cause =>
      rw [hallocated] at h
      cases h
    | ok d => simp [FrameValue.kind?, FrameValue.make?, hallocated, Except.toOption]
  | _ => rfl

theorem frameValue_spec {entry : FrameValue} {v : Value} {width : Nat}
    (h : frameValue b position entry s = .ok ((v, width), t)) :
    v.kind = entry.kind b ∧ t = { s with created := s.created + 1 } := by
  obtain ⟨w, hw, hkind⟩ := frameValue_known position (known_of_frameValue h) s
  rw [hw] at h
  cases h
  exact ⟨hkind, rfl⟩

/-! ## Locals -/

theorem set_padded {α : Type} (l : List α) (pad a : α) {slot : Nat} (h : slot ≤ l.length) :
    (l ++ List.replicate (slot + 1 - l.length) pad).set slot a =
      l.take slot ++ [a] ++ l.drop (slot + 1) := by
  obtain ⟨front, rest, rfl, rfl⟩ : ∃ front rest, l = front ++ rest ∧ slot = front.length :=
    ⟨l.take slot, l.drop slot, (List.take_append_drop slot l).symm, (List.length_take_of_le h).symm⟩
  cases rest <;> simp

theorem set_set_padded {α : Type} (l : List α) (pad a a' : α) {slot : Nat} (h : slot ≤ l.length) :
    ((l ++ List.replicate (slot + 2 - l.length) pad).set slot a).set (slot + 1) a' =
      l.take slot ++ [a, a'] ++ l.drop (slot + 2) := by
  obtain ⟨front, rest, rfl, rfl⟩ : ∃ front rest, l = front ++ rest ∧ slot = front.length :=
    ⟨l.take slot, l.drop slot, (List.take_append_drop slot l).symm, (List.length_take_of_le h).symm⟩
  -- the slots that are there already: none, one, or both
  rcases rest with _ | ⟨_, _ | ⟨_, rest⟩⟩
  · simp [List.replicate_succ]
  · simp
  · simp

theorem ensureLocals_ok (count : Nat) (s : State) : ∃ t, ensureLocals count s = .ok ((), t) ∧
    t.stack = s.stack ∧ t.widths = s.widths ∧ t.locals.map Value.kind =
      s.locals.map Value.kind ++ List.replicate (count - s.locals.length) .unusable := by
  refine ⟨_, rfl, rfl, rfl, ?_⟩
  rw [List.map_append, List.map_map]
  congr 1
  apply List.ext_getElem?
  intro i
  by_cases hi : i < count - s.locals.length
  · simp [hi, Value.kind, Kind.unusable, Value.isValid, Value.isNull, Value.descriptor]
  · simp [hi]

/-- The second state is the first one with more locals declared. -/
structure Declares (b : Body) (entries : List FrameValue) (s t : State) : Prop where
  stack : t.stack = s.stack
  widths : t.widths = widthsOf entries ++ s.widths
  locals : t.locals.map Value.kind = (s.locals.map Value.kind).take s.declaredSlots ++
    slotKinds b entries ++
      (s.locals.map Value.kind).drop (s.declaredSlots + (slotKinds b entries).length)

theorem declareLocal_known (position : Nat) {entry : FrameValue}
    (h : (entry.kind? b).isSome = true) (hroom : s.HasRoom) :
    ∃ t, declareLocal b position entry s = .ok ((), t) ∧ Declares b [entry] s t := by
  obtain ⟨v, hvalue, hkind⟩ := frameValue_known position h s
  obtain ⟨u, hensure, hstack, hwidths, hlocals⟩ :=
    ensureLocals_ok (s.declaredSlots + entry.width) { s with created := s.created + 1 }
  have hget : (get : Sim State) s = .ok (s, s) := rfl
  have hslots : slotKinds b [entry] = entry.slotKinds b := by simp [slotKinds]
  have hroom' : s.declaredSlots ≤ (s.locals.map Value.kind).length := by
    rw [List.length_map]
    exact hroom
  rw [declareLocal_eq, bind_of_ok hget, bind_of_ok hvalue, bind_of_ok hensure]
  rcases entry.width_eq with hone | hwide
  · simp only [hone]
    refine ⟨_, rfl, hstack, ?_, ?_⟩
    · simp [widthsOf, hone, hwidths]
    · have hset := set_padded _ Kind.unusable v.kind hroom'
      rw [List.length_map] at hset
      rw [hslots, FrameValue.slotKinds, FrameValue.length_slots, hone]
      simp only [FrameValue.slots, hone, ← hkind, List.map_set, hlocals]
      exact hset
  · simp only [hwide, if_true]
    refine ⟨_, rfl, hstack, ?_, ?_⟩
    · simp [widthsOf, hwide, hwidths]
    · have hset := set_set_padded _ Kind.unusable v.kind .unusable hroom'
      rw [List.length_map] at hset
      rw [hslots, FrameValue.slotKinds, FrameValue.length_slots, hwide]
      simp only [FrameValue.slots, hwide, ← hkind, List.map_set, hlocals]
      exact hset

theorem Declares.declaredSlots {entries : List FrameValue} (h : Declares b entries s t) :
    t.declaredSlots = s.declaredSlots + (slotKinds b entries).length := by
  rw [declaredSlots_eq b h.widths, State.declaredSlots]
  omega

theorem Declares.length_locals {entries : List FrameValue} (h : Declares b entries s t)
    (hroom : s.HasRoom) :
    t.locals.length = max s.locals.length (s.declaredSlots + (slotKinds b entries).length) := by
  have hlength := congrArg List.length h.locals
  simp only [List.length_append, List.length_map, List.length_take, List.length_drop] at hlength
  omega

theorem Declares.trans {u : State} {entry : FrameValue} {rest : List FrameValue}
    (h : Declares b [entry] s t) (h' : Declares b rest t u)
    (hroom : s.HasRoom) : Declares b (entry :: rest) s u := by
  have hcons : slotKinds b (entry :: rest) = slotKinds b [entry] ++ slotKinds b rest := by
    simp [slotKinds]
  have hroom' : s.declaredSlots ≤ (s.locals.map Value.kind).length := by
    rw [List.length_map]
    exact hroom
  refine ⟨h'.stack.trans h.stack, ?_, ?_⟩
  · rw [h'.widths, h.widths]
    simp [widthsOf]
  · have hfront : ((s.locals.map Value.kind).take s.declaredSlots ++ slotKinds b [entry]).length =
        s.declaredSlots + (slotKinds b [entry]).length := by
      rw [List.length_append, List.length_take_of_le hroom']
    rw [h'.locals, h.declaredSlots, h.locals, List.take_left' hfront, ← hfront,
      List.drop_length_add_append, hfront, List.drop_drop, hcons, List.length_append]
    simp only [List.append_assoc, Nat.add_assoc]

theorem declareLocals_known (position : Nat) {entries : List FrameValue} (h : Known b entries)
    (hroom : s.HasRoom) :
    ∃ t, declareLocals b position entries s = .ok ((), t) ∧ Declares b entries s t := by
  induction entries generalizing s with
  | nil => exact ⟨s, rfl, rfl, rfl, by simp [slotKinds]⟩
  | cons entry rest ih =>
    obtain ⟨t, ht, hst⟩ := declareLocal_known position (h entry List.mem_cons_self) hroom
    have hroom' : t.HasRoom := by
      have hslots := hst.declaredSlots
      have hlength := hst.length_locals hroom
      omega
    obtain ⟨u, hu, htu⟩ := ih (fun e he => h e (List.mem_cons_of_mem _ he)) hroom'
    refine ⟨u, ?_, hst.trans htu hroom⟩
    rw [declareLocals, bind_of_ok ht]
    exact hu

theorem known_of_declareLocals {entries : List FrameValue}
    (h : declareLocals b position entries s = .ok ((), t)) : Known b entries := by
  induction entries generalizing s with
  | nil => simp [Known]
  | cons entry rest ih =>
    rw [declareLocals] at h
    obtain ⟨_, u, hentry, hrest⟩ := exists_of_bind h
    rw [declareLocal_eq] at hentry
    obtain ⟨_, _, _, hvalue⟩ := exists_of_bind hentry
    obtain ⟨_, _, hvalue, _⟩ := exists_of_bind hvalue
    intro e he
    rcases List.mem_cons.mp he with rfl | he
    · exact known_of_frameValue hvalue
    · exact ih hrest e he

/-! ## Stacks -/

theorem pushEntries_known (position : Nat) {entries : List FrameValue} (h : Known b entries)
    (s : State) : ∃ t, pushEntries b position entries s = .ok ((), t) ∧ t.locals = s.locals ∧
      t.widths = s.widths ∧ t.stack.map Value.kind =
        (entries.map (FrameValue.kind b)).reverse ++ s.stack.map Value.kind := by
  induction entries generalizing s with
  | nil => exact ⟨s, rfl, rfl, rfl, rfl⟩
  | cons entry rest ih =>
    obtain ⟨v, hvalue, hkind⟩ := frameValue_known position (h entry List.mem_cons_self) s
    obtain ⟨t, ht, hlocals, hwidths, hstack⟩ := ih (fun e he => h e (List.mem_cons_of_mem _ he))
      { s with created := s.created + 1, stack := v :: s.stack }
    refine ⟨t, ?_, hlocals, hwidths, ?_⟩
    · rw [pushEntries, bind_of_ok hvalue]
      exact ht
    · rw [hstack]
      simp [hkind]

theorem known_of_pushEntries {entries : List FrameValue}
    (h : pushEntries b position entries s = .ok ((), t)) : Known b entries := by
  induction entries generalizing s with
  | nil => simp [Known]
  | cons entry rest ih =>
    rw [pushEntries] at h
    obtain ⟨_, _, hvalue, hrest⟩ := exists_of_bind h
    obtain ⟨_, _, _, hrest⟩ := exists_of_bind hrest
    intro e he
    rcases List.mem_cons.mp he with rfl | he
    · exact known_of_frameValue hvalue
    · exact ih hrest e he

/-! ## Frames -/

theorem invalidate_ok (slot count : Nat) (h : s.locals.length = slot + count) :
    ∃ t, invalidate slot count s = .ok ((), t) ∧ t.stack = s.stack ∧ t.widths = s.widths ∧
      t.locals.map Value.kind =
        (s.locals.map Value.kind).take slot ++ List.replicate count .unusable := by
  refine ⟨_, rfl, rfl, rfl, ?_⟩
  apply List.ext_getElem?
  intro i
  have hfront : ((s.locals.map Value.kind).take slot).length = slot := by
    rw [List.length_take, List.length_map]
    omega
  rw [List.getElem?_map, List.getElem?_mapIdx]
  by_cases hi : i < slot
  · rw [List.getElem?_append_left (by omega), List.getElem?_take_of_lt hi, List.getElem?_map]
    simp [show ¬ slot ≤ i by omega]
  · rw [List.getElem?_append_right (by omega), hfront, List.getElem?_replicate]
    by_cases hlast : i < slot + count
    · simp [show i < s.locals.length by omega, show slot ≤ i by omega, hlast,
        show i - slot < count by omega, Value.kind, Kind.unusable, Value.isValid, Value.isNull,
        Value.descriptor]
    · simp [show s.locals.length ≤ i by omega, show ¬ i - slot < count by omega]

/-- The state holds what a frame declares and nothing else; it has at least as many slots as given. -/
structure Settled (b : Body) (locals stack : List FrameValue) (length : Nat) (t : State) : Prop where
  stack : t.stack.map Value.kind = (stack.map (FrameValue.kind b)).reverse
  widths : t.widths = widthsOf locals
  locals : t.locals.map Value.kind =
    slotKinds b locals ++ List.replicate (length - (slotKinds b locals).length) .unusable

theorem applyFrame_full (position : Nat) {locals stack : List FrameValue} (hlocals : Known b locals)
    (hstack : Known b stack) (s : State) :
    ∃ t, applyFrame b position (.full locals stack) s = .ok ((), t) ∧
      Settled b locals stack s.locals.length t := by
  obtain ⟨u, hu, hdeclares⟩ :=
    declareLocals_known (s := { s with widths := [] }) position hlocals (Nat.zero_le _)
  have hslots : u.declaredSlots = (slotKinds b locals).length := by
    rw [hdeclares.declaredSlots]
    exact Nat.zero_add _
  have hlength : u.locals.length = max s.locals.length (slotKinds b locals).length := by
    rw [hdeclares.length_locals (Nat.zero_le _)]
    simp [State.declaredSlots]
  obtain ⟨w, hw, -, hwidths, hkinds⟩ := invalidate_ok u.declaredSlots
    (s.locals.length - u.declaredSlots) (show u.locals.length = _ by omega)
  obtain ⟨t, ht, htlocals, htwidths, htstack⟩ :=
    pushEntries_known position hstack { w with stack := [] }
  refine ⟨t, ?_, ?_, ?_, ?_⟩
  · -- the steps of a full frame, one after the other
    have hreset : (modify fun s => { s with widths := [] } : Sim Unit) s =
        .ok ((), { s with widths := [] }) := rfl
    have hbefore : (get : Sim State) { s with widths := [] } =
        .ok ({ s with widths := [] }, { s with widths := [] }) := rfl
    have hget : (get : Sim State) u = .ok (u, u) := rfl
    have hclear : clearStack w = .ok ((), { w with stack := [] }) := rfl
    rw [applyFrame, bind_of_ok hreset, bind_of_ok hbefore, bind_of_ok hu, bind_of_ok hget,
      bind_of_ok hw, bind_of_ok hclear]
    exact ht
  · rw [htstack]
    simp
  · rw [htwidths, hwidths, hdeclares.widths]
    simp
  · have hfront : u.locals.map Value.kind = slotKinds b locals ++
        (s.locals.map Value.kind).drop (slotKinds b locals).length := by
      simpa [State.declaredSlots] using hdeclares.locals
    rw [htlocals, hkinds, hslots, hfront, List.take_left]

theorem known_of_applyFrame_full {locals stack : List FrameValue}
    (h : applyFrame b position (.full locals stack) s = .ok ((), t)) :
    Known b locals ∧ Known b stack := by
  rw [applyFrame] at h
  obtain ⟨_, _, _, h⟩ := exists_of_bind h
  obtain ⟨_, _, _, h⟩ := exists_of_bind h
  obtain ⟨_, _, hlocals, h⟩ := exists_of_bind h
  obtain ⟨_, _, _, h⟩ := exists_of_bind h
  obtain ⟨_, _, _, h⟩ := exists_of_bind h
  obtain ⟨_, _, _, hstack⟩ := exists_of_bind h
  exact ⟨known_of_declareLocals hlocals, known_of_pushEntries hstack⟩

theorem settled_of_applyFrame {locals stack : List FrameValue}
    (h : applyFrame b position (.full locals stack) s = .ok ((), t)) :
    Settled b locals stack s.locals.length t := by
  obtain ⟨hlocals, hstack⟩ := known_of_applyFrame_full h
  obtain ⟨u, hu, hsettled⟩ := applyFrame_full position hlocals hstack s
  rw [hu] at h
  cases h
  exact hsettled

theorem chop_of_nil (hwidths : s.widths = []) (count : Nat) :
    chop (count + 1) s = .error (.malformed .chopsTooMany) := by
  obtain ⟨stack, locals, widths, created⟩ := s
  cases hwidths
  rfl

theorem chop_of_cons {width : Nat} {rest : List Nat} (hwidths : s.widths = width :: rest) (count : Nat) :
    ∃ u, invalidate (rest.foldl (· + ·) 0) width { s with widths := rest } = .ok ((), u) ∧
      chop (count + 1) s = chop count u := by
  obtain ⟨stack, locals, widths, created⟩ := s
  cases hwidths
  rw [← foldr_add_eq]
  exact ⟨_, rfl, rfl⟩

theorem chop_spec {count : Nat} (h : chop count s = .ok ((), t)) :
    t.widths = s.widths.drop count ∧ t.locals.length = s.locals.length := by
  induction count generalizing s with
  | zero =>
    cases h
    exact ⟨rfl, rfl⟩
  | succ count ih =>
    cases hwidths : s.widths with
    | nil =>
      rw [chop_of_nil hwidths] at h
      cases h
    | cons width rest =>
      obtain ⟨u, hinvalid, hchop⟩ := chop_of_cons hwidths count
      rw [hchop] at h
      obtain ⟨hdrop, hlength⟩ := ih h
      cases hinvalid
      exact ⟨hdrop, by rw [hlength, List.length_mapIdx]⟩

/-- Every frame settles the stack. -/
theorem stack_of_applyFrame {declared : Frame}
    (h : applyFrame b position declared s = .ok ((), t)) : Known b declared.stackEntries ∧
      t.stack.map Value.kind = (declared.stackEntries.map (FrameValue.kind b)).reverse := by
  cases declared with
  | same =>
    cases h
    exact ⟨by simp [Known, Frame.stackEntries], rfl⟩
  | same1 entry =>
    rw [applyFrame] at h
    obtain ⟨⟨v, width⟩, u, hvalue, h⟩ := exists_of_bind h
    obtain ⟨_, _, hclear, h⟩ := exists_of_bind h
    cases hclear
    cases h
    have hknown := known_of_frameValue hvalue
    have hkind := (frameValue_spec hvalue).1
    exact ⟨by simpa [Known, Frame.stackEntries] using hknown, by simp [Frame.stackEntries, hkind]⟩
  | append entries =>
    rw [applyFrame] at h
    obtain ⟨_, _, _, h⟩ := exists_of_bind h
    cases h
    exact ⟨by simp [Known, Frame.stackEntries], rfl⟩
  | chop count =>
    rw [applyFrame] at h
    obtain ⟨_, _, _, h⟩ := exists_of_bind h
    cases h
    exact ⟨by simp [Known, Frame.stackEntries], rfl⟩
  | full entries stack =>
    exact ⟨(known_of_applyFrame_full h).2, (settled_of_applyFrame h).stack⟩

/-- A frame records the locals that are declared after it, and makes their slots. -/
theorem locals_of_applyFrame {declared : Frame} {current : List FrameValue}
    (hwidths : s.widths = widthsOf current) (hroom : s.HasRoom)
    (hknown : Known b current) (h : applyFrame b position declared s = .ok ((), t)) :
    Known b (declared.localsAfter current) ∧ t.widths = widthsOf (declared.localsAfter current) ∧
      t.locals.length = max s.locals.length (slotKinds b (declared.localsAfter current)).length := by
  have hslots : s.declaredSlots = (slotKinds b current).length :=
    declaredSlots_eq b (by rw [hwidths, List.append_nil])
  cases declared with
  | same =>
    cases h
    exact ⟨hknown, hwidths, by simp only [Frame.localsAfter]; omega⟩
  | same1 entry =>
    rw [applyFrame] at h
    obtain ⟨⟨v, width⟩, u, hvalue, h⟩ := exists_of_bind h
    obtain ⟨_, _, hclear, h⟩ := exists_of_bind h
    cases hclear
    cases h
    obtain ⟨-, rfl⟩ := frameValue_spec hvalue
    exact ⟨hknown, hwidths, by simp only [Frame.localsAfter]; omega⟩
  | append entries =>
    rw [applyFrame] at h
    obtain ⟨_, _, hlocals, h⟩ := exists_of_bind h
    cases h
    have hmore := known_of_declareLocals hlocals
    obtain ⟨u, hu, hdeclares⟩ := declareLocals_known position hmore hroom
    rw [hu] at hlocals
    cases hlocals
    refine ⟨?_, ?_, ?_⟩
    · intro e he
      rcases List.mem_append.mp he with he | he
      · exact hknown e he
      · exact hmore e he
    · have hall := hdeclares.widths
      rw [hwidths] at hall
      simpa [widthsOf, Frame.localsAfter] using hall
    · have hlength := hdeclares.length_locals hroom
      rw [hslots] at hlength
      rw [Frame.localsAfter, length_slotKinds_append]
      exact hlength
  | chop count =>
    -- widths are recorded last first, so dropping from their front takes back the last locals
    rw [applyFrame] at h
    obtain ⟨_, u, hchop, h⟩ := exists_of_bind h
    cases h
    obtain ⟨hdrop, hlength⟩ := chop_spec hchop
    refine ⟨fun e he => hknown e (List.mem_of_mem_take he), ?_, ?_⟩
    · have hreverse : (widthsOf current).drop count.toNat =
          widthsOf (current.take (current.length - count.toNat)) := by
        rw [widthsOf, List.drop_reverse, List.length_map, ← List.map_take]
        rfl
      rw [Frame.localsAfter, ← hreverse, ← hwidths]
      exact hdrop
    · have hsplit := length_slotKinds_append b (current.take (current.length - count.toNat))
        (current.drop (current.length - count.toNat))
      rw [List.take_append_drop] at hsplit
      have hkept : u.locals.length = max s.locals.length
          (slotKinds b (current.take (current.length - count.toNat))).length := by omega
      exact hkept
  | full entries stack =>
    have hsettled := settled_of_applyFrame h
    refine ⟨(known_of_applyFrame_full h).1, hsettled.widths, ?_⟩
    have hlength := congrArg List.length hsettled.locals
    rw [List.length_map, List.length_append, List.length_replicate] at hlength
    simp only [Frame.localsAfter]
    omega

end Sim

end Simulation

end Classmith
