import Classmith.Proofs.Simulation.Steps

/-!
# Simulations up to provenance

What the course of a simulation depends on: of each value whether it can be used, whether it is null and
the shape of its type, but not its number, its origin or the classes it names. A computation follows
another if, from states that are alike in this, it ends well whenever the other one does, and in states
that are alike again. Every instruction that is no frame follows itself, in any method body.
-/
namespace Classmith

namespace Descriptor

/-- A field type without its names: the category of a value that is no array, or an array. -/
inductive Shape where
  | plain (category : Category)
  | array (element : Shape)
deriving DecidableEq

namespace Shape

def category : Shape → Category
  | plain category => category
  | array _ => .one

def element? : Shape → Option Shape
  | plain _ => none
  | array element => some element

def ofChars : List Char → Shape
  | [] => plain .one
  | c :: rest =>
    if c = '[' then array (ofChars rest) else plain (Descriptor.category (String.ofList (c :: rest)))

end Shape

def shape (text : String) : Shape := Shape.ofChars text.toList

theorem category_shape (text : String) : (shape text).category = category text := by
  unfold shape category
  cases text.toList with
  | nil => rfl
  | cons c rest =>
    rw [Shape.ofChars]
    by_cases hc : c = '['
    · subst hc
      rfl
    · rw [if_neg hc]
      simp only [Shape.category, category, String.toList_ofList]

end Descriptor

namespace Simulation

open Descriptor (Shape shape)

/-- What is left of a value without its provenance. -/
structure Kind where
  isValid : Bool
  isNull : Bool
  shape : Option Shape
deriving DecidableEq

namespace Kind

def unusable : Kind := ⟨false, false, none⟩

def ofType (descriptor : String) : Kind := ⟨true, false, some (Descriptor.shape descriptor)⟩

def category (k : Kind) : Option Category :=
  if k.isNull then some .one else if !k.isValid then none else k.shape.map Shape.category

/-- The shape of an element loaded from an array. -/
def element? (k : Kind) : Option Shape :=
  if k.isNull then some (.plain .one) else k.shape.bind Shape.element?

end Kind

namespace Value

def kind (v : Value) : Kind := ⟨v.isValid, v.isNull, v.descriptor.map shape⟩

theorem category_kind (v : Value) : v.kind.category = v.category := by
  have hshape : (v.descriptor.map shape).map Shape.category =
      v.descriptor.map Descriptor.category := by
    rw [Option.map_map]
    congr 1
    funext text
    exact Descriptor.category_shape text
  simp only [Kind.category, kind, hshape, category]

theorem category_eq_of_kind_eq {v w : Value} (h : v.kind = w.kind) : v.category = w.category := by
  rw [← category_kind, ← category_kind, h]

theorem bind_category_eq {o o' : Option Value} (h : o.map kind = o'.map kind) :
    o.bind category = o'.bind category := by
  have hkinds : ∀ o : Option Value, o.bind category = (o.map kind).bind Kind.category := by
    intro o
    cases o with
    | none => rfl
    | some v => exact v.category_kind.symm
  rw [hkinds, hkinds, h]

end Value

theorem Sim.element?_shape (text : String) :
    (element? text).map shape = (shape text).element? := by
  unfold element? shape
  cases text.toList with
  | nil => rfl
  | cons c rest =>
    rw [Shape.ofChars]
    by_cases hc : c = '['
    · subst hc
      simp [Shape.element?]
    · simp [hc, Shape.element?]

theorem Sim.element?_kind (v : Value) : (elementType? v).map shape = v.kind.element? := by
  have hobject : shape "Ljava/lang/Object;" = .plain .one := by decide
  have hnull : v.kind.isNull = v.isNull := rfl
  rw [elementType?_eq, Kind.element?, hnull]
  split
  · rw [Option.map_some, hobject]
  · rw [Value.kind]
    cases v.descriptor with
    | none => rfl
    | some text => exact element?_shape text

/-! ## States that are alike -/

/-- Every declared local has its slots. -/
abbrev State.HasRoom (s : State) : Prop := s.declaredSlots ≤ s.locals.length

/-- The states hold values of the same kinds, and in both the declared locals have the given widths. -/
structure State.Like (widths : List Nat) (s t : State) : Prop where
  stack : s.stack.map Value.kind = t.stack.map Value.kind
  locals : s.locals.map Value.kind = t.locals.map Value.kind
  left : s.widths = widths
  right : t.widths = widths
  room : s.HasRoom

namespace State.Like

variable {widths : List Nat} {s t : State}

theorem length_stack (h : s.Like widths t) : s.stack.length = t.stack.length := by
  simpa using congrArg List.length h.stack

theorem length_locals (h : s.Like widths t) : s.locals.length = t.locals.length := by
  simpa using congrArg List.length h.locals

theorem categoryAt (h : s.Like widths t) (depth : Nat) : s.categoryAt depth = t.categoryAt depth := by
  apply Value.bind_category_eq
  rw [peek?, peek?, ← List.getElem?_map, ← List.getElem?_map, h.stack]

theorem localAt (h : s.Like widths t) (slot : Nat) :
    (s.locals[slot]?).map Value.kind = (t.locals[slot]?).map Value.kind := by
  rw [← List.getElem?_map, ← List.getElem?_map, h.locals]

theorem withStack (h : s.Like widths t) {l l' : List Value}
    (hl : l.map Value.kind = l'.map Value.kind) :
    State.Like widths { s with stack := l } { t with stack := l' } :=
  ⟨hl, h.locals, h.left, h.right, h.room⟩

theorem withLocals (h : s.Like widths t) {l l' : List Value} {n n' : Nat}
    (hl : l.map Value.kind = l'.map Value.kind) (hlength : s.locals.length ≤ l.length) :
    State.Like widths { s with locals := l, created := n } { t with locals := l', created := n' } :=
  ⟨h.stack, hl, h.left, h.right, Nat.le_trans h.room hlength⟩

end State.Like

/-- The second computation ends well where the first one does, with related results and states that are
alike. -/
def Follows (widths : List Nat) {α β : Type} (related : α → β → Prop) (x : Sim α) (y : Sim β) : Prop :=
  ∀ s t : State, s.Like widths t → ∀ a s', x s = .ok (a, s') →
    ∃ b t', y t = .ok (b, t') ∧ related a b ∧ s'.Like widths t'

abbrev FollowsUnit (widths : List Nat) (x y : Sim Unit) : Prop :=
  Follows widths (fun _ _ => True) x y

abbrev FollowsValue (widths : List Nat) (x y : Sim Value) : Prop :=
  Follows widths (fun v w => v.kind = w.kind) x y

section

variable {widths : List Nat} {α β γ δ : Type}

theorem follows_bind {related : α → β → Prop} {related' : γ → δ → Prop} {x : Sim α} {y : Sim β}
    {k : α → Sim γ} {l : β → Sim δ} (hx : Follows widths related x y)
    (hk : ∀ a b, related a b → Follows widths related' (k a) (l b)) :
    Follows widths related' (x >>= k) (y >>= l) := by
  intro s t hst c s'' hrun
  cases hxs : x s with
  | error fault =>
    rw [Sim.bind_of_error hxs] at hrun
    cases hrun
  | ok result =>
    obtain ⟨a, s'⟩ := result
    obtain ⟨b, t', hy, hab, hlike⟩ := hx s t hst a s' hxs
    rw [Sim.bind_of_ok hxs] at hrun
    rw [Sim.bind_of_ok hy]
    exact hk a b hab s' t' hlike c s'' hrun

theorem follows_pure {related : α → β → Prop} {a : α} {b : β} (h : related a b) :
    Follows widths related (pure a) (pure b) := by
  intro s t hst c s' hrun
  cases hrun
  exact ⟨b, t, rfl, h, hst⟩

theorem follows_skip : FollowsUnit widths (pure ()) (pure ()) := follows_pure trivial

theorem follows_when {p : Prop} [Decidable p] {x y : Sim Unit} (h : FollowsUnit widths x y) :
    FollowsUnit widths (if p then x else pure ()) (if p then y else pure ()) := by
  split
  · exact h
  · exact follows_skip

theorem follows_get : Follows widths (State.Like widths) get get := by
  intro s t hst a s' hrun
  cases hrun
  exact ⟨t, t, rfl, hst, hst⟩

theorem follows_set {s t : State} (h : s.Like widths t) : FollowsUnit widths (set s) (set t) := by
  intro _ _ _ a s' hrun
  cases hrun
  exact ⟨(), t, rfl, trivial, h⟩

theorem follows_modify {f g : State → State}
    (h : ∀ s t : State, s.Like widths t → (f s).Like widths (g t)) :
    FollowsUnit widths (modify f) (modify g) := by
  intro s t hst a s' hrun
  cases hrun
  exact ⟨(), g t, rfl, trivial, h s t hst⟩

/-- Nothing has to be shown about computations that fail. -/
theorem follows_malformed {related : α → β → Prop} (cause : Malformation) (y : Sim β) :
    Follows widths related (Sim.malformed cause) y := by
  intro s t _ a s' hrun
  cases hrun

theorem follows_unsupported {related : α → β → Prop} (cause : Unmodelled) (y : Sim β) :
    Follows widths related (Sim.unsupported cause) y := by
  intro s t _ a s' hrun
  cases hrun

end

/-! ## Operations on states -/

namespace Sim

variable {widths : List Nat}

theorem follows_fresh {d d' : Option String} (h : d.map shape = d'.map shape)
    (isValid isNull : Bool) (origin origin' : Origin) :
    FollowsValue widths (fresh d isValid isNull origin) (fresh d' isValid isNull origin') := by
  intro s t hst v s' hrun
  cases hrun
  refine ⟨.mk (t.created + 1) d' isValid isNull origin', { t with created := t.created + 1 }, rfl, ?_, ?_⟩
  · simp only [Value.kind, Value.isValid, Value.isNull, Value.descriptor, h]
  · exact ⟨hst.stack, hst.locals, hst.left, hst.right, hst.room⟩

theorem follows_value {d d' : String} (h : shape d = shape d') (origin origin' : Origin) :
    FollowsValue widths (value d origin) (value d' origin') :=
  follows_fresh (by rw [Option.map_some, Option.map_some, h]) true false origin origin'

theorem follows_invalid : FollowsValue widths invalid invalid :=
  follows_fresh rfl false false .invalid .invalid

theorem follows_push {v w : Value} (h : v.kind = w.kind) : FollowsUnit widths (push v) (push w) :=
  follows_modify fun s t hst => hst.withStack (by rw [List.map_cons, List.map_cons, h, hst.stack])

theorem follows_pushValue {x y : Sim Value} (h : FollowsValue widths x y) :
    FollowsUnit widths (x >>= push) (y >>= push) :=
  follows_bind h fun _ _ hvw => follows_push hvw

theorem follows_pop : FollowsValue widths pop pop := by
  apply follows_bind follows_get
  intro s t hst
  have hstack := hst.stack
  cases hs : s.stack with
  | nil => exact follows_malformed .underflow _
  | cons v rest =>
    cases ht : t.stack with
    | nil => simp [hs, ht] at hstack
    | cons w rest' =>
      rw [hs, ht, List.map_cons, List.map_cons, List.cons.injEq] at hstack
      apply follows_bind (follows_set (hst.withStack hstack.2))
      intro _ _ _
      exact follows_pure hstack.1

theorem follows_popN (count : Nat) :
    Follows widths (fun l l' => l.map Value.kind = l'.map Value.kind) (popN count) (popN count) := by
  apply follows_bind follows_get
  intro s t hst
  rw [← hst.length_stack]
  split
  · have hdrop : (s.stack.drop count).map Value.kind = (t.stack.drop count).map Value.kind := by
      rw [List.map_drop, List.map_drop, hst.stack]
    apply follows_bind (follows_set (hst.withStack hdrop))
    intro _ _ _
    apply follows_pure
    rw [List.map_reverse, List.map_reverse, List.map_take, List.map_take, hst.stack]
  · exact follows_malformed .underflow _

theorem follows_discard {α : Type} {related : α → α → Prop} {x : Sim α}
    (h : Follows widths related x x) :
    FollowsUnit widths (x >>= fun _ => pure ()) (x >>= fun _ => pure ()) :=
  follows_bind h fun _ _ _ => follows_skip

theorem follows_popOneWord : FollowsValue widths popOneWord popOneWord := by
  apply follows_bind follows_pop
  intro v w hvw
  rw [Value.category_eq_of_kind_eq hvw]
  split
  · exact follows_pure hvw
  · exact follows_malformed _ _

theorem follows_setLocal (slot : Nat) {v w : Value} (h : v.kind = w.kind) :
    FollowsUnit widths (setLocal slot v) (setLocal slot w) :=
  follows_modify fun s t hst => hst.withLocals (by rw [List.map_set, List.map_set, h, hst.locals])
    (Nat.le_of_eq List.length_set.symm)

theorem follows_setInvalid (slot : Nat) :
    FollowsUnit widths (invalid >>= setLocal slot) (invalid >>= setLocal slot) :=
  follows_bind follows_invalid fun _ _ h => follows_setLocal slot h

theorem follows_fill (count : Nat) : FollowsUnit widths (fill count) (fill count) := by
  apply follows_modify
  intro s t hst
  apply hst.withLocals
  · rw [List.map_append, List.map_append, hst.locals, List.map_map, List.map_map]
    rfl
  · rw [List.length_append]
    omega

theorem follows_ensureLocals (count : Nat) :
    FollowsUnit widths (ensureLocals count) (ensureLocals count) := by
  apply follows_bind follows_get
  intro s t hst
  rw [hst.length_locals]
  exact follows_fill _

theorem follows_storeLocal (slot : Nat) {v w : Value} (h : v.kind = w.kind) :
    FollowsUnit widths (storeLocal slot v) (storeLocal slot w) := by
  rw [storeLocal_eq, storeLocal_eq, Value.category_eq_of_kind_eq h]
  apply follows_bind (follows_ensureLocals _)
  intro _ _ _
  apply follows_bind follows_get
  intro s t hst
  rw [Value.bind_category_eq (hst.localAt (slot - 1))]
  apply follows_bind (follows_when (follows_setInvalid (slot - 1)))
  intro _ _ _
  apply follows_bind (follows_setLocal slot h)
  intro _ _ _
  exact follows_when (follows_setInvalid (slot + 1))

/-! ## Instructions -/

theorem follows_duplicate (form : DupForm) : FollowsUnit widths (duplicate form) (duplicate form) := by
  apply follows_bind follows_get
  intro s t hst
  simp only [hst.categoryAt]
  cases dupShape? form [t.categoryAt 0, t.categoryAt 1, t.categoryAt 2, t.categoryAt 3] with
  | none => exact follows_malformed _ _
  | some copies =>
    obtain ⟨take, below⟩ := copies
    apply follows_set
    apply hst.withStack
    simp only [insertCopies, List.map_append, List.map_take, List.map_drop, hst.stack]

theorem follows_swap : FollowsUnit widths swap swap := by
  apply follows_bind follows_get
  intro s t hst
  have hstack := hst.stack
  match hs : s.stack, ht : t.stack with
  | [], _ => exact follows_malformed .notSwappable _
  | [_], _ => exact follows_malformed .notSwappable _
  | _ :: _ :: _, [] => simp [hs, ht] at hstack
  | _ :: _ :: _, [_] => simp [hs, ht] at hstack
  | a :: b :: rest, a' :: b' :: rest' =>
    simp only [hs, ht, List.map_cons, List.cons.injEq] at hstack
    obtain ⟨ha, hb, hrest⟩ := hstack
    simp only [Value.category_eq_of_kind_eq ha, Value.category_eq_of_kind_eq hb]
    split
    · apply follows_set
      apply hst.withStack
      simp only [List.map_cons, ha, hb, hrest]
    · exact follows_malformed .notSwappable _

theorem follows_unary (d : String) (origin : Value → Origin) :
    FollowsUnit widths (unary d origin) (unary d origin) :=
  follows_bind follows_pop fun _ _ _ => follows_pushValue (follows_value rfl _ _)

theorem follows_binary (d : String) (origin : Value → Value → Origin) :
    FollowsUnit widths (binary d origin) (binary d origin) := by
  apply follows_bind follows_pop
  intro _ _ _
  apply follows_bind follows_pop
  intro _ _ _
  exact follows_pushValue (follows_value rfl _ _)

/-- The only instruction whose course depends on more than categories. -/
theorem follows_arrayLoad (position : Nat) :
    FollowsUnit widths (applyEffect position (.arrayLoad none))
      (applyEffect position (.arrayLoad none)) := by
  apply follows_bind follows_pop
  intro index index' _
  apply follows_bind follows_pop
  intro array array' harray
  have helement : (elementType? array).map shape = (elementType? array').map shape := by
    rw [element?_kind, element?_kind, harray]
  cases h : elementType? array with
  | none => exact follows_malformed _ _
  | some d =>
    cases h' : elementType? array' with
    | none => simp [h, h'] at helement
    | some d' =>
      rw [h, h'] at helement
      exact follows_pushValue (follows_value (Option.some.inj helement) _ _)

theorem follows_applyEffect (position : Nat) (effect : Effect) :
    FollowsUnit widths (applyEffect position effect) (applyEffect position effect) := by
  cases effect with
  | noop => exact follows_skip
  | push c => exact follows_pushValue (follows_value rfl _ _)
  | pushNull => exact follows_pushValue (follows_fresh rfl true true .null .null)
  | arrayLoad element =>
    cases element with
    | some d => exact follows_binary d _
    | none => exact follows_arrayLoad position
  | arrayLength => exact follows_unary "I" _
  | consume count => exact follows_discard (follows_popN count)
  | pop => exact follows_discard follows_popOneWord
  | pop2 =>
    apply follows_bind follows_pop
    intro top top' htop
    rw [Value.category_eq_of_kind_eq htop]
    cases top'.category with
    | none => exact follows_malformed _ _
    | some category =>
      cases category with
      | one => exact follows_discard follows_popOneWord
      | two => exact follows_skip
  | dup form => exact follows_duplicate form
  | swap => exact follows_swap
  | binary d => exact follows_binary d _
  | negate d => exact follows_unary d _
  | convert d => exact follows_unary d _
  | compare => exact follows_binary "I" _

theorem follows_applyInt (position : Nat) (opcode : UInt8) (operand : Int32) :
    FollowsUnit widths (applyInt position opcode operand) (applyInt position opcode operand) := by
  unfold applyInt
  split
  · exact follows_pushValue (follows_value rfl _ _)
  · exact follows_pushValue (follows_value rfl _ _)
  · cases arrayType? operand with
    | none => exact follows_malformed _ _
    | some d => exact follows_unary d _
  · exact follows_unsupported _ _

theorem follows_applyVar (opcode : UInt8) (slot : Nat) :
    FollowsUnit widths (applyVar opcode slot) (applyVar opcode slot) := by
  unfold applyVar
  split
  · apply follows_bind follows_get
    intro s t hst
    have hlocal := hst.localAt slot
    cases hs : s.locals[slot]? with
    | none => exact follows_malformed _ _
    | some v =>
      cases ht : t.locals[slot]? with
      | none => simp [hs, ht] at hlocal
      | some w =>
        rw [hs, ht] at hlocal
        exact follows_push (Option.some.inj hlocal)
  · split
    · exact follows_bind follows_pop fun _ _ h => follows_storeLocal slot h
    · exact follows_unsupported _ _

theorem follows_applyType (position : Nat) (opcode : UInt8) (operand : String) :
    FollowsUnit widths (applyType position opcode operand) (applyType position opcode operand) := by
  unfold applyType
  split
  · exact follows_pushValue (follows_value rfl _ _)
  · exact follows_unary _ _
  · apply follows_bind follows_pop
    intro source source' hsource
    have hnull : source.isNull = source'.isNull := congrArg Kind.isNull hsource
    -- a cast null stays null
    rw [hnull]
    exact follows_pushValue (follows_fresh rfl true _ _ _)
  · exact follows_unary _ _
  · exact follows_unsupported _ _

theorem follows_applyField (position : Nat) (opcode : UInt8) (d : String) :
    FollowsUnit widths (applyField position opcode d) (applyField position opcode d) := by
  unfold applyField
  split
  · exact follows_pushValue (follows_value rfl _ _)
  · exact follows_discard follows_pop
  · exact follows_unary d _
  · exact follows_discard (follows_popN 2)
  · exact follows_unsupported _ _

theorem follows_pushResult (result : String) (origin : Origin) :
    FollowsUnit widths (pushResult result origin) (pushResult result origin) :=
  follows_when (follows_pushValue (follows_value rfl _ _))

theorem follows_invoke (descriptor : String) (receiver : Bool) (origin : Origin) :
    FollowsUnit widths (invoke descriptor receiver origin) (invoke descriptor receiver origin) := by
  cases hsplit : Descriptor.split descriptor with
  | error defect =>
    have hfails : invoke descriptor receiver origin = malformed (.badDescriptor descriptor defect) := by
      unfold invoke
      rw [hsplit]
    rw [hfails]
    exact follows_malformed _ _
  | ok type =>
    rw [invoke_eq hsplit]
    apply follows_bind (follows_popN _)
    intro _ _ _
    cases receiver with
    | true => exact follows_bind follows_pop fun _ _ _ => follows_pushResult _ origin
    | false => exact follows_pushResult _ origin

theorem follows_applyMethod (position : Nat) (opcode : UInt8) (descriptor : String) :
    FollowsUnit widths (applyMethod position opcode descriptor)
      (applyMethod position opcode descriptor) := by
  unfold applyMethod
  split
  · exact follows_invoke descriptor _ _
  · exact follows_unsupported _ _

theorem follows_applyJump (opcode : UInt8) :
    FollowsUnit widths (applyJump opcode) (applyJump opcode) := by
  unfold applyJump
  split
  · exact follows_discard follows_pop
  split
  · exact follows_discard (follows_popN 2)
  split
  · exact follows_skip
  split
  · exact follows_unsupported _ _
  · exact follows_unsupported _ _

/-- Only frames look at the method body. -/
theorem follows_step (b b' : Body) (position : Nat) {i : Instruction}
    (hi : ∀ declared, i ≠ .frame declared) :
    FollowsUnit widths (step b position i) (step b' position i) := by
  cases i with
  | insn opcode =>
    simp only [step]
    cases Effect.ofOpcode? opcode with
    | none => exact follows_unsupported _ _
    | some effect => exact follows_applyEffect position effect
  | int opcode operand => exact follows_applyInt position opcode operand
  | var opcode slot => exact follows_applyVar opcode slot.toNat
  | type opcode operand => exact follows_applyType position opcode operand
  | field opcode owner name descriptor => exact follows_applyField position opcode descriptor
  | method opcode owner name descriptor isInterface =>
    exact follows_applyMethod position opcode descriptor
  | invokeDynamic name descriptor bootstrap arguments => exact follows_invoke descriptor false _
  | jump opcode label => exact follows_applyJump opcode
  | label _ | line _ _ | iinc _ _ => exact follows_skip
  | ldc constant => exact follows_pushValue (follows_value rfl _ _)
  | tableSwitch _ _ _ _ | lookupSwitch _ _ _ => exact follows_discard follows_pop
  | multiNewArray descriptor dimensions =>
    apply follows_bind (follows_popN dimensions.toNat)
    intro lengths lengths' _
    exact follows_pushValue (follows_value rfl _ _)
  | frame declared => exact absurd rfl (hi declared)

end Sim

end Simulation

end Classmith
