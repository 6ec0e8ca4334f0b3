import Classmith.Proofs.Simulation.Reach

/-!
# Ledgers of values

The values that a simulation makes are recorded in a ledger in the order of their numbers. A state holds
recorded values only, and the origin of a recorded value refers to values recorded before it. Whatever a
step does, it adds to the ledger and changes nothing in it.
-/
namespace Classmith.Simulation

/-- The values made so far: each has the number of its place and refers to values made before it. -/
structure Ledger (made : List Value) : Prop where
  numbered : ∀ {i v}, made[i]? = some v → v.id = i + 1
  earlier : ∀ {v u}, v ∈ made → u ∈ v.origin.operands → u ∈ made ∧ u.id < v.id

namespace Ledger

variable {made more : List Value}

theorem nil : Ledger [] where
  numbered h := by cases h
  earlier h := by cases h

theorem id_le (h : Ledger made) {v : Value} (hv : v ∈ made) : 1 ≤ v.id ∧ v.id ≤ made.length := by
  obtain ⟨i, hi⟩ := List.mem_iff_getElem?.mp hv
  have hlt := (List.getElem?_eq_some_iff.mp hi).1
  have hid := h.numbered hi
  omega

/-- A number stands for one value. -/
theorem unique (h : Ledger made) {v w : Value} (hv : v ∈ made) (hw : w ∈ made) (hid : v.id = w.id) :
    v = w := by
  obtain ⟨i, hi⟩ := List.mem_iff_getElem?.mp hv
  obtain ⟨j, hj⟩ := List.mem_iff_getElem?.mp hw
  have hsame : i = j := by
    have hvid := h.numbered hi
    have hwid := h.numbered hj
    omega
  rw [hsame, hj] at hi
  exact (Option.some.inj hi).symm

theorem append (h : Ledger made)
    (hnumbered : ∀ {i v}, more[i]? = some v → v.id = made.length + 1 + i)
    (hearlier : ∀ {v u}, v ∈ more → u ∈ v.origin.operands → u ∈ made) : Ledger (made ++ more) where
  numbered {i v} hi := by
    by_cases hold : i < made.length
    · rw [List.getElem?_append_left hold] at hi
      exact h.numbered hi
    · rw [List.getElem?_append_right (Nat.le_of_not_lt hold)] at hi
      have hid := hnumbered hi
      omega
  earlier {v u} hv hu := by
    rcases List.mem_append.mp hv with hv | hv
    · obtain ⟨hmem, hlt⟩ := h.earlier hv hu
      exact ⟨List.mem_append_left more hmem, hlt⟩
    · have hmem := hearlier hv hu
      obtain ⟨i, hi⟩ := List.mem_iff_getElem?.mp hv
      have hid := hnumbered hi
      have hle := (h.id_le hmem).2
      exact ⟨List.mem_append_left more hmem, by omega⟩

end Ledger

def State.values (s : State) : List Value := s.stack ++ s.locals

/-- The ledger has as many values as have been made and every value of the state. -/
structure Recorded (made : List Value) (s : State) : Prop extends Ledger made where
  count : made.length = s.created
  values : ∀ {v}, v ∈ s.values → v ∈ made

/-- Whatever has been recorded, if the values of the state and the given ones have, then so have, after
some more, the values of the next state and those of the result. -/
def Records (given : List Value) {α : Type} (x : Sim α) (gives : α → List Value) : Prop :=
  ∀ made s a t, Recorded made s → (∀ v ∈ given, v ∈ made) → x s = .ok (a, t) →
    ∃ more, Recorded (made ++ more) t ∧ ∀ v ∈ gives a, v ∈ made ++ more

namespace Sim

/-! ## Rules -/

section

variable {α β : Type} {given : List Value} {gives : α → List Value} {gives' : β → List Value}

theorem records_bind {x : Sim α} {k : α → Sim β} (hx : Records given x gives)
    (hk : ∀ a, Records (gives a ++ given) (k a) gives') : Records given (x >>= k) gives' := by
  intro made s c u hs hgiven h
  obtain ⟨a, t, ht, hu⟩ := exists_of_bind h
  obtain ⟨more, hrecorded, hgives⟩ := hx made s a t hs hgiven ht
  have hgiven' : ∀ v ∈ gives a ++ given, v ∈ made ++ more := by
    intro v hv
    rcases List.mem_append.mp hv with hv | hv
    · exact hgives v hv
    · exact List.mem_append_left more (hgiven v hv)
  obtain ⟨rest, hrest⟩ := hk a (made ++ more) t c u hrecorded hgiven' hu
  exact ⟨more ++ rest, by rw [← List.append_assoc]; exact hrest⟩

/-- A computation that makes no value and only moves those at hand. -/
theorem records_of_moves {x : Sim α}
    (h : ∀ s a t, x s = .ok (a, t) → t.created = s.created ∧
      ∀ v, v ∈ t.values ∨ v ∈ gives a → v ∈ s.values ∨ v ∈ given) : Records given x gives := by
  intro made s a t hs hgiven ht
  obtain ⟨hcreated, hmoved⟩ := h s a t ht
  have hmem : ∀ v, v ∈ t.values ∨ v ∈ gives a → v ∈ made := by
    intro v hv
    rcases hmoved v hv with hold | hold
    · exact hs.values hold
    · exact hgiven v hold
  refine ⟨[], ?_, ?_⟩
  · rw [List.append_nil]
    exact { hs with count := hcreated ▸ hs.count, values := fun hv => hmem _ (.inl hv) }
  · rw [List.append_nil]
    exact fun v hv => hmem v (.inr hv)

/-- A computation that makes values, with the next numbers, from those at hand. -/
theorem records_of_makes {x : Sim α} (makes : State → List Value)
    (h : ∀ s a t, x s = .ok (a, t) → t.created = s.created + (makes s).length ∧
      ∀ v, v ∈ t.values ∨ v ∈ gives a → v ∈ s.values ∨ v ∈ makes s)
    (hnumbered : ∀ {s i v}, (makes s)[i]? = some v → v.id = s.created + 1 + i)
    (hoperands : ∀ {s v u}, v ∈ makes s → u ∈ v.origin.operands → u ∈ given) :
    Records given x gives := by
  intro made s a t hs hgiven ht
  obtain ⟨hcreated, hvalues⟩ := h s a t ht
  have hmem : ∀ v, v ∈ t.values ∨ v ∈ gives a → v ∈ made ++ makes s := by
    intro v hv
    rcases hvalues v hv with hold | hnew
    · exact List.mem_append_left _ (hs.values hold)
    · exact List.mem_append_right _ hnew
  refine ⟨makes s, ⟨?_, ?_, fun hv => hmem _ (.inl hv)⟩, fun v hv => hmem v (.inr hv)⟩
  · apply hs.toLedger.append
    · intro i v hi
      rw [hnumbered hi, hs.count]
    · exact fun hv hu => hgiven _ (hoperands hv hu)
  · rw [List.length_append, hs.count, hcreated]

theorem records_pure (a : α) (h : ∀ v ∈ gives a, v ∈ given) : Records given (pure a) gives := by
  apply records_of_moves
  intro s b t ht
  cases ht
  refine ⟨rfl, fun v hv => ?_⟩
  exact hv.imp id (h v)

theorem records_malformed (cause : Malformation) : Records given (malformed cause) gives := by
  intro made s a t hs hgiven h
  cases h

theorem records_unsupported (cause : Unmodelled) : Records given (unsupported cause) gives := by
  intro made s a t hs hgiven h
  cases h

/-- A computation that looks at the state and then moves the values at hand. -/
theorem records_of_look {k : State → Sim α}
    (h : ∀ s a t, k s s = .ok (a, t) → t.created = s.created ∧
      ∀ v, v ∈ t.values ∨ v ∈ gives a → v ∈ s.values ∨ v ∈ given) :
    Records given (get >>= k) gives := by
  apply records_of_moves
  intro s a t ht
  have hget : (get : Sim State) s = .ok (s, s) := rfl
  rw [bind_of_ok hget] at ht
  exact h s a t ht

theorem records_when (p : Prop) [Decidable p] {x : Sim Unit} (hx : Records given x fun _ => []) :
    Records given (if p then x else pure ()) fun _ => [] := by
  split
  · exact hx
  · exact records_pure () (by simp)

end

/-! ## Operations on states -/

section

variable {given : List Value}

theorem records_get : Records given (get : Sim State) State.values := by
  apply records_of_moves
  intro s a t h
  cases h
  exact ⟨rfl, fun v hv => .inl (hv.elim id id)⟩

theorem records_fresh (d : Option String) (isValid isNull : Bool) (origin : Origin)
    (h : ∀ u ∈ origin.operands, u ∈ given) :
    Records given (fresh d isValid isNull origin) fun v => [v] := by
  apply records_of_makes fun s => [.mk (s.created + 1) d isValid isNull origin]
  · intro s a t ht
    cases ht
    refine ⟨rfl, fun v hv => ?_⟩
    exact hv.imp id id
  · intro s i v hi
    obtain ⟨hlt, rfl⟩ := List.getElem?_eq_some_iff.mp hi
    obtain rfl : i = 0 := Nat.lt_one_iff.mp hlt
    rfl
  · intro s v u hv hu
    obtain rfl := List.mem_singleton.mp hv
    exact h u hu

theorem records_invalid : Records given invalid fun v => [v] :=
  records_fresh none false false .invalid (by simp [Origin.operands])

theorem records_push {v : Value} (h : v ∈ given) : Records given (push v) fun _ => [] := by
  apply records_of_moves
  intro s a t ht
  cases ht
  refine ⟨rfl, fun w hw => ?_⟩
  simp only [State.values, List.cons_append, List.mem_cons, List.not_mem_nil, or_false] at hw ⊢
  rcases hw with rfl | hw
  · exact .inr h
  · exact .inl hw

theorem records_pushFresh (d : Option String) (isValid isNull : Bool) (origin : Origin)
    (h : ∀ u ∈ origin.operands, u ∈ given) :
    Records given (fresh d isValid isNull origin >>= push) fun _ => [] :=
  records_bind (records_fresh d isValid isNull origin h) fun _ => records_push (by simp)

theorem records_pop : Records given pop fun v => [v] := by
  apply records_of_look
  intro s v t h
  cases hstack : s.stack with
  | nil =>
    rw [hstack] at h
    cases h
  | cons w rest =>
    rw [hstack] at h
    cases h
    refine ⟨rfl, fun u hu => .inl ?_⟩
    simp only [State.values, hstack, List.mem_append, List.mem_cons, List.not_mem_nil, or_false] at hu ⊢
    rcases hu with (hu | hu) | hu
    · exact .inl (.inr hu)
    · exact .inr hu
    · exact .inl (.inl hu)

theorem records_popN (count : Nat) : Records given (popN count) id := by
  apply records_of_look
  intro s l t h
  split at h
  · cases h
    refine ⟨rfl, fun v hv => .inl ?_⟩
    simp only [State.values, List.mem_append, id_eq, List.mem_reverse] at hv ⊢
    rcases hv with (hv | hv) | hv
    · exact .inl (List.mem_of_mem_drop hv)
    · exact .inr hv
    · exact .inl (List.mem_of_mem_take hv)
  · cases h

theorem records_discard {α : Type} {gives : α → List Value} {x : Sim α} (h : Records given x gives) :
    Records given (x >>= fun _ => pure ()) fun _ => [] :=
  records_bind h fun _ => records_pure () (by simp)

theorem records_popOneWord : Records given popOneWord fun v => [v] := by
  apply records_bind records_pop
  intro v
  split
  · exact records_pure v (by simp)
  · exact records_malformed _

theorem records_clearStack : Records given clearStack fun _ => [] := by
  apply records_of_moves
  intro s a t h
  cases h
  refine ⟨rfl, fun v hv => .inl ?_⟩
  simp only [State.values, List.nil_append, List.not_mem_nil, or_false] at hv
  exact List.mem_append_right s.stack hv

theorem records_widths (f : List Nat → List Nat) :
    Records given (modify fun s => { s with widths := f s.widths } : Sim Unit) fun _ => [] := by
  apply records_of_moves
  intro s a t h
  cases h
  exact ⟨rfl, fun v hv => .inl (by simpa [State.values] using hv)⟩

theorem records_setLocal (slot : Nat) {v : Value} (h : v ∈ given) :
    Records given (setLocal slot v) fun _ => [] := by
  apply records_of_moves
  intro s a t ht
  cases ht
  refine ⟨rfl, fun w hw => ?_⟩
  simp only [State.values, List.mem_append, List.not_mem_nil, or_false] at hw ⊢
  rcases hw with hw | hw
  · exact .inl (.inl hw)
  · rcases List.mem_or_eq_of_mem_set hw with hw | rfl
    · exact .inl (.inr hw)
    · exact .inr h

theorem records_setInvalid (slot : Nat) : Records given (invalid >>= setLocal slot) fun _ => [] :=
  records_bind records_invalid fun _ => records_setLocal slot (by simp)

theorem records_pushLocal {v : Value} (h : v ∈ given) : Records given (pushLocal v) fun _ => [] := by
  apply records_of_moves
  intro s a t ht
  cases ht
  refine ⟨rfl, fun w hw => ?_⟩
  simp only [State.values, List.mem_append, List.mem_singleton, List.not_mem_nil, or_false] at hw ⊢
  rcases hw with hw | hw | rfl
  · exact .inl (.inl hw)
  · exact .inl (.inr hw)
  · exact .inr h

/-- Unusable values with the next numbers. -/
def unusableValues (origin : Origin) (count : Nat) (s : State) : List Value :=
  (List.range count).map fun i => .mk (s.created + 1 + i) none false false origin

theorem records_of_makes_unusable {α : Type} {gives : α → List Value} {x : Sim α} {origin : Origin}
    (count : State → Nat) (horigin : origin.operands = [])
    (h : ∀ s a t, x s = .ok (a, t) → t.created = s.created + count s ∧
      ∀ v, v ∈ t.values ∨ v ∈ gives a → v ∈ s.values ∨ v ∈ unusableValues origin (count s) s) :
    Records given x gives := by
  apply records_of_makes fun s => unusableValues origin (count s) s
  · intro s a t ht
    rw [unusableValues, List.length_map, List.length_range]
    exact h s a t ht
  · intro s i v hi
    rw [unusableValues, List.getElem?_map, Option.map_eq_some_iff] at hi
    obtain ⟨j, hj, rfl⟩ := hi
    obtain ⟨hlt, rfl⟩ := List.getElem?_eq_some_iff.mp hj
    rw [List.getElem_range]
    rfl
  · intro s v u hv hu
    obtain ⟨j, -, rfl⟩ := List.mem_map.mp hv
    rw [Value.origin, horigin] at hu
    cases hu

theorem records_ensureLocals (count : Nat) : Records given (ensureLocals count) fun _ => [] := by
  apply records_of_makes_unusable (fun s => count - s.locals.length) (show Origin.undefined.operands = [] from rfl)
  intro s a t h
  cases h
  refine ⟨rfl, fun v hv => ?_⟩
  simp only [State.values, List.mem_append, List.not_mem_nil, or_false] at hv ⊢
  rcases hv with hv | hv | hv
  · exact .inl (.inl hv)
  · exact .inl (.inr hv)
  · exact .inr hv

theorem records_invalidate (slot count : Nat) : Records given (invalidate slot count) fun _ => [] := by
  apply records_of_makes_unusable (fun _ => count) (show Origin.invalid.operands = [] from rfl)
  intro s a t h
  cases h
  refine ⟨rfl, fun v hv => ?_⟩
  simp only [State.values, List.mem_append, List.not_mem_nil, or_false] at hv ⊢
  rcases hv with hv | hv
  · exact .inl (.inl hv)
  · obtain ⟨i, hi, rfl⟩ := List.mem_mapIdx.mp hv
    split
    · refine .inr (List.mem_map.mpr ⟨i - slot, List.mem_range.mpr (by omega), rfl⟩)
    · exact .inl (.inr (List.getElem_mem hi))

theorem records_storeLocal (slot : Nat) {v : Value} (h : v ∈ given) :
    Records given (storeLocal slot v) fun _ => [] := by
  rw [storeLocal_eq]
  apply records_bind (records_ensureLocals _)
  intro _
  apply records_bind records_get
  intro s
  apply records_bind (records_when _ (records_setInvalid _))
  intro _
  apply records_bind (records_setLocal slot (by simp [h]))
  intro _
  exact records_when _ (records_setInvalid _)

end

/-! ## Frames -/

section

variable {given : List Value} (b : Body) (position : Nat)

theorem records_frameValue (entry : FrameValue) :
    Records given (frameValue b position entry) fun p => [p.1] := by
  have hentry : ∀ (d : Option String) (isValid isNull : Bool) (origin : Origin) (width : Nat),
      origin.operands = [] →
        Records given (fresh d isValid isNull origin >>= fun v => pure (v, width)) fun p => [p.1] := by
    intro d isValid isNull origin width horigin
    apply records_bind (records_fresh d isValid isNull origin (by simp [horigin]))
    intro v
    exact records_pure _ (by simp)
  cases entry with
  | uninitialized label =>
    simp only [frameValue]
    cases b.allocated label with
    | error cause => exact records_malformed cause
    | ok d => exact hentry _ _ _ _ _ rfl
  | _ => exact hentry _ _ _ _ _ rfl

theorem records_declareLocal (entry : FrameValue) :
    Records given (declareLocal b position entry) fun _ => [] := by
  rw [declareLocal_eq]
  apply records_bind records_get
  intro s
  apply records_bind (records_frameValue b position entry)
  intro p
  apply records_bind (records_ensureLocals _)
  intro _
  apply records_bind (records_setLocal _ (by simp))
  intro _
  apply records_bind (records_when _ (records_setInvalid _))
  intro _
  exact records_widths _

theorem records_declareLocals (entries : List FrameValue) :
    Records given (declareLocals b position entries) fun _ => [] := by
  induction entries generalizing given with
  | nil => exact records_pure () (by simp)
  | cons entry rest ih =>
    exact records_bind (records_declareLocal b position entry) fun _ => ih

theorem records_pushEntries (entries : List FrameValue) :
    Records given (pushEntries b position entries) fun _ => [] := by
  induction entries generalizing given with
  | nil => exact records_pure () (by simp)
  | cons entry rest ih =>
    apply records_bind (records_frameValue b position entry)
    intro p
    exact records_bind (records_push (by simp)) fun _ => ih

theorem records_chop (count : Nat) : Records given (chop count) fun _ => [] := by
  induction count generalizing given with
  | zero => exact records_pure () (by simp)
  | succ count ih =>
    intro made s a t hs hgiven h
    obtain ⟨_, _, hget, h⟩ := exists_of_bind h
    cases hget
    cases hwidths : s.widths with
    | nil =>
      rw [hwidths] at h
      cases h
    | cons width rest =>
      simp only [hwidths] at h
      obtain ⟨_, _, hset, h⟩ := exists_of_bind h
      cases hset
      have hs' : Recorded made { s with widths := rest } := { hs with }
      exact records_bind (records_invalidate _ _) (fun _ => ih) made _ a t hs' hgiven h

theorem records_applyFrame (declared : Frame) :
    Records given (applyFrame b position declared) fun _ => [] := by
  cases declared with
  | same => exact records_clearStack
  | same1 entry =>
    apply records_bind (records_frameValue b position entry)
    intro p
    exact records_bind records_clearStack fun _ => records_push (by simp)
  | append locals =>
    exact records_bind (records_declareLocals b position locals) fun _ => records_clearStack
  | chop count => exact records_bind (records_chop _) fun _ => records_clearStack
  | full locals stack =>
    apply records_bind (records_widths fun _ => [])
    intro _
    apply records_bind records_get
    intro s
    apply records_bind (records_declareLocals b position locals)
    intro _
    apply records_bind records_get
    intro u
    apply records_bind (records_invalidate _ _)
    intro _
    exact records_bind records_clearStack fun _ => records_pushEntries b position stack

end

/-! ## Instructions -/

section

variable {given : List Value} (position : Nat)

theorem records_unary (d : String) {origin : Value → Origin}
    (h : ∀ v, ∀ u ∈ (origin v).operands, u = v) : Records given (unary d origin) fun _ => [] := by
  apply records_bind records_pop
  intro operand
  apply records_pushFresh
  intro u hu
  simp [h operand u hu]

theorem records_binary (d : String) {origin : Value → Value → Origin}
    (h : ∀ left right, ∀ u ∈ (origin left right).operands, u = left ∨ u = right) :
    Records given (binary d origin) fun _ => [] := by
  apply records_bind records_pop
  intro right
  apply records_bind records_pop
  intro left
  apply records_pushFresh
  intro u hu
  rcases h left right u hu with rfl | rfl
  · simp
  · simp

theorem records_duplicate (form : DupForm) : Records given (duplicate form) fun _ => [] := by
  apply records_of_look
  intro s a t h
  cases hshape : dupShape? form [s.categoryAt 0, s.categoryAt 1, s.categoryAt 2, s.categoryAt 3] with
  | none =>
    simp only [hshape] at h
    cases h
  | some shape =>
    simp only [hshape] at h
    cases h
    refine ⟨rfl, fun v hv => .inl ?_⟩
    simp only [State.values, insertCopies, List.mem_append, List.not_mem_nil, or_false] at hv ⊢
    rcases hv with ((hv | hv) | hv) | hv
    · exact .inl (List.mem_of_mem_take hv)
    · exact .inl (List.mem_of_mem_take hv)
    · exact .inl (List.mem_of_mem_drop hv)
    · exact .inr hv

theorem records_swap : Records given swap fun _ => [] := by
  apply records_of_look
  intro s a t h
  rcases hstack : s.stack with _ | ⟨top, _ | ⟨next, rest⟩⟩
  · rw [hstack] at h
    cases h
  · rw [hstack] at h
    cases h
  · simp only [hstack] at h
    split at h
    · cases h
      refine ⟨rfl, fun v hv => .inl ?_⟩
      simp only [State.values, hstack, List.cons_append, List.mem_cons, List.not_mem_nil, or_false]
        at hv ⊢
      rcases hv with hv | hv | hv
      · exact .inr (.inl hv)
      · exact .inl hv
      · exact .inr (.inr hv)
    · cases h

theorem records_applyEffect (effect : Effect) :
    Records given (applyEffect position effect) fun _ => [] := by
  cases effect with
  | noop => exact records_pure () (by simp)
  | push c => exact records_pushFresh _ _ _ _ (by simp [Origin.operands])
  | pushNull => exact records_pushFresh _ _ _ _ (by simp [Origin.operands])
  | arrayLoad element =>
    cases element with
    | some d => exact records_binary d (by simp [Origin.operands])
    | none =>
      apply records_bind records_pop
      intro index
      apply records_bind records_pop
      intro array
      cases elementType? array with
      | none => exact records_malformed _
      | some d => exact records_pushFresh _ _ _ _ (by simp [Origin.operands])
  | arrayLength => exact records_unary "I" (by simp [Origin.operands])
  | consume count => exact records_discard (records_popN count)
  | pop => exact records_discard records_popOneWord
  | pop2 =>
    apply records_bind records_pop
    intro top
    cases top.category with
    | none => exact records_malformed _
    | some category =>
      cases category with
      | one => exact records_discard records_popOneWord
      | two => exact records_pure () (by simp)
  | dup form => exact records_duplicate form
  | swap => exact records_swap
  | binary d => exact records_binary d (by simp [Origin.operands])
  | negate d => exact records_unary d (by simp [Origin.operands])
  | convert d => exact records_unary d (by simp [Origin.operands])
  | compare => exact records_binary "I" (by simp [Origin.operands])

theorem records_applyInt (opcode : UInt8) (operand : Int32) :
    Records given (applyInt position opcode operand) fun _ => [] := by
  unfold applyInt
  split
  · exact records_pushFresh _ _ _ _ (by simp [Origin.operands])
  · exact records_pushFresh _ _ _ _ (by simp [Origin.operands])
  · cases arrayType? operand with
    | none => exact records_malformed _
    | some d => exact records_unary d (by simp [Origin.operands])
  · exact records_unsupported _

theorem records_applyVar (opcode : UInt8) (slot : Nat) :
    Records given (applyVar opcode slot) fun _ => [] := by
  unfold applyVar
  split
  · apply records_of_look
    intro s a t h
    cases hlocal : s.locals[slot]? with
    | none =>
      rw [hlocal] at h
      cases h
    | some v =>
      rw [hlocal] at h
      cases h
      refine ⟨rfl, fun w hw => .inl ?_⟩
      simp only [State.values, List.cons_append, List.mem_cons, List.mem_append, List.not_mem_nil,
        or_false] at hw ⊢
      rcases hw with rfl | hw
      · exact .inr (List.mem_of_getElem? hlocal)
      · exact hw
  split
  · exact records_bind records_pop fun v => records_storeLocal slot (by simp)
  · exact records_unsupported _

theorem records_applyType (opcode : UInt8) (operand : String) :
    Records given (applyType position opcode operand) fun _ => [] := by
  unfold applyType
  split
  · exact records_pushFresh _ _ _ _ (by simp [Origin.operands])
  · exact records_unary _ (by simp [Origin.operands])
  · exact records_bind records_pop fun _ => records_pushFresh _ _ _ _ (by simp [Origin.operands])
  · exact records_unary _ (by simp [Origin.operands])
  · exact records_unsupported _

theorem records_applyField (opcode : UInt8) (d : String) :
    Records given (applyField position opcode d) fun _ => [] := by
  unfold applyField
  split
  · exact records_pushFresh _ _ _ _ (by simp [Origin.operands])
  · exact records_discard records_pop
  · exact records_unary d (by simp [Origin.operands])
  · exact records_discard (records_popN 2)
  · exact records_unsupported _

theorem records_invoke (descriptor : String) (receiver : Bool) {origin : Origin}
    (h : origin.operands = []) : Records given (invoke descriptor receiver origin) fun _ => [] := by
  have hresult : ∀ (given : List Value) (result : String),
      Records given (pushResult result origin) fun _ => [] := by
    intro given result
    exact records_when _ (records_pushFresh _ _ _ _ (by simp [h]))
  unfold invoke
  cases hsplit : Descriptor.split descriptor with
  | error defect => exact records_malformed _
  | ok type =>
    have heq := invoke_eq hsplit receiver origin
    unfold invoke at heq
    rw [hsplit] at heq
    rw [heq]
    apply records_bind (records_popN _)
    intro _
    cases receiver with
    | true => exact records_bind records_pop fun _ => hresult _ _
    | false => exact hresult _ _

theorem records_applyJump (opcode : UInt8) : Records given (applyJump opcode) fun _ => [] := by
  unfold applyJump
  split
  · exact records_discard records_pop
  split
  · exact records_discard (records_popN 2)
  split
  · exact records_pure () (by simp)
  split
  · exact records_unsupported _
  · exact records_unsupported _

theorem records_step (b : Body) (i : Instruction) (given : List Value) :
    Records given (step b position i) fun _ => [] := by
  cases i with
  | insn opcode =>
    simp only [step]
    cases Effect.ofOpcode? opcode with
    | none => exact records_unsupported _
    | some effect => exact records_applyEffect position effect
  | int opcode operand => exact records_applyInt position opcode operand
  | var opcode slot => exact records_applyVar opcode slot.toNat
  | type opcode operand => exact records_applyType position opcode operand
  | field opcode owner name descriptor => exact records_applyField position opcode descriptor
  | method opcode owner name descriptor isInterface =>
    simp only [step, applyMethod]
    split
    · exact records_invoke descriptor _ rfl
    · exact records_unsupported _
  | invokeDynamic name descriptor bootstrap arguments => exact records_invoke descriptor false rfl
  | jump opcode label => exact records_applyJump opcode
  | label _ | line _ _ | iinc _ _ => exact records_pure () (by simp)
  | ldc constant => exact records_pushFresh _ _ _ _ (by simp [Origin.operands])
  | tableSwitch _ _ _ _ | lookupSwitch _ _ _ => exact records_discard records_pop
  | multiNewArray descriptor dimensions =>
    apply records_bind (records_popN _)
    intro lengths
    exact records_pushFresh _ _ _ _ fun u hu => List.mem_append_left given hu
  | frame declared => exact records_applyFrame b position declared

end

/-! ## Entry -/

theorem records_declareParameters {given : List Value} (index : Nat) (parameters : List String) :
    Records given (declareParameters index parameters) fun _ => [] := by
  induction parameters generalizing index given with
  | nil => exact records_pure () (by simp)
  | cons descriptor rest ih =>
    rw [declareParameters_cons]
    apply records_bind records_get
    intro s
    apply records_bind (records_fresh _ _ _ _ (by simp [Origin.operands]))
    intro v
    apply records_bind (records_pushLocal (by simp))
    intro _
    apply records_bind (records_when _ (records_bind records_invalid fun _ => records_pushLocal (by simp)))
    intro _
    exact records_bind (records_widths _) fun _ => ih (index + 1)

theorem records_enter (owner : String) (m : Method) : Records [] (enter owner m) fun _ => [] := by
  cases hsplit : Descriptor.split m.descriptor with
  | error defect =>
    unfold enter
    rw [hsplit]
    exact records_malformed _
  | ok type =>
    rw [enter_eq hsplit]
    have hreceiver : Records [] (if m.isStatic then pure () else declareReceiver owner) fun _ => [] := by
      split
      · exact records_pure () (by simp)
      · apply records_bind (records_fresh _ _ _ _ (by simp [Origin.operands]))
        intro v
        exact records_bind (records_pushLocal (by simp)) fun _ => records_widths fun _ => [1]
    apply records_bind hreceiver
    intro _
    exact records_bind (records_declareParameters 0 _) fun _ => records_ensureLocals _

end Sim

end Classmith.Simulation
