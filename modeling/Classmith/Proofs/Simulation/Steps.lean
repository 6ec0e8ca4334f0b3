import Classmith.Proofs.Simulation.Frames

/-!
# Renamed steps

Every instruction tracks its renamed form: whatever field type it derives from its operand or from the
values it takes, renaming derives the renamed one.
-/
namespace Classmith.Simulation.Sim

open Descriptor (IsPlainMethodType IsPlainRef IsPlainType)

variable {r : Renaming}

/-! ## Stack manipulation -/

theorem categoryAt_rename (s : State) (depth : Nat) :
    (s.rename r).categoryAt depth = s.categoryAt depth := by
  simp only [State.categoryAt, State.peek?, State.rename, List.getElem?_map]
  cases s.stack[depth]? with
  | none => rfl
  | some v => exact Value.category_rename r v

theorem tracks_duplicate (form : DupForm) : TracksUnit r (duplicate form) (duplicate form) := by
  apply tracks_bind tracks_get
  intro s hs
  simp only [categoryAt_rename]
  cases dupShape? form [s.categoryAt 0, s.categoryAt 1, s.categoryAt 2, s.categoryAt 3] with
  | none => exact tracks_malformed (.noDupForm form _)
  | some shape =>
    obtain ⟨take, below⟩ := shape
    have hcopies : insertCopies take below (s.rename r).stack =
        (insertCopies take below s.stack).map (Value.rename r) := by
      simp only [insertCopies, State.rename, List.map_append, List.map_take, List.map_drop]
    simp only [hcopies]
    refine tracks_set (t := { s with stack := insertCopies take below s.stack }) ⟨?_, hs.locals⟩
    intro v hv
    simp only [insertCopies, List.mem_append] at hv
    rcases hv with (hv | hv) | hv
    · exact hs.stack v (List.mem_of_mem_take hv)
    · exact hs.stack v (List.mem_of_mem_take hv)
    · exact hs.stack v (List.mem_of_mem_drop hv)

theorem tracks_swap : TracksUnit r swap swap := by
  apply tracks_bind tracks_get
  intro s hs
  have hstack : (s.rename r).stack = s.stack.map (Value.rename r) := rfl
  rw [hstack]
  match hs' : s.stack with
  | [] => exact tracks_malformed .notSwappable
  | [a] => exact tracks_malformed .notSwappable
  | a :: b :: rest =>
    simp only [List.map_cons, Value.category_rename]
    split
    · refine tracks_set (t := { s with stack := b :: a :: rest }) ⟨?_, hs.locals⟩
      intro v hv
      apply hs.stack v
      rw [hs']
      simp only [List.mem_cons] at hv ⊢
      rcases hv with hv | hv | hv
      · exact Or.inr (Or.inl hv)
      · exact Or.inl hv
      · exact Or.inr (Or.inr hv)
    · exact tracks_malformed .notSwappable

/-! ## Types that instructions derive -/

theorem signature_implied (hr : r.KeepsTypes) {name : String} (h : name ∈ impliedClasses) :
    r.signature ("L" ++ name ++ ";") = "L" ++ name ++ ";" := by
  have hname : ∀ name ∈ impliedClasses, Signature.IsName name := by decide
  exact r.signature_objectType (hname name h) (hr.implied name h)

/-- The element type that an array type shows. -/
def element? (text : String) : Option String :=
  if text.toList.head? = some '[' then some (String.ofList text.toList.tail) else none

theorem elementType?_eq (v : Value) : elementType? v =
    if v.isNull then some "Ljava/lang/Object;" else v.descriptor.bind element? := by
  unfold elementType?
  cases v.descriptor with
  | none => rfl
  | some text =>
    simp only [Option.map_some, Option.bind_some, element?]
    congr 1
    cases text.toList with
    | nil => rfl
    | cons c rest =>
      by_cases hc : c = '['
      · subst hc
        rfl
      · rw [if_neg (by simpa using hc)]
        split
        · rename_i heq
          simp only [Option.some.injEq, List.cons.injEq] at heq
          exact absurd heq.1 hc
        · rfl

theorem element?_signature {text : String} (h : IsPlainType text) :
    element? (r.signature text) = (element? text).map r.signature ∧
      ∀ d, element? text = some d → IsPlainType d := by
  have hhead : (r.signature text).toList.head? = text.toList.head? :=
    Signature.head?_text_renameClasses _ _
  unfold element?
  rw [hhead]
  split
  · rename_i hopen
    obtain ⟨rest, hlist⟩ : ∃ rest, text.toList = '[' :: rest := by
      cases hlist : text.toList with
      | nil => simp [hlist] at hopen
      | cons c rest =>
        simp only [hlist, List.head?_cons, Option.some.injEq] at hopen
        exact ⟨rest, by rw [hopen]⟩
    obtain ⟨t, ht, rfl⟩ := h.exists_element hlist
    have helement := Descriptor.isPlainType_print ht
    have hwhole : text = "[" ++ String.ofList t.print := by
      apply String.toList_injective
      simp [hlist]
    rw [hlist, List.tail_cons]
    refine ⟨?_, ?_⟩
    · rw [Option.map_some, hwhole, r.signature_array helement]
      simp
    · intro d hd
      cases hd
      exact helement
  · exact ⟨rfl, fun d hd => by cases hd⟩

theorem elementType?_rename (hr : r.KeepsTypes) {v : Value} (hv : v.IsPlain) :
    elementType? (v.rename r) = (elementType? v).map r.signature ∧
      ∀ d, elementType? v = some d → IsPlainType d := by
  have hobject : r.signature "Ljava/lang/Object;" = "Ljava/lang/Object;" :=
    signature_implied hr (by decide : "java/lang/Object" ∈ impliedClasses)
  rw [elementType?_eq, elementType?_eq, Value.isNull_rename, Value.descriptor_rename]
  split
  · refine ⟨by rw [Option.map_some, hobject], ?_⟩
    intro d hd
    cases hd
    decide
  · cases hdescriptor : v.descriptor with
    | none => exact ⟨rfl, fun d hd => by cases hd⟩
    | some text => exact element?_signature (hv text hdescriptor)

theorem descriptor_constant (hr : r.KeepsTypes) (c : Constant) :
    (r.constant c).descriptor = r.signature c.descriptor := by
  have hprimitive : ∀ d ∈ primitiveTypes, r.signature d = d := by
    have hmarks : ∀ d ∈ primitiveTypes, ';' ∉ d.toList ∧ '.' ∉ d.toList := by decide
    exact fun d hd => signature_eq_self r (hmarks d hd).1 (hmarks d hd).2
  cases c with
  | int _ => exact (hprimitive "I" (by decide)).symm
  | float _ => exact (hprimitive "F" (by decide)).symm
  | long _ => exact (hprimitive "J" (by decide)).symm
  | double _ => exact (hprimitive "D" (by decide)).symm
  | string _ => exact (signature_implied hr (by decide : "java/lang/String" ∈ impliedClasses)).symm
  | type _ => exact (signature_implied hr (by decide : "java/lang/Class" ∈ impliedClasses)).symm
  | methodType _ =>
    exact (signature_implied hr (by decide : "java/lang/invoke/MethodType" ∈ impliedClasses)).symm
  | handle _ =>
    exact (signature_implied hr (by decide : "java/lang/invoke/MethodHandle" ∈ impliedClasses)).symm
  | dynamic _ _ _ _ => rfl

theorem isPlainType_constant {c : Constant} (h : (Instruction.ldc c).IsPlain) :
    IsPlainType c.descriptor := by
  cases c with
  | dynamic _ _ _ _ => exact h
  | int _ | float _ | long _ | double _ | string _ | type _ | methodType _ | handle _ =>
    simp only [Constant.descriptor]
    decide

theorem tracks_pushValue {x y : Sim Value} (h : TracksValue r x y) :
    TracksUnit r (x >>= push) (y >>= push) :=
  tracks_bind h fun _ hv => tracks_push hv

theorem tracks_pushConstant (hr : r.KeepsTypes) {c : Constant} (h : (Instruction.ldc c).IsPlain) :
    TracksUnit r (value c.descriptor (.constant c) >>= push)
      (value (r.constant c).descriptor (.constant (r.constant c)) >>= push) := by
  rw [descriptor_constant hr]
  exact tracks_pushValue (tracks_value (isPlainType_constant h) (.constant c))

section Operands

variable {d d' : String}

/-- Making values of a type tracks making values of its renamed form. -/
def TracksType (r : Renaming) (d d' : String) : Prop :=
  ∀ origin : Origin, TracksValue r (value d origin) (value d' (origin.rename r))

theorem tracks_unary (hd : TracksType r d d') {origin origin' : Value → Origin}
    (horigin : ∀ v : Value, origin' (v.rename r) = (origin v).rename r) :
    TracksUnit r (unary d origin) (unary d' origin') := by
  apply tracks_bind tracks_pop
  intro v _
  rw [horigin]
  exact tracks_pushValue (hd (origin v))

theorem tracks_binary (hd : TracksType r d d') {origin origin' : Value → Value → Origin}
    (horigin : ∀ v w : Value, origin' (v.rename r) (w.rename r) = (origin v w).rename r) :
    TracksUnit r (binary d origin) (binary d' origin') := by
  apply tracks_bind tracks_pop
  intro right _
  apply tracks_bind tracks_pop
  intro left _
  rw [horigin]
  exact tracks_pushValue (hd (origin left right))

end Operands

/-! ## Instructions without operands -/

/-- Whether all types that an effect names are primitive. -/
def isPrimitive : Effect → Bool
  | .push (.int _) | .push (.float _) | .push (.long _) | .push (.double _) => true
  | .push _ => false
  | .arrayLoad (some d) | .binary d | .negate d | .convert d => d ∈ primitiveTypes
  | _ => true

theorem isPrimitive_ofOpcode? {opcode : UInt8} {effect : Effect}
    (h : Effect.ofOpcode? opcode = some effect) : isPrimitive effect = true := by
  have hall : ∀ n < 256, (Effect.ofOpcode? (UInt8.ofNat n)).all isPrimitive = true := by
    decide +kernel
  have hopcode := hall opcode.toNat opcode.toNat_lt
  rw [UInt8.ofNat_toNat, h] at hopcode
  exact hopcode

theorem constant_of_isPrimitive {c : Constant} (h : isPrimitive (.push c) = true) :
    r.constant c = c ∧ (Instruction.ldc c).IsPlain := by
  cases c with
  | int _ | float _ | long _ | double _ => exact ⟨rfl, trivial⟩
  | string _ | type _ | methodType _ | handle _ | dynamic _ _ _ _ => cases h

theorem tracks_applyEffect (hr : r.KeepsTypes) (position : Nat) {effect : Effect}
    (h : isPrimitive effect = true) :
    TracksUnit r (applyEffect position effect) (applyEffect position effect) := by
  have htype : ∀ {d : String}, decide (d ∈ primitiveTypes) = true → TracksType r d d :=
    fun hd origin => tracks_primitive (of_decide_eq_true hd) origin
  have hint : TracksType r "I" "I" := htype (by decide)
  cases effect with
  | noop => exact tracks_skip
  | push c =>
    obtain ⟨hsame, hplain⟩ := constant_of_isPrimitive (r := r) h
    have hpush := tracks_pushConstant hr hplain
    rwa [hsame] at hpush
  | pushNull => exact tracks_pushValue (tracks_fresh (by simp) true true .null)
  | arrayLoad element =>
    cases element with
    | some d => exact tracks_binary (htype h) fun v w => rfl
    | none =>
      apply tracks_bind tracks_pop
      intro index _
      apply tracks_bind tracks_pop
      intro array harray
      obtain ⟨hnew, hplain⟩ := elementType?_rename hr harray
      rw [hnew]
      cases helement : elementType? array with
      | none =>
        rw [Value.text_rename]
        exact tracks_malformed (.notAnArray array.text)
      | some d =>
        exact tracks_pushValue (tracks_value (hplain d helement)
          (.arrayElement position array index))
  | arrayLength => exact tracks_unary hint fun v => rfl
  | consume count => exact tracks_bind (tracks_popN count) fun _ _ => tracks_skip
  | pop => exact tracks_bind tracks_popOneWord fun _ _ => tracks_skip
  | pop2 =>
    apply tracks_bind tracks_pop
    intro top _
    rw [Value.category_rename]
    cases top.category with
    | none =>
      rw [Value.text_rename]
      exact tracks_malformed (.notPoppable top.text)
    | some category =>
      cases category with
      | one => exact tracks_bind tracks_popOneWord fun _ _ => tracks_skip
      | two => exact tracks_skip
  | dup form => exact tracks_duplicate form
  | swap => exact tracks_swap
  | binary d => exact tracks_binary (htype h) fun v w => rfl
  | negate d => exact tracks_unary (htype h) fun v => rfl
  | convert d => exact tracks_unary (htype h) fun v => rfl
  | compare => exact tracks_binary hint fun v w => rfl

/-! ## Instructions with operands -/

theorem arrayType?_kept {code : Int32} {d : String} (h : arrayType? code = some d) :
    IsPlainType d ∧ r.signature d = d := by
  have hall : ∀ d ∈ ["[Z", "[C", "[F", "[D", "[B", "[S", "[I", "[J"],
      IsPlainType d ∧ ';' ∉ d.toList ∧ '.' ∉ d.toList := by decide
  have hd : d ∈ ["[Z", "[C", "[F", "[D", "[B", "[S", "[I", "[J"] := by
    unfold arrayType? at h
    split at h <;> cases h <;> decide
  obtain ⟨hplain, hsemi, hdot⟩ := hall d hd
  exact ⟨hplain, signature_eq_self r hsemi hdot⟩

theorem tracks_type {d : String} (h : IsPlainType d) : TracksType r d (r.signature d) :=
  fun origin => tracks_value h origin

theorem tracks_applyInt (position : Nat) (opcode : UInt8) (operand : Int32) :
    TracksUnit r (applyInt position opcode operand) (applyInt position opcode operand) := by
  unfold applyInt
  split
  · exact tracks_pushValue (tracks_primitive (by decide) (.constant (.int operand)))
  · exact tracks_pushValue (tracks_primitive (by decide) (.constant (.int operand)))
  · cases h : arrayType? operand with
    | none => exact tracks_malformed (.unknownArrayType operand)
    | some d =>
      obtain ⟨hplain, hkept⟩ := arrayType?_kept (r := r) h
      have htype := tracks_type (r := r) hplain
      rw [hkept] at htype
      exact tracks_unary htype fun v => rfl
  · exact tracks_unsupported (.int opcode)

theorem tracks_applyVar (opcode : UInt8) (slot : Nat) :
    TracksUnit r (applyVar opcode slot) (applyVar opcode slot) := by
  unfold applyVar
  split
  · apply tracks_bind tracks_get
    intro s hs
    simp only [State.rename, List.getElem?_map]
    cases hv : s.locals[slot]? with
    | none => exact tracks_malformed (.missingLocal slot)
    | some v => exact tracks_push (hs.locals v (List.mem_of_getElem? hv))
  · split
    · exact tracks_bind tracks_pop fun v hv => tracks_storeLocal slot hv
    · exact tracks_unsupported (.var opcode)

theorem tracks_applyType (hr : r.KeepsTypes) (position : Nat) (opcode : UInt8) {operand : String}
    (h : IsPlainRef operand) :
    TracksUnit r (applyType position opcode operand)
      (applyType position opcode (r.classRef operand)) := by
  have hplain := h.isPlainType_ofName
  have hname := r.ofName_classRef hr.plain h
  unfold applyType
  split
  · rw [hname]
    exact tracks_pushValue (tracks_value hplain (.newObject position))
  · rw [hname, ← r.signature_array hplain]
    exact tracks_unary (tracks_type hplain.array) fun v => rfl
  · apply tracks_bind tracks_pop
    intro source _
    rw [hname, Value.isNull_rename]
    exact tracks_pushValue (tracks_fresh (by simpa using hplain) true source.isNull
      (.cast position source))
  · exact tracks_unary (fun origin => tracks_primitive (by decide) origin) fun v => rfl
  · exact tracks_unsupported (.type opcode)

theorem tracks_applyField (position : Nat) (opcode : UInt8) {d : String} (h : IsPlainType d) :
    TracksUnit r (applyField position opcode d) (applyField position opcode (r.signature d)) := by
  unfold applyField
  split
  · exact tracks_pushValue (tracks_value h (.fieldRead position))
  · exact tracks_bind tracks_pop fun _ _ => tracks_skip
  · exact tracks_unary (tracks_type h) fun v => rfl
  · exact tracks_bind (tracks_popN 2) fun _ _ => tracks_skip
  · exact tracks_unsupported (.field opcode)

/-- What a call pushes. -/
def pushResult (result : String) (origin : Origin) : Sim Unit :=
  if result ≠ "V" then value result origin >>= push else pure ()

theorem invoke_eq {descriptor : String} {type : Descriptor.MethodType}
    (h : Descriptor.split descriptor = .ok type) (receiver : Bool) (origin : Origin) :
    invoke descriptor receiver origin = (do
      let _ ← popN type.parameters.length
      if receiver then
        let _ ← pop
        pushResult type.result origin
      else pushResult type.result origin) := by
  unfold invoke
  rw [h]
  cases receiver <;> rfl

theorem tracks_pushResult (hr : r.KeepsTypes) {result : String}
    (h : result = "V" ∨ IsPlainType result) (origin : Origin) :
    TracksUnit r (pushResult result origin)
      (pushResult (r.signature result) (origin.rename r)) := by
  unfold pushResult
  by_cases hvoid : result = "V"
  · subst hvoid
    rw [r.signature_void]
    exact tracks_skip
  · have hplain := h.resolve_left hvoid
    rw [if_pos hvoid, if_pos (r.signature_ne_void hr.plain.areNames hplain)]
    exact tracks_pushValue (tracks_value hplain origin)

theorem tracks_invoke (hr : r.KeepsTypes) {descriptor : String} (h : IsPlainMethodType descriptor)
    {type : Descriptor.MethodType} (hsplit : Descriptor.split descriptor = .ok type) (receiver : Bool)
    (origin : Origin) :
    TracksUnit r (invoke descriptor receiver origin)
      (invoke (r.signature descriptor) receiver (origin.rename r)) := by
  have hnew := r.split_signature hr.plain.areNames hr.noParen h hsplit
  have hresult := (h.isPlainType (Descriptor.split_eq_ok_iff.mp hsplit).toDescribes).2
  rw [invoke_eq hsplit, invoke_eq hnew, List.length_map]
  apply tracks_bind (tracks_popN _)
  intro _ _
  cases receiver with
  | true => exact tracks_bind tracks_pop fun _ _ => tracks_pushResult hr hresult origin
  | false => exact tracks_pushResult hr hresult origin

/-- The descriptor of a call, and whether the call takes a receiver. -/
def call? : Instruction → Option (String × Bool)
  | .method opcode _ _ descriptor _ =>
    if 0xb6 ≤ opcode && opcode ≤ 0xb9 then some (descriptor, opcode ≠ 0xb8) else none
  | .invokeDynamic _ descriptor _ _ => some (descriptor, false)
  | _ => none

/-- A call does what its descriptor says, in the renamed body what the renamed descriptor says. -/
theorem step_of_call? {i : Instruction} {descriptor : String} {receiver : Bool}
    (h : call? i = some (descriptor, receiver)) (b : Body) (position : Nat) :
    ∃ origin, step b position i = invoke descriptor receiver origin ∧
      step (b.rename r) position (r.instruction i) =
        invoke (r.signature descriptor) receiver (origin.rename r) := by
  cases i with
  | method opcode owner name text isInterface =>
    simp only [call?] at h
    split at h
    · rename_i hopcode
      cases h
      have hmethod : ∀ text, applyMethod position opcode text =
          invoke text (opcode ≠ 0xb8) (.methodReturn position) := by
        intro text
        rw [applyMethod, if_pos hopcode]
      exact ⟨.methodReturn position, hmethod descriptor, hmethod (r.signature descriptor)⟩
    · cases h
  | invokeDynamic name text bootstrap arguments =>
    cases h
    exact ⟨.dynamicReturn position, rfl, rfl⟩
  | _ => cases h

theorem isPlainMethodType_of_call? {i : Instruction} (hi : i.IsPlain) {descriptor : String} {receiver : Bool}
    (h : call? i = some (descriptor, receiver)) : IsPlainMethodType descriptor := by
  cases i with
  | method opcode owner name text isInterface =>
    simp only [call?] at h
    split at h
    · cases h
      exact hi
    · cases h
  | invokeDynamic name text bootstrap arguments =>
    cases h
    exact hi
  | _ => cases h

theorem tracks_applyJump (opcode : UInt8) : TracksUnit r (applyJump opcode) (applyJump opcode) := by
  unfold applyJump
  split
  · exact tracks_bind tracks_pop fun _ _ => tracks_skip
  split
  · exact tracks_bind (tracks_popN 2) fun _ _ => tracks_skip
  split
  · exact tracks_skip
  split
  · exact tracks_unsupported .subroutine
  · exact tracks_unsupported (.jump opcode)

/-- An instruction that is no call does in the renamed body what it does in the body. -/
theorem tracks_step_of_call?_eq_none (hr : r.KeepsTypes) {b : Body} (hb : b.IsPlain) (position : Nat)
    {i : Instruction} (hi : i.IsPlain) (hcall : call? i = none) :
    TracksUnit r (step b position i) (step (b.rename r) position (r.instruction i)) := by
  cases i with
  | insn opcode =>
    simp only [Renaming.instruction, step]
    cases heffect : Effect.ofOpcode? opcode with
    | none => exact tracks_unsupported (.insn opcode)
    | some effect => exact tracks_applyEffect hr position (isPrimitive_ofOpcode? heffect)
  | int opcode operand => exact tracks_applyInt position opcode operand
  | var opcode slot => exact tracks_applyVar opcode slot.toNat
  | type opcode operand => exact tracks_applyType hr position opcode hi
  | field opcode owner name descriptor => exact tracks_applyField position opcode hi
  | method opcode owner name descriptor isInterface =>
    simp only [call?] at hcall
    split at hcall
    · cases hcall
    · rename_i hopcode
      simp only [step, Renaming.instruction, applyMethod, hopcode]
      exact tracks_unsupported (.method opcode)
  | invokeDynamic name descriptor bootstrap arguments => cases hcall
  | jump opcode label => exact tracks_applyJump opcode
  | label _ | line _ _ | iinc _ _ => exact tracks_skip
  | ldc constant => exact tracks_pushConstant hr hi
  | tableSwitch _ _ _ _ | lookupSwitch _ _ _ => exact tracks_bind tracks_pop fun _ _ => tracks_skip
  | multiNewArray descriptor dimensions =>
    apply tracks_bind (tracks_popN dimensions.toNat)
    intro lengths _
    rw [← Origin.rename_newArray]
    exact tracks_pushValue (tracks_value hi (.newArray position lengths))
  | frame declared => exact tracks_applyFrame hr hb position hi

/-- So does a call whose descriptor can be split. -/
theorem tracks_step_of_call? (hr : r.KeepsTypes) {i : Instruction} (hi : i.IsPlain) {descriptor : String}
    {receiver : Bool} (hcall : call? i = some (descriptor, receiver)) {type : Descriptor.MethodType}
    (hsplit : Descriptor.split descriptor = .ok type) (b : Body) (position : Nat) :
    TracksUnit r (step b position i) (step (b.rename r) position (r.instruction i)) := by
  obtain ⟨origin, hstep, hnew⟩ := step_of_call? (r := r) hcall b position
  rw [hstep, hnew]
  exact tracks_invoke hr (isPlainMethodType_of_call? hi hcall) hsplit receiver origin

end Classmith.Simulation.Sim
