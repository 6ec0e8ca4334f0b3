import Classmith.Proofs.Simulation.Locals

/-!
# Two-word locals and their placeholders

A two-word value takes its slot and the next one, which holds no value of its own. Method entry, stores,
chop and full frames keep it so. An append frame writes the first slot that is not declared without
looking at the slot before it: where that holds a two-word value, the value is cut, unless the frame
declares nothing usable there.
-/
namespace Classmith

namespace Simulation

/-- Every two-word local is followed by a slot without a valid value. -/
def State.Paired (s : State) : Prop :=
  ∀ slot v, s.locals[slot]? = some v → v.category = some .two →
    ∃ w, s.locals[slot + 1]? = some w ∧ w.isValid = false

/-! ## Kinds in slots -/

/-- The same of the kinds of the values in a range of slots. -/
def PairedKinds (l : List Kind) : Prop :=
  ∀ slot k, l[slot]? = some k → k.category = some .two →
    ∃ k', l[slot + 1]? = some k' ∧ k'.isValid = false

theorem State.paired_iff (s : State) : s.Paired ↔ PairedKinds (s.locals.map Value.kind) := by
  constructor
  · intro h slot k hk hwide
    rw [List.getElem?_map] at hk
    obtain ⟨v, hv, rfl⟩ := Option.map_eq_some_iff.mp hk
    obtain ⟨w, hw, hinvalid⟩ := h slot v hv (by rw [← v.category_kind, hwide])
    exact ⟨w.kind, by rw [List.getElem?_map, hw, Option.map_some], hinvalid⟩
  · intro h slot v hv hwide
    have hkind : (s.locals.map Value.kind)[slot]? = some v.kind := by
      rw [List.getElem?_map, hv, Option.map_some]
    obtain ⟨k, hk, hinvalid⟩ := h slot v.kind hkind (by rw [v.category_kind, hwide])
    rw [List.getElem?_map] at hk
    obtain ⟨w, hw, rfl⟩ := Option.map_eq_some_iff.mp hk
    exact ⟨w, hw, hinvalid⟩

theorem pairedKinds_nil : PairedKinds [] := by
  intro slot k h
  simp at h

theorem pairedKinds_single {k : Kind} (h : k.category ≠ some .two) : PairedKinds [k] := by
  intro slot k' hk' hwide
  obtain rfl : k' = k := by
    have hmem := List.mem_of_getElem? hk'
    exact List.mem_singleton.mp hmem
  exact absurd hwide h

theorem pairedKinds_pair (k : Kind) : PairedKinds [k, .unusable] := by
  intro slot k' hk' hwide
  match slot with
  | 0 => exact ⟨.unusable, rfl, rfl⟩
  | 1 =>
    cases hk'
    cases hwide
  | slot + 2 => simp at hk'

theorem pairedKinds_replicate (count : Nat) : PairedKinds (List.replicate count .unusable) := by
  intro slot k hk hwide
  obtain rfl := List.eq_of_mem_replicate (List.mem_of_getElem? hk)
  cases hwide

theorem PairedKinds.append {l l' : List Kind} (h : PairedKinds l) (h' : PairedKinds l') :
    PairedKinds (l ++ l') := by
  intro slot k hk hwide
  by_cases hslot : slot < l.length
  · rw [List.getElem?_append_left hslot] at hk
    obtain ⟨k', hk', hinvalid⟩ := h slot k hk hwide
    have hnext : slot + 1 < l.length := (List.getElem?_eq_some_iff.mp hk').1
    exact ⟨k', by rw [List.getElem?_append_left hnext, hk'], hinvalid⟩
  · have hle : l.length ≤ slot := Nat.le_of_not_lt hslot
    rw [List.getElem?_append_right hle] at hk
    obtain ⟨k', hk', hinvalid⟩ := h' (slot - l.length) k hk hwide
    refine ⟨k', ?_, hinvalid⟩
    rw [List.getElem?_append_right (by omega), Nat.sub_add_comm hle, hk']

theorem PairedKinds.drop {l : List Kind} (h : PairedKinds l) (count : Nat) :
    PairedKinds (l.drop count) := by
  intro slot k hk hwide
  rw [List.getElem?_drop] at hk
  obtain ⟨k', hk', hinvalid⟩ := h (count + slot) k hk hwide
  exact ⟨k', by rw [List.getElem?_drop, ← Nat.add_assoc, hk'], hinvalid⟩

/-- Overwriting the slots from one on is safe exactly if no two-word value is cut. -/
theorem PairedKinds.take_append_iff {l l' : List Kind} (h : PairedKinds l) (h' : PairedKinds l')
    {count : Nat} (hcount : count ≤ l.length) : PairedKinds (l.take count ++ l') ↔
      ∀ slot k, slot + 1 = count → l[slot]? = some k → k.category = some .two →
        ∃ k', l'[0]? = some k' ∧ k'.isValid = false := by
  have hlength : (l.take count).length = count := List.length_take_of_le hcount
  constructor
  · rintro hall slot k rfl hk hwide
    have hkept : (l.take (slot + 1) ++ l')[slot]? = some k := by
      rw [List.getElem?_append_left (by omega), List.getElem?_take_of_lt (Nat.lt_succ_self slot), hk]
    obtain ⟨k', hk', hinvalid⟩ := hall slot k hkept hwide
    rw [List.getElem?_append_right (by omega), hlength, Nat.sub_self] at hk'
    exact ⟨k', hk', hinvalid⟩
  · intro hlast slot k hk hwide
    by_cases hslot : slot < count
    · rw [List.getElem?_append_left (by omega), List.getElem?_take_of_lt hslot] at hk
      by_cases hnext : slot + 1 < count
      · obtain ⟨k', hk', hinvalid⟩ := h slot k hk hwide
        refine ⟨k', ?_, hinvalid⟩
        rw [List.getElem?_append_left (by omega), List.getElem?_take_of_lt hnext, hk']
      · have hend : slot + 1 = count := by omega
        obtain ⟨k', hk', hinvalid⟩ := hlast slot k hend hk hwide
        refine ⟨k', ?_, hinvalid⟩
        rw [List.getElem?_append_right (by omega), hlength, hend, Nat.sub_self, hk']
    · rw [List.getElem?_append_right (by omega), hlength] at hk
      obtain ⟨k', hk', hinvalid⟩ := h' (slot - count) k hk hwide
      refine ⟨k', ?_, hinvalid⟩
      rw [List.getElem?_append_right (by omega), hlength, Nat.sub_add_comm (by omega), hk']

/-! ## Declared locals -/

theorem category_ofType_ofName (name : String) :
    (Kind.ofType (Descriptor.ofName name)).category = some .one := by
  simp [Kind.ofType, Kind.category, Descriptor.category_shape, Descriptor.category_ofName]

theorem exists_ofName_of_allocated {b : Body} {label : Label} {d : String}
    (h : b.allocated label = .ok d) : ∃ name, d = Descriptor.ofName name := by
  rw [allocated_eq] at h
  cases hafter : Body.after? label b.instructions with
  | none =>
    rw [hafter] at h
    cases h
  | some rest =>
    rw [hafter, Option.elim_some] at h
    cases hfound : (rest.find? fun i => !Body.isMarker i).bind allocation? with
    | none =>
      rw [hfound] at h
      cases h
    | some name =>
      rw [hfound] at h
      cases h
      exact ⟨name, rfl⟩

/-- Only longs and doubles are declared as two-word values. -/
theorem category_kind_of_width {b : Body} {entry : FrameValue} (h : entry.width = 1) :
    (entry.kind b).category ≠ some .two := by
  unfold FrameValue.kind
  cases entry with
  | top => exact (by decide : Kind.unusable.category ≠ some .two)
  | null => exact (by decide : (⟨true, true, none⟩ : Kind).category ≠ some .two)
  | integer => exact (by decide : (Kind.ofType "I").category ≠ some .two)
  | float => exact (by decide : (Kind.ofType "F").category ≠ some .two)
  | long | double => cases h
  | uninitializedThis => simp [FrameValue.kind?, FrameValue.make?, category_ofType_ofName]
  | object name => simp [FrameValue.kind?, FrameValue.make?, category_ofType_ofName]
  | uninitialized label =>
    simp only [FrameValue.kind?, FrameValue.make?]
    cases hallocated : b.allocated label with
    | error cause => simp [Except.toOption, Kind.unusable, Kind.category]
    | ok d =>
      obtain ⟨name, rfl⟩ := exists_ofName_of_allocated hallocated
      simp [Except.toOption, category_ofType_ofName]

theorem pairedKinds_entry (b : Body) (entry : FrameValue) : PairedKinds (entry.slotKinds b) := by
  unfold FrameValue.slotKinds FrameValue.slots
  rcases entry.width_eq with hone | htwo
  · rw [hone]
    exact pairedKinds_single (category_kind_of_width hone)
  · rw [htwo]
    exact pairedKinds_pair _

theorem pairedKinds_slotKinds (b : Body) (entries : List FrameValue) :
    PairedKinds (slotKinds b entries) := by
  induction entries with
  | nil => exact pairedKinds_nil
  | cons entry rest ih =>
    have hcons : slotKinds b (entry :: rest) = entry.slotKinds b ++ slotKinds b rest := by
      simp [slotKinds]
    rw [hcons]
    exact (pairedKinds_entry b entry).append ih

/-- Of the values a frame can declare only top is not valid. -/
theorem isValid_kind_iff {b : Body} {entry : FrameValue} (h : (entry.kind? b).isSome = true) :
    (entry.kind b).isValid = false ↔ entry = .top := by
  unfold FrameValue.kind
  cases entry with
  | uninitialized label =>
    simp only [FrameValue.kind?, FrameValue.make?] at h ⊢
    cases hallocated : b.allocated label with
    | error cause => simp [hallocated, Except.toOption] at h
    | ok d => simp [Except.toOption, Kind.ofType]
  | null => simp [FrameValue.kind?, FrameValue.make?, Value.kind, Value.isValid]
  | _ => simp [FrameValue.kind?, FrameValue.make?, Kind.ofType, Kind.unusable]

/-- The last declared slot holds a two-word value, which reaches into the first slot that is free. -/
def State.Overhangs (s : State) : Prop :=
  ∃ slot v, slot + 1 = s.declaredSlots ∧ s.locals[slot]? = some v ∧ v.category = some .two

/-- The instruction declares a usable value in the second slot of a two-word value. -/
def CutsValue (s : State) (i : Instruction) : Prop :=
  ∃ first rest, i = .frame (.append (first :: rest)) ∧ first ≠ .top ∧ s.Overhangs

namespace Sim

variable {b : Body} {position : Nat} {s t : State}

theorem Declares.paired_iff {entries : List FrameValue} (h : Declares b entries s t)
    (hroom : s.HasRoom) (hknown : Known b entries) (hs : s.Paired) :
    t.Paired ↔ ¬CutsValue s (.frame (.append entries)) := by
  have hkinds := s.paired_iff.mp hs
  have hroom' : s.declaredSlots ≤ (s.locals.map Value.kind).length := by
    rw [List.length_map]
    exact hroom
  have hrest : PairedKinds (slotKinds b entries ++
      (s.locals.map Value.kind).drop (s.declaredSlots + (slotKinds b entries).length)) :=
    (pairedKinds_slotKinds b entries).append (hkinds.drop _)
  rw [t.paired_iff, h.locals, List.append_assoc, hkinds.take_append_iff hrest hroom']
  constructor
  · rintro hlast ⟨first, rest, hframe, hfirst, slot, v, hslot, hv, hwide⟩
    cases hframe
    have hkind : (s.locals.map Value.kind)[slot]? = some v.kind := by
      rw [List.getElem?_map, hv, Option.map_some]
    obtain ⟨k, hk, hinvalid⟩ := hlast slot v.kind hslot hkind (by rw [v.category_kind, hwide])
    have hdeclared : k = first.kind b := by
      simpa [slotKinds, FrameValue.slotKinds, FrameValue.slots] using hk.symm
    rw [hdeclared] at hinvalid
    exact hfirst ((isValid_kind_iff (hknown first List.mem_cons_self)).mp hinvalid)
  · intro hcuts slot k hslot hk hwide
    rw [List.getElem?_map] at hk
    obtain ⟨v, hv, rfl⟩ := Option.map_eq_some_iff.mp hk
    rw [v.category_kind] at hwide
    cases entries with
    | nil =>
      -- nothing is declared, so the old placeholder is still there
      obtain ⟨w, hw, hinvalid⟩ := hs slot v hv hwide
      refine ⟨w.kind, ?_, hinvalid⟩
      simp [slotKinds, ← hslot, hw]
    | cons first rest =>
      refine ⟨first.kind b, by simp [slotKinds, FrameValue.slotKinds, FrameValue.slots], ?_⟩
      refine (isValid_kind_iff (hknown first List.mem_cons_self)).mpr ?_
      by_cases hfirst : first = .top
      · exact hfirst
      · exact absurd ⟨first, rest, rfl, hfirst, slot, v, hslot, hv, hwide⟩ hcuts

/-! ## The other operations -/

theorem Stores.paired {slot : Nat} {v : Value} (h : Stores slot v s t) (hs : s.Paired) : t.Paired := by
  intro i w hw hwide
  by_cases hi : i = slot
  · subst hi
    obtain rfl : v = w := Option.some.inj (h.stored.symm.trans hw)
    obtain ⟨placeholder, hnext, hkind⟩ := h.second hwide
    exact ⟨placeholder, hnext, congrArg Kind.isValid hkind⟩
  · have hnext : i + 1 ≠ slot := fun heq => h.below i w heq hw hwide
    rcases h.other i hi with hsame | ⟨lost, hlost, hkind⟩
    · obtain ⟨placeholder, hplaceholder, hinvalid⟩ := hs i w (hsame ▸ hw) hwide
      rcases h.other (i + 1) hnext with hsame' | ⟨lost, hlost, hkind⟩
      · exact ⟨placeholder, hsame'.trans hplaceholder, hinvalid⟩
      · exact ⟨lost, hlost, congrArg Kind.isValid hkind⟩
    · -- a lost value has no words at all
      obtain rfl : lost = w := Option.some.inj (hlost.symm.trans hw)
      rw [category_of_unusable hkind] at hwide
      cases hwide

theorem paired_invalidate {slot count : Nat} (hs : s.Paired)
    (h : invalidate slot count s = .ok ((), t)) : t.Paired := by
  cases h
  intro i w hw hwide
  rw [List.getElem?_mapIdx] at hw
  obtain ⟨v, hv, rfl⟩ := Option.map_eq_some_iff.mp hw
  split at hwide
  · cases hwide
  · obtain ⟨placeholder, hnext, hinvalid⟩ := hs i v hv hwide
    refine ⟨_, by rw [List.getElem?_mapIdx, hnext, Option.map_some], ?_⟩
    split
    · rfl
    · exact hinvalid

theorem paired_chop {count : Nat} (hs : s.Paired) (h : chop count s = .ok ((), t)) : t.Paired := by
  induction count generalizing s with
  | zero =>
    cases h
    exact hs
  | succ count ih =>
    cases hwidths : s.widths with
    | nil =>
      rw [chop_of_nil hwidths] at h
      cases h
    | cons width rest =>
      obtain ⟨u, hinvalid, hchop⟩ := chop_of_cons hwidths count
      rw [hchop] at h
      have hrest : State.Paired { s with widths := rest } := hs
      exact ih (paired_invalidate hrest hinvalid) h

theorem paired_applyFrame_iff {declared : Frame} (hroom : s.HasRoom) (hs : s.Paired)
    (h : applyFrame b position declared s = .ok ((), t)) :
    t.Paired ↔ ¬CutsValue s (.frame declared) := by
  have hother : (∀ entries, declared ≠ .append entries) → ¬CutsValue s (.frame declared) := by
    rintro hne ⟨first, rest, hframe, -⟩
    cases hframe
    exact hne _ rfl
  cases declared with
  | same =>
    cases h
    exact iff_of_true hs (hother (by simp))
  | same1 entry =>
    rw [applyFrame] at h
    obtain ⟨⟨v, width⟩, u, hvalue, h⟩ := exists_of_bind h
    obtain ⟨_, _, hclear, h⟩ := exists_of_bind h
    cases hclear
    cases h
    obtain ⟨-, rfl⟩ := frameValue_spec hvalue
    exact iff_of_true hs (hother (by simp))
  | append entries =>
    rw [applyFrame] at h
    obtain ⟨_, u, hlocals, h⟩ := exists_of_bind h
    cases h
    have hknown := known_of_declareLocals hlocals
    obtain ⟨u', hu', hdeclares⟩ := declareLocals_known position hknown hroom
    rw [hu'] at hlocals
    cases hlocals
    exact hdeclares.paired_iff hroom hknown hs
  | chop count =>
    rw [applyFrame] at h
    obtain ⟨_, u, hchop, h⟩ := exists_of_bind h
    cases h
    have hu := paired_chop hs hchop
    exact iff_of_true hu (hother (by simp))
  | full entries stack =>
    refine iff_of_true ?_ (hother (by simp))
    rw [t.paired_iff, (settled_of_applyFrame h).locals]
    exact (pairedKinds_slotKinds b entries).append (pairedKinds_replicate _)

theorem paired_step_iff {i : Instruction} (hroom : s.HasRoom) (hs : s.Paired)
    (h : step b position i s = .ok ((), t)) : t.Paired ↔ ¬CutsValue s i := by
  rcases step_cases h with ⟨hlocals, -⟩ | ⟨opcode, slot, v, rest, rfl, -, hstores⟩ | ⟨declared, rfl, hframe⟩
  · have ht : t.Paired := by
      unfold State.Paired
      rw [hlocals]
      exact hs
    refine iff_of_true ht ?_
    rintro ⟨first, rest, rfl, hfirst, hover⟩
    have hframe : applyFrame b position (.append (first :: rest)) s = .ok ((), t) := h
    exact (paired_applyFrame_iff hroom hs hframe).mp ht ⟨first, rest, rfl, hfirst, hover⟩
  · refine iff_of_true (hstores.paired hs) ?_
    rintro ⟨first, rest, hi, -⟩
    cases hi
  · exact paired_applyFrame_iff hroom hs hframe

/-! ## The start of a method -/

theorem paired_declareParameters {index : Nat} {parameters : List String} (hs : s.Paired)
    (h : declareParameters index parameters s = .ok ((), t)) : t.Paired := by
  induction parameters generalizing index s with
  | nil =>
    cases h
    exact hs
  | cons d rest ih =>
    rw [declareParameters_cons] at h
    have hkinds := s.paired_iff.mp hs
    cases hcategory : Descriptor.category d with
    | one =>
      rw [hcategory] at h
      refine ih ?_ h
      rw [State.paired_iff]
      simp only [List.map_append, List.map_cons, List.map_nil]
      refine hkinds.append (pairedKinds_single ?_)
      rw [Value.category_kind]
      simp [Value.category, Value.isNull, Value.isValid, Value.descriptor, hcategory]
    | two =>
      rw [hcategory] at h
      refine ih ?_ h
      rw [State.paired_iff]
      simp only [List.map_append, List.map_cons, List.map_nil, List.append_assoc]
      exact hkinds.append (pairedKinds_pair _)

theorem paired_enter {owner : String} {m : Method} (h : enter owner m State.start = .ok ((), t)) :
    t.Paired := by
  cases hsplit : Descriptor.split m.descriptor with
  | error defect =>
    unfold enter at h
    rw [hsplit] at h
    cases h
  | ok type =>
    rw [enter_eq hsplit] at h
    obtain ⟨_, u, hreceiver, h⟩ := exists_of_bind h
    obtain ⟨_, w, hparameters, h⟩ := exists_of_bind h
    have hu : u.Paired := by
      split at hreceiver
      · cases hreceiver
        rw [State.paired_iff]
        exact pairedKinds_nil
      · cases hreceiver
        rw [State.paired_iff]
        refine pairedKinds_single ?_
        rw [Value.category_kind]
        simp [Value.category, Value.isNull, Value.isValid, Value.descriptor, Descriptor.category_ofName]
    have hw := paired_declareParameters hu hparameters
    obtain ⟨t', ht', -, -, hkinds⟩ := ensureLocals_ok m.maxLocals.toNat w
    rw [ht'] at h
    cases h
    rw [State.paired_iff, hkinds]
    exact (w.paired_iff.mp hw).append (pairedKinds_replicate _)

end Sim

end Simulation

open Simulation

/-- Two-word locals keep their placeholders up to an instruction exactly if no append frame before it
declares a usable value in the slot after a two-word value: every other instruction, whatever it
overwrites, leaves each two-word local with a slot after it that holds no valid value. -/
theorem wide_locals_paired_iff (c : Class) (m : Method) (n : Nat) :
    (∀ count, count ≤ n → ∀ s, stateAfter? c m count = some s → s.Paired) ↔
      ∀ count, count < n → ∀ s t, stateAfter? c m count = some s →
        stateAfter? c m (count + 1) = some t → ¬∃ i ∈ m.instructions[count]?, CutsValue s i := by
  refine forall_le_iff_no_break (fun s hs => ?_) (fun count t ht => ?_) (fun count s t hs ht hpaired => ?_) n
  · rw [stateAfter?_zero] at hs
    exact Sim.paired_enter (enter_of_start? hs)
  · obtain ⟨s, -, hs, -⟩ := step_of_stateAfter? ht
    exact ⟨s, hs⟩
  · obtain ⟨s', i, hs', hi, hstep⟩ := step_of_stateAfter? ht
    obtain rfl : s = s' := Option.some.inj (hs.symm.trans hs')
    rw [Sim.paired_step_iff (hasRoom_of_stateAfter? hs) hpaired hstep, hi]
    simp

namespace Samples

/-- Stores a long over its parameter before a frame that declares another local. -/
def overlap : Method where
  access := 0x0008
  name := "overlap"
  descriptor := "(I)V"
  maxLocals := 2
  instructions := [.insn 0x09, .var 0x37 0, .frame (.append [.integer])]

end Samples

/-- A long is cut by a frame that declares an int in its second slot: both slots can be read. -/
theorem append_frame_cuts_long :
    (walk Samples.tree Samples.overlap).outcome.toOption = some .walked ∧
    ∃ s v w, (walk Samples.tree Samples.overlap).after? 2 = some s ∧ s.locals = [v, w] ∧
      v.category = some .two ∧ w.isValid = true ∧ ¬s.Paired := by
  have hslots : ((walk Samples.tree Samples.overlap).after? 2).map (fun s =>
      s.locals.map Value.use) = some [(true, some .two), (true, some .one)] := by decide +kernel
  obtain ⟨s, hs, hlocals⟩ := Option.map_eq_some_iff.mp hslots
  obtain ⟨v, rest, hv, hwide, hrest⟩ := List.map_eq_cons_iff.mp hlocals
  obtain ⟨w, last, rfl, hvalid, hlast⟩ := List.map_eq_cons_iff.mp hrest
  obtain rfl := List.map_eq_nil_iff.mp hlast
  have hcategory : v.category = some .two := congrArg Prod.snd hwide
  have hisValid : w.isValid = true := congrArg Prod.fst hvalid
  refine ⟨by decide +kernel, s, v, w, hs, hv, hcategory, hisValid, fun hpaired => ?_⟩
  obtain ⟨placeholder, hnext, hinvalid⟩ := hpaired 0 v (by rw [hv]; rfl) hcategory
  rw [hv] at hnext
  cases hnext
  rw [hisValid] at hinvalid
  cases hinvalid

end Classmith
